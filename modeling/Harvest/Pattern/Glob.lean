import Harvest.Pattern.CharSet
import Harvest.Text.Blank

/-!
# Wildcard patterns

Patterns for paths. `?` stands for one character, `*` for any characters, brackets for one character
of a set, and `**` as a whole component for any number of directories. A slash is a character like
any other to `?`, `*` and sets.
-/

namespace Harvest

inductive GlobToken
  | literal (c : Char)
  | one (s : CharSet)
  | many
  | directories
deriving DecidableEq, Repr

structure Glob where
  tokens : List GlobToken
deriving DecidableEq, Repr

namespace Glob

/-- Whether a text is a pattern and not just a path. -/
def hasWildcard (text : String) : Bool := text.toList.any fun c => c = '*' || c = '?'

/-- The ranges in a set; a single character is a range of its own. -/
def ranges : List Char → List (Nat × Nat)
  | a :: '-' :: b :: rest => (a.toNat, b.toNat) :: ranges rest
  | a :: rest => (a.toNat, a.toNat) :: ranges rest
  | [] => []

/-- Reads a set after its opening bracket. The first character of a set does not close it. -/
def set? : List Char → Option (CharSet × List Char)
  | '!' :: a :: rest =>
    (Text.splitFirst ']' rest).map fun (inner, rest) =>
      (.compl (.ofRanges (ranges (a :: inner))), rest)
  | '!' :: [] => none
  | a :: rest =>
    (Text.splitFirst ']' rest).map fun (inner, rest) => (.ofRanges (ranges (a :: inner)), rest)
  | [] => none

theorem length_lt_of_splitFirst {c : Char} {cs a b : List Char}
    (h : Text.splitFirst c cs = some (a, b)) : b.length < cs.length := by
  induction cs generalizing a with
  | nil => simp [Text.splitFirst] at h
  | cons d rest ih =>
    rw [Text.splitFirst] at h
    split at h
    · simp_all
    · obtain ⟨⟨a', b'⟩, h', heq⟩ := Option.map_eq_some_iff.1 h
      simp only [Prod.mk.injEq] at heq
      have hlt := ih (heq.2 ▸ h')
      simp only [List.length_cons]
      omega

theorem length_lt_of_set? {cs rest : List Char} {s : CharSet} (h : set? cs = some (s, rest)) :
    rest.length < cs.length := by
  rw [set?.eq_def] at h
  split at h
  · obtain ⟨⟨a, b⟩, h', heq⟩ := Option.map_eq_some_iff.1 h
    simp only [Prod.mk.injEq] at heq
    have hlt := length_lt_of_splitFirst (heq.2 ▸ h')
    simp only [List.length_cons]
    omega
  · simp at h
  · obtain ⟨⟨a, b⟩, h', heq⟩ := Option.map_eq_some_iff.1 h
    simp only [Prod.mk.injEq] at heq
    have hlt := length_lt_of_splitFirst (heq.2 ▸ h')
    simp only [List.length_cons]
    omega
  · simp at h

/-- Reads the tokens of a pattern; `before` is the character in front of it. -/
def tokens? (before : Option Char) (cs : List Char) : Option (List GlobToken) :=
  match cs with
  | [] => some []
  | '?' :: rest => (tokens? (some '?') rest).map (.one .all :: ·)
  | '*' :: '*' :: rest =>
    if before = none || before = some '/' then
      match rest with
      | [] => some [.directories]
      | '/' :: rest => (tokens? (some '/') rest).map (.directories :: ·)
      | _ => none
    else none
  | '*' :: rest => (tokens? (some '*') rest).map (.many :: ·)
  | '[' :: rest =>
    match _h : set? rest with
    | some (s, rest) => (tokens? (some ']') rest).map (.one s :: ·)
    | none => none
  | c :: rest => (tokens? (some c) rest).map (.literal c :: ·)
termination_by cs.length
decreasing_by
  case _ => simp
  case _ =>
    simp only [List.length_cons]
    omega
  case _ => simp
  case _ =>
    have hlt := length_lt_of_set? _h
    simp only [List.length_cons]
    omega
  case _ => simp

def parse? (text : String) : Option Glob := (tokens? none text.toList).map Glob.mk

/-- For each place of a row, whether it or a later one holds. -/
def fromHere : List Bool → List Bool
  | [] => []
  | b :: bs =>
    let later := fromHere bs
    (b || later.headD false) :: later

/-- For each place of a text, whether a place after a slash that follows it, or the end, holds. -/
def afterSlash : List Char → List Bool → List Bool
  | c :: cs, _ :: row =>
    let later := afterSlash cs row
    ((c = '/' && row.headD false) || later.headD false) :: later
  | _, row => row

/-- For each place of a text, from its start to its end, whether the tokens describe what
follows. -/
def row : List GlobToken → List Char → List Bool
  | [], cs => cs.map (fun _ => false) ++ [true]
  | .literal d :: tokens, cs =>
    List.zipWith (fun c after => c = d && after) cs (row tokens cs).tail ++ [false]
  | .one s :: tokens, cs =>
    List.zipWith (fun c after => s.mem c && after) cs (row tokens cs).tail ++ [false]
  | .many :: tokens, cs => fromHere (row tokens cs)
  | .directories :: tokens, cs =>
    let here := row tokens cs
    List.zipWith or here (afterSlash cs here)

def isMatch (g : Glob) (text : String) : Bool := (row g.tokens text.toList).headD false

/-- The text of a pattern that has nothing but literal characters. -/
def literal? (g : Glob) : Option String :=
  (g.tokens.mapM fun (token : GlobToken) =>
    match token with
    | .literal c => some c
    | _ => none).map String.ofList

def isRecursive (g : Glob) : Bool := g.tokens.any (· = .directories)

end Glob

end Harvest
