import Harvest.Parser.Call
import Harvest.Proofs.Source.Pieces

/-!
# Counts

The last argument of a localization call may be a count: an integer literal, or a chain of names and
calls joined by dots and arrows, whose arguments are counts again. This module gives the pieces that
write a count down, and the calls with a count as their last argument.
-/

namespace Harvest

/-- What joins two links of a chain. -/
inductive Access
  | dot
  | arrow
deriving DecidableEq

def Access.piece : Access → Piece
  | dot => .dot
  | arrow => .arrow

/-- The parts of a count. -/
inductive CountPart
  | whole
  | chain
  | link
  | arguments

/-- A count or a part of it. -/
inductive Count : CountPart → Type
  | literal (i : IntegerLiteral) : Count .whole
  | chain (c : Count .chain) : Count .whole
  | last (l : Count .link) : Count .chain
  | member (l : Count .link) (access : Access) (rest : Count .chain) : Count .chain
  | name (n : Identifier) : Count .link
  | call (n : Identifier) (arguments : Count .arguments) : Count .link
  | empty : Count .arguments
  | one (e : Count .whole) : Count .arguments
  | more (e : Count .whole) (rest : Count .arguments) : Count .arguments

def Piece.opening : Piece := .plain (.opening .paren) rfl

def Piece.closing : Piece := .plain (.closing .paren) rfl

namespace Count

variable {part : CountPart}

def pieces {part : CountPart} : Count part → List Piece
  | literal i => [.integer i]
  | chain c => c.pieces
  | last l => l.pieces
  | member l access rest => l.pieces ++ access.piece :: rest.pieces
  | name n => [.word n]
  | call n arguments => .word n :: .opening :: (arguments.pieces ++ [.closing])
  | empty => []
  | one e => e.pieces
  | more e rest => e.pieces ++ .comma :: rest.pieces

def tokens (c : Count part) : List Token := c.pieces.flatMap Piece.tokens

/-- The name that a chain begins with. -/
def firstName? {part : CountPart} : Count part → Option Identifier
  | chain c => c.firstName?
  | last l => l.firstName?
  | member l _ _ => l.firstName?
  | name n => some n
  | call n _ => some n
  | _ => none

def isCall {part : CountPart} : Count part → Bool
  | call _ _ => true
  | _ => false

/-- No call of the chain itself has an arrow after it. -/
def unbroken {part : CountPart} : Count part → Bool
  | member l access rest => !(l.isCall && access = .arrow) && rest.unbroken
  | _ => true

/-- A literal without a suffix, or a chain that is not broken. The arguments do not matter. -/
def isSimple : Count .whole → Bool
  | literal i => i.suffix.isNone
  | chain c => c.unbroken

@[simp] theorem tokens_literal (i : IntegerLiteral) : (literal i).tokens = i.tokens := by
  simp [tokens, pieces, Piece.tokens]

@[simp] theorem tokens_chain (c : Count .chain) : (chain c).tokens = c.tokens := rfl

@[simp] theorem tokens_last (l : Count .link) : (last l).tokens = l.tokens := rfl

@[simp] theorem tokens_member (l : Count .link) (access : Access) (rest : Count .chain) :
    (member l access rest).tokens = l.tokens ++ (access.piece.tokens ++ rest.tokens) := by
  simp [tokens, pieces]

@[simp] theorem tokens_name (n : Identifier) : (name n).tokens = [.ident n.word] := rfl

@[simp] theorem tokens_call (n : Identifier) (arguments : Count .arguments) :
    (call n arguments).tokens =
      .ident n.word :: .opening .paren :: (arguments.tokens ++ [.closing .paren]) := by
  simp [tokens, pieces, Piece.tokens, Piece.word, Piece.opening, Piece.closing]

@[simp] theorem tokens_empty : empty.tokens = [] := rfl

@[simp] theorem tokens_one (e : Count .whole) : (one e).tokens = e.tokens := rfl

@[simp] theorem tokens_more (e : Count .whole) (rest : Count .arguments) :
    (more e rest).tokens = e.tokens ++ .comma :: rest.tokens := by
  simp [tokens, pieces, Piece.tokens]

/-- A count closes what it opens. -/
theorem balanced_tokens (c : Count part) : Depths.Balanced c.tokens := by
  induction c with
  | literal i =>
    have hsuffix : Depths.Balanced (i.suffix.elim [] fun s ↦ [.ident s.word]) := by
      cases i.suffix with
      | none => exact Depths.balanced_nil
      | some s => exact .cons (fun _ ↦ rfl) (by simp) Depths.balanced_nil
    rw [tokens_literal, IntegerLiteral.tokens]
    cases i.numeral with
    | zero => exact .cons (fun _ ↦ rfl) (by simp [Numeral.token]) hsuffix
    | _ => exact .cons (fun _ ↦ rfl) (by simp [Numeral.token]) hsuffix
  | chain c ih => exact ih
  | last l ih => exact ih
  | member l access rest ihl ihrest =>
    rw [tokens_member]
    refine ihl.append ?_
    cases access with
    | dot => exact ihrest
    | arrow => exact .cons (fun _ ↦ rfl) (by simp) ihrest
  | name n => exact .cons (fun _ ↦ rfl) (by simp) Depths.balanced_nil
  | call n arguments ih =>
    rw [tokens_call]
    exact .cons (fun _ ↦ rfl) (by simp) (.delimited .paren ih Depths.balanced_nil)
  | empty => exact Depths.balanced_nil
  | one e ih => exact ih
  | more e rest ihe ihrest =>
    rw [tokens_more]
    exact ihe.append (.cons (fun _ ↦ rfl) (by simp) ihrest)

theorem brace_notMem_tokens (c : Count part) : .opening .brace ∉ c.tokens := by
  induction c with
  | literal i =>
    rw [tokens_literal, IntegerLiteral.tokens]
    cases i.suffix <;> cases i.numeral <;> simp [Numeral.token]
  | member l access rest ihl ihrest => cases access <;> simp [Access.piece, Piece.tokens, ihl, ihrest]
  | _ => simp_all

end Count

/-- `translate("context", "text", "comment", count)`. The count does not begin with the name of an
application class or of an encoding, which would be an argument of another kind. -/
structure CountedCall where
  context : String
  text : String
  comment : String
  plain : ∀ s ∈ [context, text, comment], s.toList.all Token.isLiteralChar = true
  count : Count .whole
  usual : ∀ n ∈ count.firstName?,
    n.word ∉ Parser.applicationClasses ++ "UnicodeUTF8" :: Parser.unsupportedEncodings

namespace CountedCall

theorem backslash_not_mem (c : CountedCall) {s : String} (hs : s ∈ [c.context, c.text, c.comment]) :
    '\\' ∉ s.toList := fun h ↦ absurd (List.all_eq_true.1 (c.plain s hs) _ h) (by decide)

/-- The pieces after the name of the function. -/
def pieces (c : CountedCall) : List Piece :=
  .opening :: .plain (.string c.context) (c.plain _ (by simp)) :: .comma ::
    .plain (.string c.text) (c.plain _ (by simp)) :: .comma ::
    .plain (.string c.comment) (c.plain _ (by simp)) :: .comma :: (c.count.pieces ++ [.closing])

theorem getLast?_pieces (c : CountedCall) : c.pieces.getLast? = some .closing := by
  simp only [pieces, ← List.cons_append]
  exact List.getLast?_concat

/-- The tokens within the parentheses. -/
def arguments (c : CountedCall) : List Token :=
  .string c.context :: .comma :: .string c.text :: .comma :: .string c.comment :: .comma ::
    c.count.tokens

theorem tokens_pieces (c : CountedCall) :
    c.pieces.flatMap Piece.tokens = .opening .paren :: (c.arguments ++ [.closing .paren]) := by
  simp [pieces, arguments, Count.tokens, Piece.tokens, Piece.opening, Piece.closing]

theorem balanced_tokens (c : CountedCall) : Depths.Balanced (c.pieces.flatMap Piece.tokens) := by
  rw [tokens_pieces]
  refine .delimited .paren ?_ Depths.balanced_nil
  iterate 6 refine .cons (fun _ ↦ rfl) (by simp) ?_
  exact c.count.balanced_tokens

theorem brace_notMem_tokens (c : CountedCall) :
    .opening .brace ∉ c.pieces.flatMap Piece.tokens := by
  rw [tokens_pieces]
  simp [arguments, c.count.brace_notMem_tokens]

/-- There is a text, and the count is simple. -/
def isRecorded (c : CountedCall) : Bool := c.text ≠ "" && c.count.isSimple

/-- The message of the call, with what has been remarked before it. -/
def message (c : CountedCall) (p : Parser) (line : Nat) : Message :=
  { context := c.context
    sourceText := c.text
    comment := c.comment
    extraComment := Parser.shownComment p.remarks.extraComment
    id := p.remarks.id
    extras := p.remarks.extras
    plural := true
    kind := .translation
    file := p.file.text
    line }

end CountedCall

end Harvest
