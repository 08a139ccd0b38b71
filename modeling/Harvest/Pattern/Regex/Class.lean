import Harvest.Pattern.Regex.Escape

/-!
# Bracketed classes

Sets of characters between brackets: characters, ranges, escapes, named classes and further
brackets, and the operations `&&`, `--` and `~~` between such lists, which are read from left to
right.
-/

namespace Harvest.Regex

/-- A set that was read, and how deep brackets and operations nest in it. -/
structure ClassPart where
  set : CharSet
  depth : Nat

inductive SetOperation
  | inter
  | diff
  | symmDiff
deriving DecidableEq, Repr

namespace ClassPart

/-- All parts of a list together. -/
def union (parts : List ClassPart) : ClassPart :=
  match parts with
  | [part] => part
  | parts =>
    { set := .unions (parts.map ClassPart.set)
      depth := if parts.isEmpty then 0 else ((parts.map ClassPart.depth).max?.getD 0) + 1 }

/-- What an operation that waits for its right side makes of it. -/
def apply (mode : Mode) (waiting : Option (SetOperation × ClassPart)) (right : ClassPart) :
    ClassPart :=
  match waiting with
  | none => right
  | some (operation, left) =>
    let a := mode.widen left.set
    let b := mode.widen right.set
    { set := match operation with
        | .inter => .inter a b
        | .diff => .diff a b
        | .symmDiff => .symmDiff a b
      depth := max left.depth right.depth + 1 }

end ClassPart

/-- The classes with a name. -/
def namedClass? : String → Option (List (Nat × Nat))
  | "alnum" => some [(0x30, 0x39), (0x41, 0x5A), (0x61, 0x7A)]
  | "alpha" => some [(0x41, 0x5A), (0x61, 0x7A)]
  | "ascii" => some [(0x00, 0x7F)]
  | "blank" => some [(0x09, 0x09), (0x20, 0x20)]
  | "cntrl" => some [(0x00, 0x1F), (0x7F, 0x7F)]
  | "digit" => some [(0x30, 0x39)]
  | "graph" => some [(0x21, 0x7E)]
  | "lower" => some [(0x61, 0x7A)]
  | "print" => some [(0x20, 0x7E)]
  | "punct" => some [(0x21, 0x2F), (0x3A, 0x40), (0x5B, 0x60), (0x7B, 0x7E)]
  | "space" => some [(0x09, 0x0D), (0x20, 0x20)]
  | "upper" => some [(0x41, 0x5A)]
  | "word" => some [(0x30, 0x39), (0x41, 0x5A), (0x5F, 0x5F), (0x61, 0x7A)]
  | "xdigit" => some [(0x30, 0x39), (0x41, 0x46), (0x61, 0x66)]
  | _ => none

/-- A named class after its opening bracket: whether it is negated, its ranges and what follows. -/
def colonClass? : List Char → Option (Bool × CharSet × List Char)
  | ':' :: rest =>
    let (negated, rest) :=
      match rest with
      | '^' :: rest => (true, rest)
      | rest => (false, rest)
    match rest.dropWhile (· ≠ ':') with
    | ':' :: ']' :: after =>
      (namedClass? (String.ofList (rest.takeWhile (· ≠ ':')))).map fun ranges =>
        (negated, .ofRanges ranges, after)
    | _ => none
  | _ => none

/-- A character or a class that stands in a list. -/
def classItem? (mode : Mode) (cs : List Char) : Option ((Char ⊕ CharSet) × List Char) :=
  let plain (c : Char) (rest : List Char) : Option ((Char ⊕ CharSet) × List Char) :=
    if mode.unicode || c.toNat < 0x80 then some (.inl c, rest) else none
  match cs with
  | [] => none
  | '\\' :: rest =>
    match escape? mode rest with
    | some (.char c _, rest) => plain c rest
    | some (.set s, rest) => some (.inr s, rest)
    | _ => none
  | c :: rest => plain c rest

/-- An item of a list, which is a range if a dash and another character follow. -/
def classRange? (mode : Mode) (cs : List Char) : Option (CharSet × List Char) :=
  let alone (item : Char ⊕ CharSet) : CharSet :=
    match item with
    | .inl c => .single c
    | .inr s => s
  match classItem? mode cs with
  | none => none
  | some (item, rest) =>
    match mode.skip rest with
    | [] => none
    | '-' :: rest =>
      match mode.skip rest with
      | [] => none
      | ']' :: _ | '-' :: _ => some (alone item, '-' :: rest)
      | next =>
        match item, classItem? mode next with
        | .inl low, some (.inl high, rest) =>
          if low ≤ high then some (.range low.toNat high.toNat, rest) else none
        | _, _ => none
    | rest => some (alone item, rest)

mutual

/-- Reads a class after its opening bracket. Dashes at its start and, without them, a closing
bracket at its start are characters of the class. -/
def readClass : Nat → Mode → List Char → Option (ClassPart × List Char)
  | 0, _, _ => none
  | fuel + 1, mode, cs =>
    let (negated, cs) :=
      match mode.skip cs with
      | '^' :: rest => (true, mode.skip rest)
      | cs => (false, cs)
    let (dashes, cs) := mode.span (· = '-') cs.length cs
    let first : List ClassPart := dashes.map fun c => ⟨.single c, 0⟩
    let body :=
      match cs with
      | ']' :: rest =>
        if first.isEmpty then readList fuel mode none [⟨.single ']', 0⟩] rest
        else readList fuel mode none first cs
      | cs => readList fuel mode none first cs
    match body with
    | none => none
    | some (part, rest) =>
      (mode.close? negated part.set).map fun set => (⟨set, part.depth + 1⟩, rest)

/-- Reads the rest of a list up to the closing bracket; `waiting` is the operation before the
list. -/
def readList : Nat → Mode → Option (SetOperation × ClassPart) → List ClassPart → List Char →
    Option (ClassPart × List Char)
  | 0, _, _, _, _ => none
  | fuel + 1, mode, waiting, parts, cs =>
    let left := ClassPart.apply mode waiting (.union parts)
    match mode.skip cs with
    | [] => none
    | ']' :: rest => some (left, rest)
    | '&' :: '&' :: rest => readList fuel mode (some (.inter, left)) [] rest
    | '-' :: '-' :: rest => readList fuel mode (some (.diff, left)) [] rest
    | '~' :: '~' :: rest => readList fuel mode (some (.symmDiff, left)) [] rest
    | '[' :: rest =>
      match colonClass? rest with
      | some (negated, s, rest) =>
        match mode.close? negated s with
        | some s => readList fuel mode waiting (parts ++ [⟨s, 0⟩]) rest
        | none => none
      | none =>
        match readClass fuel mode rest with
        | some (part, rest) => readList fuel mode waiting (parts ++ [part]) rest
        | none => none
    | cs =>
      match classRange? mode cs with
      | some (s, rest) => readList fuel mode waiting (parts ++ [⟨s, 0⟩]) rest
      | none => none

end

end Harvest.Regex
