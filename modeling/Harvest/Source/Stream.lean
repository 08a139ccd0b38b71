import Harvest.Source.Lexeme

/-!
# Token streams

The second reading of a source text: the lexemes become a list of tokens, each with its line, the
delimiter depths after it, and the notes taken on the way to it. The branches of a conditional are
reconciled to the first one and the body of a macro is kept from disturbing what surrounds it: a
note says where the reader's state is to be kept and where a kept state is to be taken up again.
-/

namespace Harvest

/-- How many delimiters of each kind are open. -/
structure Depths where
  brace : Nat := 0
  paren : Nat := 0
  bracket : Nat := 0
deriving DecidableEq, Repr

namespace Depths

/-- The greatest number that depths are counted up to. One less than zero is counted as this. -/
def greatest : Nat := 0xFFFFFFFFFFFFFFFF

def get (depths : Depths) : Delimiter → Nat
  | .brace => depths.brace
  | .paren => depths.paren
  | .bracket => depths.bracket

def set (depths : Depths) (d : Delimiter) (n : Nat) : Depths :=
  match d with
  | .brace => { depths with brace := n }
  | .paren => { depths with paren := n }
  | .bracket => { depths with bracket := n }

end Depths

/-- What a reader of tokens is told between them. -/
inductive Note
  /-- Keep the current state under this number. -/
  | save (slot : Nat)
  /-- Take up the state kept under this number. -/
  | restore (slot : Nat)
  | macroEnded
  | comment (body : String) (line : Nat)
  | problem (line : Nat) (kind : DiagnosticKind) (message : String)
deriving DecidableEq, Repr

structure Item where
  notes : List Note
  token : Token
  line : Nat
  depths : Depths
deriving DecidableEq, Repr

/-- A conditional that is open: the depths at its start and, once its first branch has ended, the
depths there, where the state was kept, and the line of the directive that opened the last
branch. -/
structure Conditional where
  start : Depths
  first : Option (Depths × Nat)
  line : Nat
deriving DecidableEq, Repr

/-- A macro body that is open: where the state was kept, and the brace depth at its start. -/
structure MacroBody where
  slot : Nat
  floor : Nat
deriving DecidableEq, Repr

/-- What is open at some point of a text. -/
structure Nesting where
  depths : Depths := {}
  /-- The line on which the outermost open delimiter of each kind stands. -/
  outermost : Depths := ⟨1, 1, 1⟩
  macroBody : Option MacroBody := none
  conditionals : List Conditional := []
  /-- How many states were kept so far. -/
  saves : Nat := 0
  /-- Whether braces have been counted below zero. -/
  wrapped : Bool := false
deriving DecidableEq, Repr

namespace Nesting

/-- The least brace depth that a closing brace may lead to. -/
def floor (n : Nesting) : Nat := (n.macroBody.map MacroBody.floor).getD 0

def delimiterName : Delimiter → String
  | .brace => "brace"
  | .paren => "parenthesis"
  | .bracket => "bracket"

def excessMessage (d : Delimiter) : String :=
  "Excess closing " ++ delimiterName d ++ " in C++ code (or abuse of the C++ preprocessor)"

def unbalancedMessage (d : Delimiter) : String :=
  "Unbalanced opening " ++ delimiterName d ++ " in C++ code (or abuse of the C++ preprocessor)"

def mismatchAtAlternative : String :=
  "Parenthesis/bracket/brace mismatch between #if and #else branches; using #if branch"

def mismatchAtEnd : String :=
  "Parenthesis/brace mismatch between #if and #else branches; using #if branch"

/-- What a lexeme does: the new nesting, the notes it gives rise to, and its token, if it has
one. -/
structure Effect where
  nesting : Nesting
  notes : List Note
  token : Option Token

/-- The depth after one more opening. Only where braces were counted below zero can there be so many
that zero comes next. -/
def raised (n : Nesting) (d : Delimiter) : Nat :=
  if n.wrapped && d = .brace && n.depths.brace = Depths.greatest then 0 else n.depths.get d + 1

def openDelimiter (n : Nesting) (d : Delimiter) (line : Nat) : Effect :=
  let outermost := if n.depths.get d = 0 then n.outermost.set d line else n.outermost
  ⟨{ n with depths := n.depths.set d (n.raised d), outermost }, [], some (.opening d)⟩

/-- Whether a closing brace is counted below zero: in a macro body that began at a greater depth. -/
def underflows (n : Nesting) : Bool := n.depths.brace = 0 && n.floor ≠ 0

/-- A closing brace that nothing opened counts as a semicolon; a macro body may hold one without
complaint. -/
def closeDelimiter (n : Nesting) (d : Delimiter) (line : Nat) : Effect :=
  let excess : Note := .problem line .excessClosingDelimiter (excessMessage d)
  let closed : Nesting := { n with depths := n.depths.set d (n.depths.get d - 1) }
  match d with
  | .brace =>
    if n.depths.brace = n.floor then
      ⟨n, if n.macroBody.isSome then [] else [excess], some .semicolon⟩
    else if n.underflows then
      ⟨{ n with depths := n.depths.set d Depths.greatest, wrapped := true }, [], some (.closing d)⟩
    else ⟨closed, [], some (.closing d)⟩
  | _ =>
    if n.depths.get d = 0 then ⟨n, [excess], some (.closing d)⟩
    else ⟨closed, [], some (.closing d)⟩

/-- The end of a line ends an open macro body: what was kept at its start is taken up again. -/
def endLine (n : Nesting) : Effect :=
  match n.macroBody with
  | none => ⟨n, [], none⟩
  | some body =>
    ⟨{ n with depths := { n.depths with brace := body.floor }, macroBody := none },
      [.restore body.slot, .macroEnded], some .cancel⟩

/-- A further branch starts with the depths that the conditional started with. The first one ends
here if no other did; else a branch that ended at other depths is reported. -/
def alternative (n : Nesting) (line : Nat) : Nesting × List Note :=
  match n.conditionals with
  | [] => (n, [])
  | c :: outer =>
    match c.first with
    | none =>
      let c' : Conditional := { c with first := some (n.depths, n.saves), line }
      ({ n with depths := c.start, conditionals := c' :: outer, saves := n.saves + 1 },
        [.save n.saves])
    | some (ended, _) =>
      let notes :=
        if ended = n.depths then [] else [.problem c.line .branchMismatch mismatchAtAlternative]
      ({ n with depths := c.start, conditionals := { c with line } :: outer }, notes)

/-- At the end of a conditional with several branches everything is as at the end of the first. -/
def endConditional (n : Nesting) : Nesting × List Note :=
  match n.conditionals with
  | [] => (n, [])
  | c :: outer =>
    match c.first with
    | none => ({ n with conditionals := outer }, [])
    | some (ended, slot) =>
      let notes := if ended = n.depths then [] else [.problem c.line .branchMismatch mismatchAtEnd]
      ({ n with depths := ended, conditionals := outer }, notes ++ [.restore slot])

def directive (n : Nesting) (d : Directive) (line : Nat) : Nesting × List Note :=
  match d with
  | .conditional => ({ n with conditionals := ⟨n.depths, none, 0⟩ :: n.conditionals }, [])
  | .alternative => n.alternative line
  | .conditionalEnd => n.endConditional
  | .macroBody =>
    ({ n with macroBody := some ⟨n.saves, n.depths.brace⟩, saves := n.saves + 1 }, [.save n.saves])
  | .other => (n, [])

/-- What one lexeme does. -/
def step (n : Nesting) (x : Lexeme) : Effect :=
  let fault : List Note := (x.fault.map fun f => Note.problem x.line f.kind f.message).toList
  match x.kind with
  | .passed => ⟨n, fault, none⟩
  | .newline => n.endLine
  | .token t => ⟨n, fault, some t⟩
  | .opening d => n.openDelimiter d x.line
  | .closing d => n.closeDelimiter d x.line
  | .comment body => ⟨n, fault ++ [.comment body x.line], none⟩
  | .directive d =>
    let (n', notes) := n.directive d x.line
    ⟨n', notes ++ fault, none⟩

/-- The report of a delimiter that is still open at the end of a text, braces first. -/
def unbalanced (n : Nesting) : List Note :=
  let report (d : Delimiter) : List Note :=
    [.problem (n.outermost.get d) .unbalancedOpeningDelimiter (unbalancedMessage d)]
  if n.depths.brace ≠ 0 then report .brace
  else if n.depths.paren ≠ 0 then report .paren
  else if n.depths.bracket ≠ 0 then report .bracket
  else []

/-- The tokens of the lexemes, from the nesting `n` on. `notes` are those taken since the last
token and `line` is the line of the last lexeme. -/
def items (n : Nesting) (notes : List Note) (line : Nat) : List Lexeme → List Item
  | [] => [⟨notes, .eof, line, n.depths⟩]
  | x :: xs =>
    let effect := n.step x
    match effect.token with
    | none => items effect.nesting (notes ++ effect.notes) x.line xs
    | some t =>
      ⟨notes ++ effect.notes, t, x.line, effect.nesting.depths⟩ ::
        items effect.nesting [] x.line xs

/-- What is open after the lexemes. -/
def after (n : Nesting) (xs : List Lexeme) : Nesting :=
  xs.foldl (fun n x => (n.step x).nesting) n

end Nesting

/-- The tokens of a text, ending in `Token.eof`, and the notes taken past its end. -/
structure Stream where
  items : List Item
  trailing : List Note

namespace Stream

def ofLexemes (xs : List Lexeme) : Stream :=
  ⟨Nesting.items {} [] 1 xs, (Nesting.after {} xs).unbalanced⟩

def ofText (text : String) : Stream := ofLexemes (Lexeme.scan (Glyph.ofText text))

end Stream

end Harvest
