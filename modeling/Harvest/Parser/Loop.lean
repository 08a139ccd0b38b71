import Harvest.Parser.Call
import Harvest.Parser.Declaration

/-!
# The main loop of a parser

Reads the tokens of a file to its end, keeping track of the open scopes and of the definition that
is under way, and hands calls and declarations on. How an include is followed is a parameter.
-/

namespace Harvest.Parser

/-- What an include of a file that was found does to the includer. -/
abbrev Includer := Path → Parser → Parser

/-- What may be a definition turns out to be one, as far as can be told. -/
def promote (p : Parser) : Parser :=
  if p.prospective = "" then p
  else { p with snapshot := { p.snapshot with pending := p.prospective }, prospective := "" }

/-- A closing brace leaves the scope that it closes, and the function body if it ends one. -/
def closeBrace (p : Parser) : Parser :=
  let depth := p.depths.brace
  p.setSnapshot ((p.snapshot.leave depth).endBody depth p.inPlace)

/-- The end of a statement. Remarks that nothing has used are reported and dropped. -/
def endStatement (p : Parser) : Parser :=
  let p := { p with prospective := "", statement := { p.statement with trailingReturn := false } }
  let p := p.clearQualifier
  let p :=
    if p.remarks.isEmpty then p
    else { p.report .discardedMetaData "Discarding unconsumed meta data" with remarks := {} }
  (p.expectRemarks true).advance

def onInclude (includer : Includer) (p : Parser) (written : String) (quoted : Bool) : Parser :=
  match resolveInclude p.files p.file written quoted p.options.includePaths with
  | none => p.advance
  | some path => (includer path p).advance

/-- An identifier is a call, a part of a qualifier, or neither. -/
def onIdent (p : Parser) (word : String) : Parser :=
  let p :=
    if p.statement.colonSeen && p.atDeclarationLevel then
      { p with statement := { p.statement with identSeen := true } }
    else p
  let p := p.advance
  if p.token = .opening .paren then
    match p.options.calls.lookup word with
    | some c => (p.call c).advance
    | none => p.clearQualifier.expectRemarks false
  else if p.token = .colonColon && !p.statement.trailingReturn then
    let qualifier := p.statement.qualifier ++ word
    { p with statement := { p.statement with qualifier }, remarksExpected := false }
  else p.clearQualifier.expectRemarks false

def onArrow (p : Parser) : Parser :=
  let p :=
    if p.atDeclarationLevel then
      { p with statement := { p.statement with trailingReturn := true } }
    else p
  let p := p.advance
  match p.token.ident?.bind p.options.calls.lookup with
  | some .tr | some .trUtf8 => p.report .invalidTrInvocation "Cannot invoke tr() like this"
  | _ => p

def onColonColon (p : Parser) : Parser :=
  if p.statement.identSeen || p.statement.trailingReturn then p.advance
  else
    let p :=
      if p.atDeclarationLevel && !p.statement.colonSeen then
        { p with prospective := p.statement.qualifier }
      else p
    let qualifier := p.statement.qualifier ++ "::"
    { p with statement := { p.statement with qualifier } }.advance

/-- Goes past access specifiers and the colon after them. -/
def skipAccess : Nat → Parser → Parser
  | 0, p => p
  | n + 1, p =>
    let p := p.advance
    if p.token = .access then skipAccess n p
    else
      let p := p.expectRemarks true
      if p.token.isColon then p.advance else p

/-- A colon that no semicolon follows before a brace begins a list of initializers; others are those
of bit fields. -/
def onColonOrEquals (p : Parser) : Parser :=
  let begins : Bool :=
    match p.token with
    | .colon ahead => ahead ≠ .semicolon
    | _ => false
  let p :=
    if p.atDeclarationLevel then
      let p := p.promote
      if begins then { p with statement := { p.statement with colonSeen := true } } else p
    else p
  (p.expectRemarks true).advance

def onOpeningBrace (p : Parser) : Parser :=
  let s := p.statement
  let outermost := p.depths.brace = p.snapshot.depths.length + 1 && p.depths.paren = 0
  let p := if outermost then p.promote else p
  let colonSeen := if outermost && !s.identSeen then false else s.colonSeen
  let p := { p with statement := { s with colonSeen, identSeen := false, trailingReturn := false } }
  (p.expectRemarks true).advance

def onOpeningParen (p : Parser) : Parser :=
  let p :=
    if !p.statement.colonSeen && p.atNamespaceLevel && p.depths.paren = 1 then p.promote else p
  let p := { p with statement := { p.statement with identSeen := false } }
  (p.expectRemarks true).advance

/-- After the parameters of what may be a definition it is open again whether it is one. -/
def onClosingParen (p : Parser) : Parser :=
  if p.depths.paren = 0 then
    let p :=
      if !p.statement.colonSeen && p.snapshot.pending ≠ "" && p.atNamespaceLevel then
        { p with prospective := p.snapshot.pending, snapshot := { p.snapshot with pending := "" } }
      else p
    (p.expectRemarks true).advance
  else (p.expectRemarks false).advance

/-- Goes on until the parentheses opened since are closed. -/
def skipParens (outer : Nat) : Nat → Parser → Parser
  | 0, p => p
  | n + 1, p =>
    if p.depths.paren = outer || p.token = .eof then p else skipParens outer n p.advance

def onClass (p : Parser) : Parser :=
  let p := p.advance
  if p.atDeclarationLevel then p.classHead else p

/-- One turn of the loop, at a token that is not the last one. -/
def turn (includer : Includer) (p : Parser) : Parser :=
  if p.depths.bracket > 0 && p.atNamespaceLevel then p.advance
  else
    match p.token with
    | .quotedInclude path => p.onInclude includer path true
    | .angledInclude path => p.onInclude includer path false
    | .friendWord => (p.advance.eat .classWord).2
    | .classWord => p.onClass
    | .namespaceWord => p.namespaceHead
    | .usingWord => p.usingHead
    | .marker => (p.modifyOpenScope fun s => { s with supportsTr := true }).advance
    | .ident word => p.onIdent word
    | .arrow => p.onArrow
    | .colonColon => p.onColonColon
    | .closing .brace => (if p.statement.colonSeen then p else p.closeBrace).endStatement
    | .semicolon => p.endStatement
    | .access => skipAccess p.budget p
    | .colon _ | .equals => p.onColonOrEquals
    | .opening .brace => p.onOpeningBrace
    | .opening .paren => p.onOpeningParen
    | .comma | .question => (p.expectRemarks true).advance
    | .closing .paren => p.onClosingParen
    | .decltypeWord => let q := p.advance; skipParens p.depths.paren q.budget q
    | .enumWord => (p.advance.eat .classWord).2
    | .closing .bracket => p.advance
    | _ =>
      let p :=
        if p.depths.paren = 0 && !p.statement.trailingReturn then p.clearProspective else p
      p.advance

def loop (includer : Includer) : Nat → Parser → Parser
  | 0, p => p
  | n + 1, p => if p.token = .eof then p else loop includer n (p.turn includer)

/-- Reads a file to its end. -/
def run (includer : Includer) (p : Parser) : Parser :=
  let p := { p.clearPending.clearProspective with remarksExpected := true, statement := {} }
  let p := p.advance
  let p := loop includer p.budget p
  p.trailing.foldl note p

end Harvest.Parser
