import Harvest.Parser.State

/-!
# Reading localization calls

Each call is read with its opening parenthesis as the current token, and leaves the last token of
its arguments current.
-/

namespace Harvest.Parser

/-! ### Arguments -/

/-- Adjacent literals, decoded and put together. -/
def literals : Nat → Parser → Option String × Parser
  | 0, p => (none, p)
  | n + 1, p =>
    let next (text : String) : Option String × Parser :=
      let (more, p) := literals n p.advance
      (some (text ++ more.getD ""), p)
    match p.token with
    | .string body => next (Text.Escape.decode body)
    | .rawString body => next body
    | _ => (none, p)

def text? (p : Parser) : Option String × Parser := literals p.budget p

/-- A text, or a null literal in place of an empty one. -/
def textOrNull? (p : Parser) : Option String × Parser :=
  match p.text? with
  | (some text, p) => (some text, p)
  | (none, p) => if p.token = .null then (some "", p.advance) else (none, p)

def applicationClasses : List String := ["QApplication", "QCoreApplication"]

def unsupportedEncodings : List String := ["Latin1", "DefaultCodec", "CodecForTr"]

/-- The encoding argument `UnicodeUTF8`, possibly qualified. -/
def encoding? (p : Parser) : Bool × Parser :=
  match p.token.ident? with
  | none => (false, p)
  | some word =>
    let p := if word ∈ applicationClasses then (p.advance.eat .colonColon).2 else p
    match p.token.ident? with
    | some "UnicodeUTF8" => (true, p.advance)
    | some word =>
      if word ∈ unsupportedEncodings then
        (false, p.report .unsupportedEncoding "Unsupported encoding Latin1/DefaultCodec/CodecForTr")
      else (false, p)
    | none => (false, p)

/-- The rest of a count, `level` parentheses deep. -/
def countFrom : Nat → Nat → Parser → Bool × Parser
  | 0, _, p => (false, p)
  | n + 1, level, p =>
    let isIdent := p.token.ident?.isSome
    let p := if isIdent then p.advance else p
    if !isIdent && level = 0 then (true, p)
    else
      match p.token with
      | .closing .paren => if level = 0 then (true, p) else countFrom n (level - 1) p.advance
      | .opening .paren =>
        let p := p.advance
        if p.token = .closing .paren then countFrom n level p.advance
        else countFrom n (level + 1) p
      | .ident _ => countFrom n level p
      | .arrow => countFrom n level p.advance
      | .eof | .cancel => (false, p)
      | _ => if level = 0 then (false, p) else countFrom n level p.advance

/-- A simple numeric expression: a literal, an identifier, a call, or a chain of member calls. -/
def count? (p : Parser) : Bool × Parser :=
  if p.token = .null || p.token = .integer then (true, p.advance) else countFrom p.budget 0 p

/-! ### Messages -/

/-- Adds the message of a call, with what the remarks say about it. -/
def record (p : Parser) (line : Nat) (context text comment : String) (plural : Bool) : Parser :=
  let m : Message :=
    { context
      sourceText := text
      comment
      extraComment := shownComment p.remarks.extraComment
      id := p.remarks.id
      extras := p.remarks.extras
      plural
      kind := .translation
      file := p.file.text
      line }
  { p.addMessage m with remarks := { p.remarks with id := "", extras := [] } }

/-- Settles who owns the function body that began with a qualified definition. -/
def resolvePending (p : Parser) : Parser :=
  let s := p.snapshot
  match p.forest.qualifyWritten p.tree s.namespaces s.pending true with
  | (.ok owner, forest) =>
    (p.setForest forest).setSnapshot { s with functionContext := owner, pending := "" }
  | (.error rest, forest) =>
    let p := (p.setForest forest).setSnapshot
      { s with
        functionContext := rest.resolved
        unresolved := Name.join rest.unresolved
        pending := "" }
    p.report .unknownQualifier
      ("Qualifying with unknown namespace/class " ++ rest.resolved.render ++ "::" ++
        rest.unresolved.headD "")

/-- The qualifier without its last separator. -/
def writtenQualifier (qualifier : String) : String :=
  match qualifier.toList.reverse with
  | ':' :: ':' :: rest => String.ofList rest.reverse
  | _ => qualifier

/-- The context of a call at the current place; there is none outside of all scopes. -/
def callContext? (p : Parser) : Option Context × Parser :=
  let s := p.snapshot
  let qualifier := p.statement.qualifier
  if qualifier ≠ "" then
    let (context, forest) :=
      p.forest.qualifiedContext p.tree s.functionContext (writtenQualifier qualifier)
    (some context, (p.setForest forest).clearQualifier)
  else if s.unresolved ≠ "" then
    (some ⟨joinContexts s.functionContext.render s.unresolved, false⟩, p)
  else if s.functionContext.length < 2 then
    (none, p.report .missingContext "tr() cannot be called without context")
  else
    let (context, forest) := p.forest.unqualifiedContext p.tree s.functionContext
    (some context, p.setForest forest)

/-- The comment after the text of a call, and whether a count follows it. -/
def commentAndCount (p : Parser) (plural : Bool) : String × Bool × Parser :=
  match p.eat .comma with
  | (false, p) => ("", plural, p)
  | (true, p) =>
    match p.textOrNull? with
    | (none, p) => ("", plural, p)
    | (some comment, p) =>
      let (counted, p) := p.eat .comma
      (comment, plural || counted, p)

/-- Whether the definition that is under way still has to be settled for the call. -/
def pendingMatters (p : Parser) : Bool :=
  p.snapshot.pending ≠ "" && !p.statement.qualifier.startsWith "::"

/-- The text of the call at `line` is read. Outside of all scopes the remarks are kept. -/
def trMessage (p : Parser) (line : Nat) (text : String) (plural : Bool) : Parser :=
  let (comment, plural, p) := p.commentAndCount plural
  let p := if p.pendingMatters then p.resolvePending else p
  match p.callContext? with
  | (none, p) => p
  | (some context, p) =>
    let p :=
      if context.lacksSupport then
        p.report .missingTrSupport ("Class '" ++ context.text ++ "' lacks Q_OBJECT macro")
      else p
    (p.record line context.text text comment plural).forgetRemarks

/-- `tr(text, comment, count)`. -/
def trCall (p : Parser) (plural : Bool) : Parser :=
  let p :=
    if p.remarks.sourceText = "" then p
    else p.report .ignoredRemark "//% cannot be used with tr() / QT_TR_NOOP(). Ignoring"
  let line := p.line
  match p.advance.text? with
  | (none, p) => p.forgetRemarks
  | (some text, p) => if text = "" then p.forgetRemarks else p.trMessage line text plural

/-- What follows the text of `translate`: the comment and whether it is a plural. Arguments that
make no sense drop the call. -/
def translateArguments (p : Parser) (plural : Bool) : Option (String × Bool) × Parser :=
  if p.token = .closing .paren then (some ("", plural), p)
  else
    match p.eat .comma with
    | (false, p) => (none, p)
    | (true, p) =>
      match p.textOrNull? with
      | (none, p) => (none, p)
      | (some comment, p) =>
        if p.token = .closing .paren then (some (comment, plural), p)
        else
          match p.eat .comma with
          | (false, p) => (none, p)
          | (true, p) =>
            match p.encoding? with
            | (true, p) =>
              let (counted, p) := p.eat .comma
              (some (comment, plural || counted), p)
            | (false, p) =>
              match p.count? with
              | (true, p) =>
                if p.token = .closing .paren then (some (comment, true), p) else (none, p)
              | (false, p) => (none, p)

/-- The context of `translate` and the text after it. -/
def contextAndText? (p : Parser) : Option (String × String) × Parser :=
  match p.text? with
  | (none, p) => (none, p)
  | (some context, p) =>
    match p.eat .comma with
    | (false, p) => (none, p)
    | (true, p) =>
      match p.text? with
      | (none, p) => (none, p)
      | (some text, p) => (if text = "" then none else some (context, text), p)

/-- `translate(context, text, comment, count)`. A call that is dropped for its last arguments keeps
the remarks. -/
def translateCall (p : Parser) (plural : Bool) : Parser :=
  let p :=
    if p.remarks.sourceText = "" then p
    else p.report .ignoredRemark
      "//% cannot be used with translate() / QT_TRANSLATE_NOOP(). Ignoring"
  let line := p.line
  match p.advance.contextAndText? with
  | (none, p) => p.forgetRemarks
  | (some (context, text), p) =>
    match p.translateArguments plural with
    | (none, p) => p
    | (some (comment, plural), p) => (p.record line context text comment plural).forgetRemarks

/-- `qtTrId(id, count)`; the text is that of a remark. -/
def trIdCall (p : Parser) (plural : Bool) : Parser :=
  let p :=
    if p.remarks.id = "" then p
    else p.report .ignoredRemark "//= cannot be used with qtTrId() / QT_TRID_NOOP(). Ignoring"
  let line := p.line
  match p.advance.text? with
  | (none, p) => p.forgetRemarks
  | (some id, p) =>
    if id = "" then p.forgetRemarks
    else
      let (counted, p) := p.eat .comma
      let p := { p with remarks := { p.remarks with id } }
      (p.record line "" (Text.Escape.decode p.remarks.sourceText) ""
        (plural || counted)).forgetRemarks

/-- The name in `Q_DECLARE_TR_FUNCTIONS(name)`, read up to the closing parenthesis. -/
def declaredName : Nat → String → Parser → Option String × Parser
  | 0, _, p => (none, p)
  | n + 1, name, p =>
    let p := p.advance
    match p.token.ident? with
    | none => (none, p)
    | some word =>
      let p := p.advance
      match p.token with
      | .closing .paren => (some (name ++ word), p)
      | .colonColon => declaredName n (name ++ word ++ "::") p
      | _ => (none, p)

/-- `Q_DECLARE_TR_FUNCTIONS(name)` gives the open class localization support under that name. -/
def declareCall (p : Parser) : Parser :=
  match declaredName p.budget "" p with
  | (none, p) => p
  | (some name, p) =>
    p.modifyOpenScope fun s => { s with supportsTr := true, qualification := some name }

def call (p : Parser) (c : Call) : Parser :=
  match c.shape with
  | .declare => p.declareCall
  | .tr => p.trCall c.forcesPlural
  | .translate => p.translateCall c.forcesPlural
  | .trId => p.trIdCall c.forcesPlural

end Harvest.Parser
