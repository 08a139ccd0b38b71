import Harvest.Call
import Harvest.Diagnostic
import Harvest.Include.Cache
import Harvest.Include.Search
import Harvest.Remark
import Harvest.Scope.Context
import Harvest.Source.Stream
import Harvest.Text.Escape

/-!
# The state of a parser

A parser reads the tokens of one file. It knows the open scopes, the remarks collected for the next
message and what it has found so far, and it shares the scope forest, the include cache and the
diagnostics with the parsers of other files.
-/

namespace Harvest

/-- What stays fixed for a whole extraction. -/
structure Options where
  includePaths : List Path := []
  /-- Includes of files at these cleaned paths are not followed. -/
  excludes : Path → Bool := fun _ => false
  calls : CallTable := {}

/-- What all parsers of an extraction share. -/
structure Session where
  forest : Forest := {}
  cache : IncludeCache := {}
  diagnostics : Array Diagnostic := #[]

/-- What remarks have said about the next message. -/
structure Remarks where
  sourceText : String := ""
  extraComment : String := ""
  id : String := ""
  extras : Extras := []
deriving DecidableEq, Repr

def Remarks.isEmpty (r : Remarks) : Bool :=
  r.sourceText = "" && r.extraComment = "" && r.id = "" && r.extras.isEmpty

/-- What was read of the current statement. -/
structure Statement where
  /-- The qualifier in front of the current identifier, with its separators. -/
  qualifier : String := ""
  /-- The list of a constructor's initializers has begun. -/
  colonSeen : Bool := false
  /-- One of the initializers has begun. -/
  identSeen : Bool := false
  /-- A return type after the parameters may be under way. -/
  trailingReturn : Bool := false
deriving DecidableEq, Repr

structure Parser where
  options : Options
  files : FileTree
  file : Path
  /-- The file is read in place of an include, on behalf of the includer. -/
  inPlace : Bool
  /-- The files that are being read, the outermost first and this one last. -/
  stack : List Path
  /-- The tokens after the current one. -/
  rest : List Item
  token : Token := .eof
  line : Nat := 1
  depths : Depths := {}
  /-- The notes past the last token. -/
  trailing : List Note
  snapshot : Snapshot := {}
  /-- The snapshots that were kept, by slot. -/
  kept : Array Snapshot := #[]
  /-- The tree of this file's scopes. -/
  tree : Nat
  remarks : Remarks := {}
  /-- A comment at this place may be a remark. -/
  remarksExpected : Bool := true
  /-- The qualifier of what may turn out to be a definition. -/
  prospective : String := ""
  statement : Statement := {}
  messages : Array Message := #[]
  session : Session

namespace Parser

/-- A parser at the start of a file. -/
def start (options : Options) (files : FileTree) (file : Path) (source : String) (inPlace : Bool)
    (stack : List Path) (tree : Nat) (messages : Array Message) (session : Session) : Parser :=
  let stream := Stream.ofText source
  { options, files, file, inPlace, stack, rest := stream.items, trailing := stream.trailing, tree,
    messages, session }

def forest (p : Parser) : Forest := p.session.forest

def setForest (p : Parser) (forest : Forest) : Parser :=
  { p with session := { p.session with forest } }

def setCache (p : Parser) (cache : IncludeCache) : Parser :=
  { p with session := { p.session with cache } }

def reportAt (p : Parser) (line : Nat) (kind : DiagnosticKind) (message : String) : Parser :=
  let d : Diagnostic := ⟨p.file.text, line, kind, message⟩
  { p with session := { p.session with diagnostics := p.session.diagnostics.push d } }

/-- Reports a problem at the line of the current token. -/
def report (p : Parser) (kind : DiagnosticKind) (message : String) : Parser :=
  p.reportAt p.line kind message

def addMessage (p : Parser) (m : Message) : Parser := { p with messages := p.messages.push m }

def expectRemarks (p : Parser) (expected : Bool) : Parser := { p with remarksExpected := expected }

/-- Drops the collected remarks; the next comment is none. -/
def forgetRemarks (p : Parser) : Parser := { p with remarks := {}, remarksExpected := false }

def setSnapshot (p : Parser) (snapshot : Snapshot) : Parser := { p with snapshot }

def clearPending (p : Parser) : Parser := { p with snapshot := { p.snapshot with pending := "" } }

def clearProspective (p : Parser) : Parser := { p with prospective := "" }

def clearQualifier (p : Parser) : Parser :=
  { p with statement := { p.statement with qualifier := "" } }

/-! ### Notes and tokens -/

/-- The text of a collected comment as a message shows it. -/
def shownComment (text : String) : String := Text.Escape.decode (Text.simplified text)

/-- A remark about a context is a message of its own. It takes the comment and the notes collected
so far. -/
def contextRemark (p : Parser) (context comment : String) (line : Nat) : Parser :=
  let m : Message :=
    { context := Text.Escape.decode context
      sourceText := ""
      comment := Text.Escape.decode comment
      extraComment := shownComment p.remarks.extraComment
      id := ""
      extras := p.remarks.extras
      plural := false
      kind := .contextComment
      file := p.file.text
      line }
  { p.addMessage m with remarks := { p.remarks with extraComment := "", extras := [] } }

def remark (p : Parser) (line : Nat) : Remark → Parser
  | .extraComment text =>
    { p with remarks := { p.remarks with extraComment := p.remarks.extraComment ++ text } }
  | .id id => { p with remarks := { p.remarks with id } }
  | .extra key value =>
    { p with remarks := { p.remarks with extras := p.remarks.extras.insert key value } }
  | .sourceText text faults =>
    let p := { p with remarks := { p.remarks with sourceText := p.remarks.sourceText ++ text } }
    faults.foldl (fun p fault => p.reportAt line fault.kind fault.message) p
  | .translator context comment => p.contextRemark context comment line

def note (p : Parser) : Note → Parser
  | .save _ => { p with kept := p.kept.push p.snapshot }
  | .restore slot => p.setSnapshot (p.kept.getD slot p.snapshot)
  | .macroEnded => p.clearProspective.expectRemarks true
  | .comment body line =>
    if p.remarksExpected then
      match Remark.parse? body with
      | none => p
      | some r => p.remark line r
    else p
  | .problem line kind message => p.reportAt line kind message

/-- Goes on to the next token. -/
def advance (p : Parser) : Parser :=
  match p.rest with
  | [] => { p with token := .eof }
  | item :: rest =>
    { item.notes.foldl note p with
      rest, token := item.token, line := item.line, depths := item.depths }

/-- Goes past the current token if it is `t`. -/
def eat (p : Parser) (t : Token) : Bool × Parser :=
  if p.token = t then (true, p.advance) else (false, p)

/-- More than the number of tokens ahead, which bounds every loop over them. -/
def budget (p : Parser) : Nat := p.rest.length + 1

/-! ### Scopes -/

/-- Neither a function body nor a block of an initializer is open. -/
def atNamespaceLevel (p : Parser) : Bool := p.depths.brace = p.snapshot.depths.length

/-- The current token is outside all parentheses, at namespace level. -/
def atDeclarationLevel (p : Parser) : Bool := p.atNamespaceLevel && p.depths.paren = 0

end Parser

namespace Forest

/-- The scope of the tree `t` at the path of `place`, whose segments from index `k` on are below
`r`. Missing scopes are created; a new one shares the definition of a scope at the same path in an
included file, but the last one defines itself unless `share` holds. -/
def openFrom (f : Forest) (t : Nat) (place : Name) (share : Bool) (r : ScopeRef) (k : Nat) :
    List String → Forest × ScopeRef
  | [] => (f, r)
  | segment :: rest =>
    match (f.scope r).child? segment with
    | some child => openFrom f t place share ⟨r.tree, child⟩ (k + 1) rest
    | none =>
      let definition :=
        if share || !rest.isEmpty then (f.find? t (place.below (k + 1))).map f.definition else none
      let (f, child) := f.addChild r segment definition
      openFrom f t place share child (k + 1) rest

/-- The scope of the tree `t` called `place`, created if it is missing. -/
def openScope (f : Forest) (t : Nat) (place : Name) (share : Bool) : Forest × ScopeRef :=
  f.openFrom t place share ⟨t, 0⟩ 1 (place.segments.drop 1)

/-- Enters the scope called `place` in the tree `t`. A scope that neither the file nor its includes
have is created and defines itself. -/
def enter (f : Forest) (t : Nat) (place : Name) : Forest :=
  if (f.findName? t place).isSome then f else (f.openScope t place false).1

/-- Changes the scope of the tree `t` called `place`, which is created if it is missing. -/
def modifyAt (f : Forest) (t : Nat) (place : Name) (change : Scope → Scope) : Forest :=
  let (f, r) := f.openScope t place true
  f.modifyScope r change

end Forest

namespace Parser

/-- Changes the scope that is open here, which is created if this file does not have it. -/
def modifyOpenScope (p : Parser) (change : Scope → Scope) : Parser :=
  p.setForest (p.forest.modifyAt p.tree p.snapshot.namespaces change)

/-- Enters a scope below the open one. -/
def enter (p : Parser) (segment : String) : Parser :=
  let namespaces := p.snapshot.namespaces.push segment
  (p.setSnapshot { p.snapshot with namespaces }).setForest (p.forest.enter p.tree namespaces)

/-- The body of a scope has begun: its functions belong to it. -/
def beginBody (p : Parser) : Parser :=
  let s := p.snapshot
  let p := p.setSnapshot { s with functionContext := s.namespaces, unresolved := "", pending := "" }
  (p.clearProspective.expectRemarks true).advance

/-- Remembers how many namespaces were open before a brace that enters a scope. -/
def pushDepth (p : Parser) : Parser :=
  let s := p.snapshot
  p.setSnapshot { s with depths := s.depths ++ [s.namespaces.length] }

/-- A brace that opens a scope without a name. -/
def enterUnnamed (p : Parser) : Parser := (p.pushDepth.expectRemarks true).advance

end Parser

end Harvest
