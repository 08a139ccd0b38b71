import Harvest.Diagnostic
import Harvest.JsonValue
import Harvest.Message
import Harvest.Path

/-!
# Listings

The messages and the diagnostics of a report as they are printed. Messages are listed one to a line
or as one JSON array. Diagnostics are listed in the order of their places, each with the source line
that it is about if that line is at hand.
-/

namespace Harvest

inductive OutputFormat
  | text
  | json
deriving DecidableEq, Repr

def OutputFormat.ofName? : String → Option OutputFormat
  | "text" => some .text
  | "json" => some .json
  | _ => none

namespace Message

def kindKey (m : Message) : String :=
  match m.kind with
  | .translation => "translation"
  | .contextComment => "contextComment"

def toJson (m : Message) : JsonValue :=
  .record [("context", .text m.context), ("sourceText", .text m.sourceText),
    ("comment", .text m.comment), ("extraComment", .text m.extraComment), ("id", .text m.id),
    ("extras", .record (m.extras.map fun (key, value) => (key, .text value))),
    ("plural", .bool m.plural), ("kind", .text m.kindKey), ("file", .text m.file),
    ("line", .nat m.line)]

end Message

namespace Listing

/-- Lines, each with its end. -/
def lines (xs : List String) : String := String.join (xs.map fun line => line ++ "\n")

def messages (ms : List Message) : OutputFormat → String
  | .text => lines (ms.map Message.render)
  | .json => lines [(JsonValue.array (ms.map Message.toJson)).render 0]

/-- Whether a diagnostic is listed before another one or at the same place. -/
def placeLe (a b : Diagnostic) : Bool :=
  let p : Path := ⟨a.file⟩
  let q : Path := ⟨b.file⟩
  if p.same q then a.line ≤ b.line else p.le q

/-- The width of the widest line number. -/
def width (ds : List Diagnostic) : Nat :=
  ((ds.map fun d => (toString d.line).length).max?).getD 1

/-- A text with blanks before it. -/
def alignRight (width : Nat) (text : String) : String :=
  String.ofList (List.replicate (width - text.length) ' ') ++ text

/-- The lines for one diagnostic. -/
def diagnosticLines (width : Nat) (source : Option String) (d : Diagnostic) : List String :=
  [d.severity.name ++ ": " ++ d.message ++ "  " ++ d.kind.name,
    "  --> " ++ d.file ++ ":" ++ toString d.line] ++
  (match source with
    | some line =>
      [alignRight width "" ++ " |", alignRight width (toString d.line) ++ " | " ++ line]
    | none => []) ++
  [""]

/-- The diagnostics in the order of their places; `sourceLine` gives the lines of a file, counted
from one. -/
def diagnostics (sourceLine : Path → Nat → Option String) (ds : List Diagnostic) : String :=
  lines ((ds.mergeSort placeLe).flatMap fun d =>
    diagnosticLines (width ds) (sourceLine ⟨d.file⟩ d.line) d)

/-- The reasons why files could not be read. -/
def unreadable (reasons : List String) : String :=
  lines (reasons.map fun reason => "error: " ++ reason)

/-- A line of a file, counted from one, out of the lines of several files. -/
def lineOf (files : List (Path × List String)) (path : Path) (line : Nat) : Option String := do
  let (_, lines) ← files.find? fun (p, _) => p.same path
  if line = 0 then none else lines[line - 1]?

end Listing

end Harvest
