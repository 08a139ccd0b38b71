import Harvest.Text.Quoted

/-!
# Messages

One translatable text found in a source, with everything a translator is told about it, or a remark
about a whole context.
-/

namespace Harvest

inductive MessageKind
  /-- A text found in a call. -/
  | translation
  /-- A remark that describes a context; it has no source text. -/
  | contextComment
deriving DecidableEq, Repr

def MessageKind.name : MessageKind → String
  | .translation => "translation"
  | .contextComment => "context-comment"

/-- Values under keys, in the order of the keys. -/
abbrev Extras := List (String × String)

/-- A later value under a key replaces an earlier one. -/
def Extras.insert (extras : Extras) (key value : String) : Extras :=
  match extras with
  | [] => [(key, value)]
  | (k, v) :: rest =>
    if key = k then (key, value) :: rest
    else if key < k then (key, value) :: (k, v) :: rest
    else (k, v) :: Extras.insert rest key value

structure Message where
  /-- The resolved context or, where a qualifier was unknown, the part of it that is resolved and
  the rest as written. It is empty for a message that is written as an id. -/
  context : String
  sourceText : String
  comment : String
  extraComment : String
  id : String
  extras : Extras
  plural : Bool
  kind : MessageKind
  file : String
  line : Nat
deriving DecidableEq, Repr

namespace Message

/-- The line that shows a message in a report. -/
def render (m : Message) : String :=
  let place := m.file ++ ":" ++ toString m.line ++ ": "
  let subject :=
    match m.kind with
    | .contextComment => m.context ++ " (context comment)"
    | .translation =>
      (if m.context = "" then "<id " ++ Text.Quoted.encode m.id ++ ">" else m.context) ++ " " ++
        Text.Quoted.encode m.sourceText
  let comment := if m.comment = "" then "" else " (" ++ Text.Quoted.encode m.comment ++ ")"
  place ++ subject ++ comment ++ if m.plural then " [plural]" else ""

end Message

end Harvest
