import Harvest.Diagnostic
import Harvest.Text.Blank

/-!
# Remarks

Comments that say something about the next message or about a context. The first character of the
comment and a blank after it tell them apart:

* `: text` is shown to translators,
* `= id` names the message,
* `~ key value` is a note under a key,
* `% "text"` is the text of a message that is written as an id,
* `TRANSLATOR Context text` describes a whole context.
-/

namespace Harvest

/-- A problem in the quoted text of a remark. -/
inductive QuoteFault
  | unexpected
  | unterminated
deriving DecidableEq, Repr

namespace QuoteFault

def kind : QuoteFault → DiagnosticKind
  | unexpected => .unexpectedMetaCharacter
  | unterminated => .unterminatedMetaString

def message : QuoteFault → String
  | unexpected => "Unexpected character in meta string"
  | unterminated => "Unterminated meta string"

end QuoteFault

inductive Remark
  | extraComment (text : String)
  | id (id : String)
  | extra (key value : String)
  /-- Quoted texts put together, their escape sequences still encoded. -/
  | sourceText (text : String) (faults : List QuoteFault)
  | translator (context comment : String)
deriving DecidableEq, Repr

namespace Remark

/-- One pair of quotes around a value is dropped. -/
def unquote (value : List Char) : List Char :=
  match value with
  | '"' :: c :: rest => if (c :: rest).getLast? = some '"' then (c :: rest).dropLast else value
  | _ => value

def isAsciiSpace (c : Char) : Bool :=
  c = ' ' || c = '\t' || c = '\n' || c = '\x0c' || c = '\r'

/-- The quoted texts of a remark, put together. `quoted` says whether a quotation is open. A
backslash that ends the line or the comment ends the quotation, too. -/
def quotedTexts (quoted : Bool) : List Char → List Char × List QuoteFault
  | [] => ([], if quoted then [.unterminated] else [])
  | c :: rest =>
    if quoted then
      if c = '"' then quotedTexts false rest
      else if c = '\\' then
        match rest with
        | [] => ([], [.unterminated])
        | e :: rest =>
          if e = '\n' then
            let (text, faults) := quotedTexts false rest
            (text, .unterminated :: faults)
          else
            let (text, faults) := quotedTexts true rest
            (c :: e :: text, faults)
      else
        let (text, faults) := quotedTexts true rest
        (c :: text, faults)
    else if isAsciiSpace c then quotedTexts false rest
    else if c = '"' then quotedTexts true rest
    else ([], [.unexpected])

def translatorWord : List Char := "TRANSLATOR".toList

def parseTranslator? (body : List Char) : Option Remark := do
  let start := body.dropWhile fun c => c = ' ' || c = '\t' || c = '\n'
  let rest ← Text.after? translatorWord start
  let text := Text.simplified (String.ofList rest)
  let (context, comment) ← Text.splitFirst ' ' text.toList
  return .translator (String.ofList context) (String.ofList comment)

/-- The remark in the body of a comment, if it is one. -/
def parse? (body : String) : Option Remark :=
  match body.toList with
  | mark :: blank :: rest =>
    if !Text.isBlank blank then parseTranslator? body.toList
    else
      match mark with
      | ':' => some (.extraComment (String.ofList rest))
      | '=' => some (.id (Text.simplified (String.ofList rest)))
      | '~' => do
        let (key, value) ← Text.splitFirst ' ' (Text.trim rest)
        return .extra (String.ofList key) (String.ofList (unquote (Text.trim value)))
      | '%' =>
        let (text, faults) := quotedTexts false rest
        some (.sourceText (String.ofList text) faults)
      | _ => parseTranslator? body.toList
  | _ => parseTranslator? body.toList

end Remark

end Harvest
