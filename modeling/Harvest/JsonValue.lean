/-!
# JSON values

The values of configuration files and of reports. A string is a list of code points: an escape may
name one half of a surrogate pair without the other, which is well-formed but no text. Fields keep
their order, and a key may stand twice.
-/

namespace Harvest

/-- The code points of a JSON string. -/
abbrev CodePoints := List Nat

namespace CodePoints

def ofText (text : String) : CodePoints := text.toList.map Char.toNat

/-- The text of a string, if every code point in it is a character. -/
def text? (points : CodePoints) : Option String :=
  (points.mapM fun (n : Nat) => if n.isValidChar then some (Char.ofNat n) else none).map
    String.ofList

/-- The last digits of a number in base sixteen, so many of them. -/
def hexDigits : Nat → Nat → List Char
  | 0, _ => []
  | count + 1, n => hexDigits count (n / 16) ++ [Nat.digitChar (n % 16)]

/-- The written form of one code point. -/
def written (n : Nat) : List Char :=
  if n = 0x22 then ['\\', '"']
  else if n = 0x5C then ['\\', '\\']
  else if n = 0x08 then ['\\', 'b']
  else if n = 0x0C then ['\\', 'f']
  else if n = 0x0A then ['\\', 'n']
  else if n = 0x0D then ['\\', 'r']
  else if n = 0x09 then ['\\', 't']
  else if n < 0x20 ∨ ¬n.isValidChar then ['\\', 'u'] ++ hexDigits 4 n
  else [Char.ofNat n]

def render (points : CodePoints) : String :=
  String.ofList ('"' :: points.flatMap written ++ ['"'])

end CodePoints

inductive JsonValue
  | null
  | bool (value : Bool)
  /-- A number as it is written. -/
  | number (numeral : String)
  | string (points : CodePoints)
  | array (items : List JsonValue)
  | object (fields : List (CodePoints × JsonValue))

instance : Inhabited JsonValue := ⟨.null⟩

namespace JsonValue

def text (s : String) : JsonValue := .string (.ofText s)

def nat (n : Nat) : JsonValue := .number (toString n)

def texts (xs : List String) : JsonValue := .array (xs.map text)

/-- An object whose keys are texts. -/
def record (fields : List (String × JsonValue)) : JsonValue :=
  .object (fields.map fun (key, value) => (.ofText key, value))

def text? : JsonValue → Option String
  | string points => points.text?
  | _ => none

def texts? : JsonValue → Option (List String)
  | array items => items.mapM text?
  | _ => none

/-- The start of a line, so many levels deep. -/
def margin (depth : Nat) : String := String.ofList (List.replicate (2 * depth) ' ')

/-- Lines between brackets, one level deeper than the brackets. -/
def block (depth : Nat) (opening closing : String) (lines : List String) : String :=
  if lines.isEmpty then opening ++ closing
  else
    opening ++ "\n" ++ ",\n".intercalate (lines.map fun line => margin (depth + 1) ++ line) ++
      "\n" ++ margin depth ++ closing

mutual

/-- A value over several lines, its first one without a margin. -/
def render (depth : Nat) : JsonValue → String
  | null => "null"
  | bool value => if value then "true" else "false"
  | number numeral => numeral
  | string points => points.render
  | array items => block depth "[" "]" (renderItems (depth + 1) items)
  | object fields => block depth "\x7b" "\x7d" (renderFields (depth + 1) fields)

def renderItems (depth : Nat) : List JsonValue → List String
  | [] => []
  | item :: items => item.render depth :: renderItems depth items

def renderFields (depth : Nat) : List (CodePoints × JsonValue) → List String
  | [] => []
  | (key, value) :: fields =>
    (key.render ++ ": " ++ value.render depth) :: renderFields depth fields

end

end JsonValue

end Harvest
