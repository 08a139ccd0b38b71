import Harvest.Pattern.Regex.Class

/-!
# Reading regular expressions

Alternatives of sequences of characters, classes, assertions, groups and their repetitions. Settings
in parentheses hold up to the end of the group that they stand in, also in later alternatives.
Expressions that nest too deeply or are too large when repetitions are written out are refused.
-/

namespace Harvest.Regex

/-- A part of an expression that was read. -/
structure Part where
  regex : Regex
  /-- How deep its parts nest. -/
  depth : Nat := 0
  /-- Its size with all repetitions written out. -/
  size : Nat := 1
  /-- Whether it can be repeated; settings cannot. -/
  repeatable : Bool := true

namespace Part

def maxDepth : Nat := 250

def maxSize : Nat := 327680

def settings : Part := { regex := empty, size := 0, repeatable := false }

def ofSet (s : CharSet) : Part := { regex := .char s, size := s.size }

def ofCheck (a : Assertion) : Part := { regex := check a }

def literal (mode : Mode) (c : Char) : Part :=
  { regex := .char (mode.widen (.single c)), size := c.utf8Size }

/-- Expressions put together by an operation, from the right. -/
def chain (operation : Regex → Regex → Regex) (first : Regex) : List Regex → Regex
  | [] => first
  | second :: more => operation first (chain operation second more)

/-- Parts put together by an operation; one part alone stays as it is. -/
def combine (operation : Regex → Regex → Regex) (parts : List Part) : Part :=
  match parts with
  | [] => { regex := empty, size := 0 }
  | [part] => part
  | first :: more =>
    { regex := chain operation first.regex (more.map Part.regex)
      depth := ((parts.map Part.depth).max?.getD 0) + 1
      size := parts.foldl (· + ·.size) 0 }

def sequence (parts : List Part) : Part := combine seq parts

def alternatives (parts : List Part) : Part := combine alt parts

def group (part : Part) : Part :=
  { part with depth := part.depth + 1, size := part.size + 2, repeatable := true }

/-- Repeated `low` times and up to `high` times, if that is given. -/
def times? (part : Part) (low : Nat) (high : Option Nat) : Option Part :=
  let size := part.size * max 1 (high.getD low) + 1
  if !part.repeatable || high.any (· < low) || maxSize < size then none
  else
    some {
      regex := match high with
        | some high => seq (power part.regex low) (power (optional part.regex) (high - low))
        | none =>
          if low = 0 then star part.regex
          else seq (power part.regex (low - 1)) (plus part.regex)
      depth := part.depth + 1
      size }

end Part

/-- A number with blanks around it. -/
def count? (mode : Mode) (cs : List Char) : Option (Nat × List Char) :=
  let cs := cs.dropWhile Text.isBlank
  let (digits, rest) := mode.span Char.isDigit cs.length cs
  let value := Text.Escape.spelled 10 digits
  if digits.isEmpty || UInt32.size ≤ value then none else some (value, rest.dropWhile Text.isBlank)

/-- How often something is repeated, after the opening brace. -/
def bounds? (mode : Mode) (cs : List Char) : Option ((Nat × Option Nat) × List Char) :=
  match count? mode (mode.skip cs) with
  | some (low, '\x7d' :: rest) => some ((low, some low), rest)
  | some (low, ',' :: rest) =>
    match mode.skip rest with
    | '\x7d' :: rest => some ((low, none), rest)
    | rest =>
      match count? mode rest with
      | some (high, '\x7d' :: rest) => some ((low, some high), rest)
      | _ => none
  | _ => none

/-- The settings with one of them on or off. -/
def Mode.set? (mode : Mode) (on : Bool) : Char → Option Mode
  | 'i' => some { mode with folded := on }
  | 'm' => some { mode with multiline := on }
  | 's' => some { mode with dotAll := on }
  | 'R' => some { mode with crlf := on }
  | 'u' => some { mode with unicode := on }
  | 'x' => some { mode with spaced := on }
  | 'U' => some mode
  | _ => none

/-- Reads settings by their letters, each at most once, up to a colon or a closing parenthesis. The
letters after a dash are turned off. -/
def settings? (mode : Mode) (seen : List Char) : List Char → Option (Mode × List Char × List Char)
  | [] => none
  | c :: rest =>
    if c = ':' || c = ')' then
      if seen.getLast? = some '-' then none else some (mode, seen, c :: rest)
    else if c ∈ seen then none
    else if c = '-' then settings? mode (seen ++ ['-']) rest
    else
      match mode.set? ('-' ∉ seen) c with
      | some mode => settings? mode (seen ++ [c]) rest
      | none => none

def isNameStart (c : Char) : Bool := c = '_' || Text.isLetter c

def isNameChar (c : Char) : Bool :=
  isNameStart c || Text.isNumber c || c = '.' || c = '[' || c = ']'

/-- What an opening parenthesis begins. -/
inductive Opening
  | settings (mode : Mode)
  | group (mode : Mode) (name : Option (List Char))

/-- The name of a group, up to the closing angle. -/
def groupName? (cs : List Char) : Option (List Char × List Char) :=
  match cs.takeWhile isNameChar, cs.dropWhile isNameChar with
  | first :: more, '>' :: rest => if isNameStart first then some (first :: more, rest) else none
  | _, _ => none

/-- Reads what follows an opening parenthesis, up to the contents of the group. -/
def opening? (mode : Mode) (cs : List Char) : Option (Opening × List Char) :=
  match mode.skip cs with
  | '?' :: 'P' :: '<' :: rest
  | '?' :: '<' :: rest =>
    (groupName? rest).map fun (name, rest) => (.group mode (some name), rest)
  | '?' :: rest =>
    match settings? mode [] rest with
    | some (inner, _, ':' :: rest) => some (.group inner none, rest)
    | some (inner, _ :: _, _ :: rest) => some (.settings inner, rest)
    | _ => none
  | rest => some (.group mode none, rest)

/-- A part of one character or one escape. -/
def primitive? (mode : Mode) : List Char → Option (Part × List Char)
  | [] => none
  | '.' :: rest =>
    if !mode.unicode then none
    else
      let ends : CharSet :=
        if mode.dotAll then .empty
        else if mode.crlf then .union (.single '\n') (.single '\r')
        else .single '\n'
      some (.ofSet (.compl ends), rest)
  | '^' :: rest =>
    some (.ofCheck (if mode.multiline then .lineStart mode.crlf else .textStart), rest)
  | '$' :: rest => some (.ofCheck (if mode.multiline then .lineEnd mode.crlf else .textEnd), rest)
  | '\\' :: rest =>
    match escape? mode rest with
    | some (.char c byte, rest) =>
      if byte && !mode.unicode && 0x80 ≤ c.toNat then none else some (.literal mode c, rest)
    | some (.set s, rest) => some (.ofSet s, rest)
    | some (.check a, rest) => some (.ofCheck a, rest)
    | none => none
  | c :: rest => some (.literal mode c, rest)

/-- Reads alternatives up to the end or a closing parenthesis, which is left unread. `names` are the
names of groups so far, `done` the alternatives so far, and `parts` the sequence that is read. -/
def readFrom : Nat → Mode → List (List Char) → List Part → List Part → List Char →
    Option (Part × List (List Char) × List Char)
  | 0, _, _, _, _, _ => none
  | fuel + 1, mode, names, done, parts, cs =>
    let finish (rest : List Char) : Option (Part × List (List Char) × List Char) :=
      some (.alternatives (done ++ [.sequence parts]), names, rest)
    let next (part : Part) (rest : List Char) : Option (Part × List (List Char) × List Char) :=
      readFrom fuel mode names done (parts ++ [part]) rest
    let repeated (low : Nat) (high : Option Nat) (rest : List Char) :
        Option (Part × List (List Char) × List Char) :=
      match parts.getLast?.bind fun part => part.times? low high with
      | some part =>
        let rest := if rest.head? = some '?' then rest.tail else rest
        readFrom fuel mode names done (parts.dropLast ++ [part]) rest
      | none => none
    match mode.skip cs with
    | [] => finish []
    | ')' :: rest => finish (')' :: rest)
    | '|' :: rest => readFrom fuel mode names (done ++ [.sequence parts]) [] rest
    | '?' :: rest => repeated 0 (some 1) rest
    | '*' :: rest => repeated 0 none rest
    | '+' :: rest => repeated 1 none rest
    | '\x7b' :: rest =>
      match bounds? mode rest with
      | some ((low, high), rest) => repeated low high (mode.skip rest)
      | none => none
    | '[' :: rest =>
      match readClass (2 * rest.length + 2) mode rest with
      | some (part, rest) => next { Part.ofSet part.set with depth := part.depth } rest
      | none => none
    | '(' :: rest =>
      match opening? mode rest with
      | none => none
      | some (.settings mode, rest) => readFrom fuel mode names done (parts ++ [.settings]) rest
      | some (.group inner name, rest) =>
        if name.any (· ∈ names) then none
        else
          match readFrom fuel inner (name.toList ++ names) [] [] rest with
          | some (part, names, ')' :: rest) =>
            readFrom fuel mode names done (parts ++ [part.group]) rest
          | _ => none
    | cs =>
      match primitive? mode cs with
      | some (part, rest) => next part rest
      | none => none

/-- The expression that a text spells, if it does. -/
def parse? (text : String) : Option Regex :=
  match readFrom (text.length + 1) {} [] [] [] text.toList with
  | some (part, _, []) =>
    if part.depth ≤ Part.maxDepth && part.size ≤ Part.maxSize then some part.regex else none
  | _ => none

end Harvest.Regex
