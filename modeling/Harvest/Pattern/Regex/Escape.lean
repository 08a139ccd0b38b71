import Harvest.Pattern.Regex
import Harvest.Text.Escape

/-!
# Escapes in regular expressions

What a backslash and the characters after it stand for: a character, a class of characters, or
something that is asked of a place. In spaced expressions blanks and comments between the characters
of an escape do not count.
-/

namespace Harvest.Regex

/-- The settings that hold where an expression is read. -/
structure Mode where
  /-- Case does not count. -/
  folded : Bool := false
  /-- Lines have a start and an end, not only the text. -/
  multiline : Bool := false
  dotAll : Bool := false
  crlf : Bool := false
  /-- Classes are those of all scripts. -/
  unicode : Bool := true
  /-- Blanks and comments do not count. -/
  spaced : Bool := false

/-- Leaves blanks and comments out; a comment ends with its line. -/
def skipBlanks (comment : Bool) : List Char → List Char
  | [] => []
  | c :: cs =>
    if comment then skipBlanks (c ≠ '\n') cs
    else if Text.isBlank c then skipBlanks false cs
    else if c = '#' then skipBlanks true cs
    else c :: cs

namespace Mode

def skip (mode : Mode) (cs : List Char) : List Char :=
  if mode.spaced then skipBlanks false cs else cs

/-- The first characters that satisfy `p`, and what follows them. -/
def span (mode : Mode) (p : Char → Bool) : Nat → List Char → List Char × List Char
  | 0, cs => ([], cs)
  | _, [] => ([], [])
  | n + 1, c :: cs =>
    if p c then
      let (more, rest) := span mode p n (mode.skip cs)
      (c :: more, rest)
    else ([], c :: cs)

/-- A set as the settings want it. -/
def widen (mode : Mode) (s : CharSet) : CharSet :=
  if mode.folded then if mode.unicode then .folded s else .foldedAscii s else s

/-- A set or its complement. Without the classes of all scripts a complement has more than
characters in it and is refused. -/
def close? (mode : Mode) (negated : Bool) (s : CharSet) : Option CharSet :=
  if !negated then some (mode.widen s)
  else if mode.unicode then some (.compl (mode.widen s))
  else none

end Mode

inductive Escape
  /-- A character; `byte` tells whether it is written as a number of two digits. -/
  | char (c : Char) (byte : Bool)
  | set (s : CharSet)
  | check (a : Assertion)

def hexChar? (digits : List Char) : Option Char :=
  if digits.isEmpty || !digits.all Text.Escape.isHexDigit then none
  else
    let n := Text.Escape.spelled 16 digits
    if n.isValidChar then some (Char.ofNat n) else none

/-- A character given by its number: so many digits, or any number of them in braces. -/
def hex? (mode : Mode) (count : Nat) (cs : List Char) : Option (Escape × List Char) :=
  match mode.skip cs with
  | '\x7b' :: rest =>
    match mode.span (· ≠ '\x7d') rest.length (mode.skip rest) with
    | (digits, _ :: rest) => (hexChar? digits).map fun c => (.char c false, mode.skip rest)
    | _ => none
  | cs =>
    match mode.span Text.Escape.isHexDigit count cs with
    | (digits, rest) =>
      if digits.length < count then none
      else (hexChar? digits).map fun c => (.char c (count = 2), rest)

/-- The class that a letter names; its capital names the complement. -/
def classOf? (mode : Mode) (e : Char) : Option CharSet :=
  let positive : Option CharSet :=
    match e.toLower with
    | 'd' => some (if mode.unicode then .digit else .range 0x30 0x39)
    | 's' => some (if mode.unicode then .blank else .ofRanges [(0x09, 0x0D), (0x20, 0x20)])
    | 'w' =>
      some (if mode.unicode then .word
        else .ofRanges [(0x30, 0x39), (0x41, 0x5A), (0x5F, 0x5F), (0x61, 0x7A)])
    | _ => none
  positive.bind fun s =>
    if e.isLower then some s else if mode.unicode then some (.compl s) else none

def isEdgeChar (c : Char) : Bool := c.isAlpha || c = '-'

/-- What is asked of words by name. -/
def namedEdge? : String → Option WordEdge
  | "start" => some .start
  | "end" => some .finish
  | "start-half" => some .noWordBefore
  | "end-half" => some .noWordAfter
  | _ => none

/-- What follows `\b`: a name in braces, unless the braces hold a number of times. -/
def edge? (mode : Mode) (cs : List Char) : Option (WordEdge × List Char) :=
  match cs with
  | '\x7b' :: inner =>
    match mode.skip inner with
    | [] => none
    | c :: rest =>
      if !isEdgeChar c then some (.boundary, cs)
      else
        match mode.span isEdgeChar (c :: rest).length (c :: rest) with
        | (name, '\x7d' :: rest) => (namedEdge? (String.ofList name)).map fun edge => (edge, rest)
        | _ => none
  | cs => some (.boundary, cs)

/-- What the characters after a backslash stand for. -/
def escape? (mode : Mode) : List Char → Option (Escape × List Char)
  | [] => none
  | e :: rest =>
    let word (edge : WordEdge) : Escape := .check (.word (!mode.unicode) edge)
    match e with
    | 'x' => hex? mode 2 rest
    | 'u' => hex? mode 4 rest
    | 'U' => hex? mode 8 rest
    | 'd' | 'D' | 's' | 'S' | 'w' | 'W' => (classOf? mode e).map fun s => (.set s, rest)
    | 'a' => some (.char '\x07' false, rest)
    | 'f' => some (.char '\x0c' false, rest)
    | 'n' => some (.char '\n' false, rest)
    | 'r' => some (.char '\r' false, rest)
    | 't' => some (.char '\t' false, rest)
    | 'v' => some (.char '\x0b' false, rest)
    | 'A' => some (.check .textStart, rest)
    | 'z' => some (.check .textEnd, rest)
    | 'b' => (edge? mode rest).map fun (edge, rest) => (word edge, rest)
    | 'B' => some (word .noBoundary, rest)
    | '<' => some (word .start, rest)
    | '>' => some (word .finish, rest)
    | e => if e.toNat < 0x80 && !e.isAlphanum then some (.char e false, rest) else none

end Harvest.Regex
