import Harvest.Pattern.CharSet

/-!
# Regular expressions

Regular expressions and the search for a match in a text. The characters of an expression are marked
while a text is read: a character is marked if what was read so far may end with it. Each character
of the text moves the marks on, in one pass through the expression, so a search takes time in
proportion to the text and to the expression.
-/

namespace Harvest

/-- A place in a text: the character before it and the character after it. -/
structure Place where
  before : Option Char
  after : Option Char

/-- What is asked of the words at a place. -/
inductive WordEdge
  | boundary
  | noBoundary
  | start
  | finish
  | noWordBefore
  | noWordAfter
deriving DecidableEq, Repr

/-- What an expression can ask of a place. -/
inductive Assertion
  | textStart
  | textEnd
  /-- Lines may also end with a carriage return if `crlf` holds. -/
  | lineStart (crlf : Bool)
  | lineEnd (crlf : Bool)
  /-- Words are those of all scripts or, if `ascii` holds, of one script only. -/
  | word (ascii : Bool) (edge : WordEdge)
deriving DecidableEq, Repr

namespace Assertion

def isAsciiWordChar (c : Char) : Bool := c.isAlphanum || c = '_'

def holds (p : Place) : Assertion → Bool
  | textStart => p.before.isNone
  | textEnd => p.after.isNone
  | lineStart crlf =>
    p.before.isNone || p.before = some '\n' ||
      (crlf && p.before = some '\r' && p.after ≠ some '\n')
  | lineEnd crlf =>
    p.after.isNone || (p.after = some '\n' && !(crlf && p.before = some '\r')) ||
      (crlf && p.after = some '\r')
  | word ascii edge =>
    let isWord (c : Char) : Bool := if ascii then isAsciiWordChar c else Text.isWordChar c
    let before := p.before.any isWord
    let after := p.after.any isWord
    match edge with
    | .boundary => before != after
    | .noBoundary => before == after
    | .start => !before && after
    | .finish => before && !after
    | .noWordBefore => !before
    | .noWordAfter => !after

end Assertion

inductive Regex
  | empty
  /-- One character of a set, and whether it is marked. -/
  | one (s : CharSet) (marked : Bool)
  | check (a : Assertion)
  | seq (a b : Regex)
  | alt (a b : Regex)
  /-- Once or more. -/
  | plus (r : Regex)
deriving DecidableEq, Repr

namespace Regex

def char (s : CharSet) : Regex := one s false

def optional (r : Regex) : Regex := alt empty r

def star (r : Regex) : Regex := optional (plus r)

/-- So many times in a row. -/
def power (r : Regex) (n : Nat) : Regex :=
  match n with
  | 0 => empty
  | 1 => r
  | n + 2 =>
    let half := power r ((n + 2) / 2)
    if n % 2 = 0 then seq half half else seq r (seq half half)

/-- Whether the empty text at a place matches. -/
def nullable (p : Place) : Regex → Bool
  | empty => true
  | one _ _ => false
  | check a => a.holds p
  | seq a b => nullable p a && nullable p b
  | alt a b => nullable p a || nullable p b
  | plus r => nullable p r

/-- Whether a match may end at a place, with a marked character as the last one read. -/
def ends (p : Place) : Regex → Bool
  | empty => false
  | one _ marked => marked
  | check _ => false
  | seq a b => (ends p a && nullable p b) || ends p b
  | alt a b => ends p a || ends p b
  | plus r => ends p r

/-- Moves the marks on over the character after a place. A match may begin there if `start`
holds. -/
def shift (p : Place) (c : Char) : Bool → Regex → Regex
  | _, empty => empty
  | start, one s _ => one s (start && s.mem c)
  | _, check a => check a
  | start, seq a b =>
    seq (shift p c start a) (shift p c ((start && nullable p a) || ends p a) b)
  | start, alt a b => alt (shift p c start a) (shift p c start b)
  | start, plus r => plus (shift p c (start || ends p r) r)

/-- Whether a match ends at some place of what is left of a text; one may begin at any place. -/
def search (r : Regex) (before : Option Char) : List Char → Bool
  | [] =>
    let p : Place := ⟨before, none⟩
    nullable p r || ends p r
  | c :: cs =>
    let p : Place := ⟨before, some c⟩
    nullable p r || ends p r || search (shift p c true r) (some c) cs

/-- Whether an expression matches somewhere in a text. -/
def isMatch (r : Regex) (text : String) : Bool := r.search none text.toList

end Regex

end Harvest
