/-!
# Blank characters

The characters that separate words in comments, and the operations on text that depend on them:
cutting a text at its separators, trimming its ends, and collapsing its inner runs of blanks.
-/

namespace Harvest.Text

/-- The Unicode `White_Space` property. -/
def isBlank (c : Char) : Bool :=
  let n := c.toNat
  (9 ≤ n && n ≤ 13) || n == 0x20 || n == 0x85 || n == 0xA0 || n == 0x1680 ||
    (0x2000 ≤ n && n ≤ 0x200A) || n == 0x2028 || n == 0x2029 || n == 0x202F || n == 0x205F ||
    n == 0x3000

/-- The pieces between the characters that satisfy `p`; there is one more piece than such
characters. -/
def pieces (p : Char → Bool) : List Char → List (List Char)
  | [] => [[]]
  | c :: cs =>
    match pieces p cs with
    | [] => [[]]
    | piece :: more => if p c then [] :: piece :: more else (c :: piece) :: more

theorem pieces_ne_nil (p : Char → Bool) (cs : List Char) : pieces p cs ≠ [] := by
  induction cs with
  | nil => simp [pieces]
  | cons c cs ih =>
    cases h : pieces p cs with
    | nil => exact absurd h ih
    | cons piece more => by_cases hc : p c <;> simp [pieces, h, hc]

/-- The maximal runs without a blank. -/
def words (cs : List Char) : List (List Char) :=
  (pieces isBlank cs).filter (fun word => !word.isEmpty)

def trimLeft (cs : List Char) : List Char := cs.dropWhile isBlank

def trimRight (cs : List Char) : List Char := (cs.reverse.dropWhile isBlank).reverse

def trim (cs : List Char) : List Char := trimRight (trimLeft cs)

/-- The words of a text with one space between two of them. -/
def simplified (text : String) : String :=
  String.ofList ([' '].intercalate (words text.toList))

/-- The text before the first `c` and the text after it. -/
def splitFirst (c : Char) : List Char → Option (List Char × List Char)
  | [] => none
  | d :: rest =>
    if d = c then some ([], rest) else (splitFirst c rest).map fun (a, b) => (d :: a, b)

/-- What follows `start` in a text that begins with it. -/
def after? (start : List Char) (cs : List Char) : Option (List Char) :=
  match start, cs with
  | [], cs => some cs
  | _ :: _, [] => none
  | s :: start, c :: cs => if s = c then after? start cs else none

end Harvest.Text
