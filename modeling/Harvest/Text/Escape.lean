import Harvest.Text.Utf8

/-!
# Escape sequences of string literals

Octal and `\x` escapes denote bytes and universal names denote characters, so the value of a
literal body is the reading of the bytes that its parts stand for.
-/

namespace Harvest.Text.Escape

def isHexDigit (c : Char) : Bool :=
  c.isDigit || ('a' ≤ c && c ≤ 'f') || ('A' ≤ c && c ≤ 'F')

def isOctalDigit (c : Char) : Bool := '0' ≤ c && c ≤ '7'

def digitValue (c : Char) : Nat :=
  if c.isDigit then c.toNat - '0'.toNat
  else if 'a' ≤ c && c ≤ 'f' then c.toNat - 'a'.toNat + 10
  else c.toNat - 'A'.toNat + 10

/-- The number that digits spell in a base. -/
def spelled (base : Nat) (digits : List Char) : Nat :=
  digits.foldl (fun value c => value * base + digitValue c) 0

/-- A hexadecimal number that does not fit in 32 bits counts as zero. -/
def hexValue (digits : List Char) : Nat :=
  let value := spelled 16 digits
  if value < UInt32.size then value else 0

/-- The scalar value `n`, or the replacement character. -/
def scalar (n : Nat) : Char := if n.isValidChar then Char.ofNat n else Utf8.replacement

/-- The control character that a letter names, if any. -/
def control? : Char → Option Char
  | 'a' => some '\x07'
  | 'b' => some '\x08'
  | 'f' => some '\x0c'
  | 'n' => some '\n'
  | 'r' => some '\r'
  | 't' => some '\t'
  | 'v' => some '\x0b'
  | _ => none

theorem length_dropWhile_le (p : Char → Bool) (cs : List Char) :
    (cs.dropWhile p).length ≤ cs.length :=
  (List.dropWhile_sublist p).length_le

/-- The bytes that a literal body stands for. A hexadecimal escape takes every digit that follows,
an octal one at most three, and a backslash at the end stands for nothing. -/
def bytes : List Char → List UInt8
  | [] => []
  | '\\' :: [] => []
  | '\\' :: e :: rest =>
    if e = '\n' then bytes rest
    else if e = 'x' then
      UInt8.ofNat (hexValue (rest.takeWhile isHexDigit)) :: bytes (rest.dropWhile isHexDigit)
    else if e = 'u' || e = 'U' then
      String.utf8EncodeChar (scalar (hexValue (rest.takeWhile isHexDigit))) ++
        bytes (rest.dropWhile isHexDigit)
    else if isOctalDigit e then
      let digits := (rest.take 2).takeWhile isOctalDigit
      UInt8.ofNat (spelled 8 (e :: digits)) :: bytes (rest.drop digits.length)
    else String.utf8EncodeChar ((control? e).getD e) ++ bytes rest
  | c :: rest => String.utf8EncodeChar c ++ bytes rest
termination_by cs => cs.length
decreasing_by
  all_goals simp_wf
  all_goals grind [length_dropWhile_le]

/-- The value of a literal body. -/
def decode (body : String) : String := String.ofList (Utf8.decode (bytes body.toList))

end Harvest.Text.Escape
