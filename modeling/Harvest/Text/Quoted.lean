import Harvest.Text.Hidden

/-!
# Quoted text

A text between double quotes on one line, as it is shown in messages and reports: quotes and
backslashes are escaped and hidden characters are written by their number.
-/

namespace Harvest.Text.Quoted

/-- The written form of one character. -/
def character (c : Char) : List Char :=
  match c with
  | '\x00' => ['\\', '0']
  | '\t' => ['\\', 't']
  | '\r' => ['\\', 'r']
  | '\n' => ['\\', 'n']
  | '"' => ['\\', '"']
  | '\\' => ['\\', '\\']
  | c =>
    if 0x20 ≤ c.toNat && c.toNat < 0x7F then [c]
    else if isHidden c then ['\\', 'u', '\x7b'] ++ Nat.toDigits 16 c.toNat ++ ['\x7d']
    else [c]

def encode (text : String) : String :=
  String.ofList ('"' :: text.toList.flatMap character ++ ['"'])

end Harvest.Text.Quoted
