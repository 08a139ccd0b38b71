/-!
# UTF-8

Characters as bytes, and bytes as characters. Reading never fails: every maximal run of bytes that
begins a character without completing it reads as one replacement character.
-/

namespace Harvest.Text.Utf8

def encode (cs : List Char) : List UInt8 := cs.flatMap String.utf8EncodeChar

/-- The character that stands for what cannot be read. -/
def replacement : Char := '�'

/-- A character of which some bytes were read: how many are missing, the value so far, and the
range of the next byte. -/
structure Partial where
  missing : Nat
  value : Nat
  low : Nat
  high : Nat

/-- What a byte begins: a whole character, a longer one, or nothing. -/
inductive Lead
  | whole (c : Char)
  | longer (p : Partial)
  | none

/-- The ranges of second bytes leave out overlong forms, surrogates and values past the last
scalar. -/
def lead (byte : UInt8) : Lead :=
  let n := byte.toNat
  if n < 0x80 then .whole (Char.ofNat n)
  else if n < 0xC2 then .none
  else if n < 0xE0 then .longer ⟨0, n - 0xC0, 0x80, 0xBF⟩
  else if n < 0xF0 then
    .longer ⟨1, n - 0xE0, if n = 0xE0 then 0xA0 else 0x80, if n = 0xED then 0x9F else 0xBF⟩
  else if n < 0xF5 then
    .longer ⟨2, n - 0xF0, if n = 0xF0 then 0x90 else 0x80, if n = 0xF4 then 0x8F else 0xBF⟩
  else .none

/-- The characters of `bytes`, `open?` being the character that was begun before them. -/
def decodeFrom (open? : Option Partial) : List UInt8 → List Char
  | [] => if open?.isSome then [replacement] else []
  | byte :: bytes =>
    let fresh : List Char → List Char := fun done =>
      match lead byte with
      | .whole c => done ++ c :: decodeFrom none bytes
      | .longer p => done ++ decodeFrom (some p) bytes
      | .none => done ++ replacement :: decodeFrom none bytes
    match open? with
    | none => fresh []
    | some p =>
      if p.low ≤ byte.toNat && byte.toNat ≤ p.high then
        let value := p.value * 64 + (byte.toNat - 0x80)
        match p.missing with
        | 0 => Char.ofNat value :: decodeFrom none bytes
        | missing + 1 => decodeFrom (some ⟨missing, value, 0x80, 0xBF⟩) bytes
      else fresh [replacement]

def decode (bytes : List UInt8) : List Char := decodeFrom none bytes

end Harvest.Text.Utf8
