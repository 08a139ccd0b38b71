import Harvest.Text.Escape
import Mathlib.Tactic.SplitIfs

/-!
# Reading characters back

What the bytes of characters are read as. Main statements: reading the bytes of a text gives the
text, and the value of a literal body without a backslash is that body.
-/

namespace Harvest.Text

namespace Utf8

theorem toNat_ofNat {b : Nat} (hb : b < 256) : (UInt8.ofNat b).toNat = b := by
  rw [UInt8.toNat_ofNat']
  omega

theorem decodeFrom_whole {byte : UInt8} {c : Char} (bytes : List UInt8)
    (hlead : lead byte = .whole c) :
    decodeFrom none (byte :: bytes) = c :: decodeFrom none bytes := by
  simp [decodeFrom, hlead]

theorem decodeFrom_longer {byte : UInt8} {p : Partial} (bytes : List UInt8)
    (hlead : lead byte = .longer p) :
    decodeFrom none (byte :: bytes) = decodeFrom (some p) bytes := by
  simp [decodeFrom, hlead]

/-- A byte after which the character under way goes on. -/
theorem decodeFrom_inner {missing value low high b : Nat} (bytes : List UInt8) (hb : b < 256)
    (hlow : low ≤ b) (hhigh : b ≤ high) :
    decodeFrom (some ⟨missing + 1, value, low, high⟩) (UInt8.ofNat b :: bytes) =
      decodeFrom (some ⟨missing, value * 64 + (b - 0x80), 0x80, 0xBF⟩) bytes := by
  simp only [decodeFrom, toNat_ofNat hb]
  rw [if_pos (by simp [hlow, hhigh])]

/-- A byte that ends the character under way. -/
theorem decodeFrom_last {value low high b : Nat} (bytes : List UInt8) (hb : b < 256)
    (hlow : low ≤ b) (hhigh : b ≤ high) :
    decodeFrom (some ⟨0, value, low, high⟩) (UInt8.ofNat b :: bytes) =
      Char.ofNat (value * 64 + (b - 0x80)) :: decodeFrom none bytes := by
  simp only [decodeFrom, toNat_ofNat hb]
  rw [if_pos (by simp [hlow, hhigh])]

theorem lead_two {k : Nat} (hlow : 2 ≤ k) (hhigh : k < 32) :
    lead (UInt8.ofNat (k + 0xC0)) = .longer ⟨0, k, 0x80, 0xBF⟩ := by
  rw [lead, toNat_ofNat (by omega), if_neg (by omega), if_neg (by omega), if_pos (by omega),
    Nat.add_sub_cancel]

theorem lead_three {k : Nat} (hhigh : k < 16) :
    lead (UInt8.ofNat (k + 0xE0)) =
      .longer ⟨1, k, if k = 0 then 0xA0 else 0x80, if k = 13 then 0x9F else 0xBF⟩ := by
  rw [lead, toNat_ofNat (by omega), if_neg (by omega), if_neg (by omega), if_neg (by omega),
    if_pos (by omega)]
  simp

theorem lead_four {k : Nat} (hhigh : k < 5) :
    lead (UInt8.ofNat (k + 0xF0)) =
      .longer ⟨2, k, if k = 0 then 0x90 else 0x80, if k = 4 then 0x8F else 0xBF⟩ := by
  rw [lead, toNat_ofNat (by omega), if_neg (by omega), if_neg (by omega), if_neg (by omega),
    if_neg (by omega), if_pos (by omega)]
  simp

/-- The bytes of a character are read as that character. -/
theorem decodeFrom_encodeChar (c : Char) (bytes : List UInt8) :
    decodeFrom none (String.utf8EncodeChar c ++ bytes) = c :: decodeFrom none bytes := by
  have hvalid : c.val.toNat < 0xD800 ∨ (0xDFFF < c.val.toNat ∧ c.val.toNat < 0x110000) := c.valid
  have hchar : Char.ofNat c.val.toNat = c := Char.ofNat_toNat c
  unfold String.utf8EncodeChar
  generalize c.val.toNat = v at hvalid hchar
  dsimp only
  split_ifs with hone htwo hthree
  · have hlead : lead (UInt8.ofNat v) = .whole c := by
      rw [lead, toNat_ofNat (by omega), if_pos (by omega), hchar]
    exact decodeFrom_whole bytes hlead
  · simp only [List.cons_append, List.nil_append]
    rw [decodeFrom_longer _ (lead_two (by omega) (by omega)),
      decodeFrom_last _ (by omega) (by omega) (by omega),
      show v / 64 % 32 * 64 + (v % 64 + 0x80 - 0x80) = v by omega, hchar]
  · simp only [List.cons_append, List.nil_append]
    rw [decodeFrom_longer _ (lead_three (by omega)),
      decodeFrom_inner _ (by omega) (by split <;> omega) (by split <;> omega),
      decodeFrom_last _ (by omega) (by omega) (by omega),
      show (v / 4096 % 16 * 64 + (v / 64 % 64 + 0x80 - 0x80)) * 64 + (v % 64 + 0x80 - 0x80) = v by
        omega, hchar]
  · simp only [List.cons_append, List.nil_append]
    rw [decodeFrom_longer _ (lead_four (by omega)),
      decodeFrom_inner _ (by omega) (by split <;> omega) (by split <;> omega),
      decodeFrom_inner _ (by omega) (by omega) (by omega),
      decodeFrom_last _ (by omega) (by omega) (by omega),
      show ((v / 262144 % 8 * 64 + (v / 4096 % 64 + 0x80 - 0x80)) * 64 +
        (v / 64 % 64 + 0x80 - 0x80)) * 64 + (v % 64 + 0x80 - 0x80) = v by omega, hchar]

theorem decode_encode (cs : List Char) : decode (encode cs) = cs := by
  induction cs with
  | nil => rfl
  | cons c cs ih =>
    rw [encode, List.flatMap_cons, decode, decodeFrom_encodeChar]
    exact congrArg (c :: ·) ih

end Utf8

namespace Escape

theorem bytes_eq_encode {cs : List Char} (hplain : '\\' ∉ cs) : bytes cs = Utf8.encode cs := by
  induction cs with
  | nil => rw [bytes, Utf8.encode, List.flatMap_nil]
  | cons c cs ih =>
    have hc : c ≠ '\\' := fun h ↦ hplain (h ▸ List.mem_cons_self)
    have hcs : bytes cs = Utf8.encode cs := ih fun h ↦ hplain (List.mem_cons_of_mem c h)
    rw [bytes, hcs, Utf8.encode, Utf8.encode, List.flatMap_cons]
    · exact fun h _ ↦ hc h
    · exact fun _ _ h _ ↦ hc h

/-- A literal body without a backslash stands for itself. -/
theorem decode_of_plain {body : String} (hplain : '\\' ∉ body.toList) : decode body = body := by
  rw [decode, bytes_eq_encode hplain, Utf8.decode_encode, String.ofList_toList]

end Escape

end Harvest.Text
