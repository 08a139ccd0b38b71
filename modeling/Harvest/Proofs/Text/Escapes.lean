import Harvest.Proofs.Text.Utf8

/-!
# Parts of a literal body

A literal body is made of characters that stand for themselves and of escapes: a letter or a sign
after a backslash, one to three octal digits, or `x`, `u` or `U` with hexadecimal digits. There is
one equation for the bytes of each of them, whatever comes after it.

A universal name, `\u` with four digits or `\U` with eight, stands for the character of that number.
Its digits are read like those of `\x`, as far as there are any, and so a digit right after the name
changes what it stands for. Main statement: a universal name reads as its character exactly if no
hexadecimal digit follows it (`decode_universalName`).
-/

namespace Harvest.Text

namespace Utf8

theorem decode_encodeChar_append (c : Char) (bytes : List UInt8) :
    decode (String.utf8EncodeChar c ++ bytes) = c :: decode bytes :=
  decodeFrom_encodeChar c bytes

theorem decode_encode_append (cs : List Char) (bytes : List UInt8) :
    decode (encode cs ++ bytes) = cs ++ decode bytes := by
  induction cs with
  | nil => rfl
  | cons c cs ih =>
    rw [encode, List.flatMap_cons, List.append_assoc, decode_encodeChar_append]
    exact congrArg (c :: ·) ih

end Utf8

namespace Escape

variable {c e : Char} {cs digits rest : List Char}

theorem bytes_nil : bytes [] = [] := by rw [bytes]

theorem bytes_plain (hc : c ≠ '\\') (cs : List Char) :
    bytes (c :: cs) = String.utf8EncodeChar c ++ bytes cs := by
  rw [bytes]
  · exact fun h _ ↦ hc h
  · exact fun _ _ h _ ↦ hc h

theorem bytes_plain_append (hcs : '\\' ∉ cs) (rest : List Char) :
    bytes (cs ++ rest) = Utf8.encode cs ++ bytes rest := by
  induction cs with
  | nil => rfl
  | cons c cs ih =>
    obtain ⟨hc, hcs⟩ : c ≠ '\\' ∧ '\\' ∉ cs := by simpa [eq_comm] using hcs
    rw [List.cons_append, bytes_plain hc, ih hcs, Utf8.encode, Utf8.encode, List.flatMap_cons,
      List.append_assoc]

theorem bytes_hex (cs : List Char) :
    bytes ('\\' :: 'x' :: cs) =
      UInt8.ofNat (hexValue (cs.takeWhile isHexDigit)) :: bytes (cs.dropWhile isHexDigit) := by
  rw [bytes, if_neg (by decide), if_pos rfl]

theorem bytes_universal (he : e = 'u' ∨ e = 'U') (cs : List Char) :
    bytes ('\\' :: e :: cs) =
      String.utf8EncodeChar (scalar (hexValue (cs.takeWhile isHexDigit))) ++
        bytes (cs.dropWhile isHexDigit) := by
  rcases he with rfl | rfl <;> rw [bytes, if_neg (by decide), if_neg (by decide), if_pos (by decide)]

/-- A digit of an octal escape is no letter that begins another one. -/
theorem ne_of_isOctalDigit (he : isOctalDigit e = true) :
    e ≠ '\n' ∧ e ≠ 'x' ∧ (e = 'u' || e = 'U') = false := by
  refine ⟨?_, ?_, Bool.or_eq_false_iff.2 ⟨decide_eq_false ?_, decide_eq_false ?_⟩⟩ <;>
    (rintro rfl; exact absurd he (by decide))

theorem bytes_octal (he : isOctalDigit e = true) (cs : List Char) :
    bytes ('\\' :: e :: cs) =
      UInt8.ofNat (spelled 8 (e :: (cs.take 2).takeWhile isOctalDigit)) ::
        bytes (cs.drop ((cs.take 2).takeWhile isOctalDigit).length) := by
  obtain ⟨hline, hx, hu⟩ := ne_of_isOctalDigit he
  rw [bytes, if_neg hline, if_neg hx, if_neg (Bool.eq_false_iff.1 hu), if_pos he]

/-- An escape of three octal digits takes no other digit. -/
theorem bytes_threeOctals {d d' : Char} (he : isOctalDigit e = true) (hd : isOctalDigit d = true)
    (hd' : isOctalDigit d' = true) (cs : List Char) :
    bytes ('\\' :: e :: d :: d' :: cs) = UInt8.ofNat (spelled 8 [e, d, d']) :: bytes cs := by
  rw [bytes_octal he]
  simp [hd, hd']

/-- A sign that is escaped stands for itself, or for the control character that it names. -/
theorem bytes_sign (hline : e ≠ '\n') (hx : e ≠ 'x') (hu : e ≠ 'u') (hU : e ≠ 'U')
    (hoctal : isOctalDigit e = false) (cs : List Char) :
    bytes ('\\' :: e :: cs) = String.utf8EncodeChar ((control? e).getD e) ++ bytes cs := by
  rw [bytes, if_neg hline, if_neg hx, if_neg (by simp [hu, hU]), if_neg (by simp [hoctal])]

theorem toList_decode (body : String) : (decode body).toList = Utf8.decode (bytes body.toList) := by
  rw [decode, String.toList_ofList]

/-- The hexadecimal digits with their values. -/
def hexDigits : List (Char × Nat) :=
  "0123456789abcdef".toList.zipIdx ++ "0123456789ABCDEF".toList.zipIdx

/-- The digits write the number down in base sixteen. -/
inductive HexForm : Nat → List Char → Prop
  | nil : HexForm 0 []
  | snoc {n k : Nat} {d : Char} {digits : List Char} (h : HexForm n digits)
      (hd : (d, k) ∈ hexDigits) : HexForm (n * 16 + k) (digits ++ [d])

theorem hexDigits_sound : ∀ p ∈ hexDigits, isHexDigit p.1 = true ∧ digitValue p.1 = p.2 := by
  decide

namespace HexForm

variable {n : Nat}

theorem isHexDigit (h : HexForm n digits) : ∀ d ∈ digits, isHexDigit d = true := by
  induction h with
  | nil => nofun
  | snoc h hd ih =>
    intro d hmem
    rcases List.mem_append.1 hmem with hmem | hmem
    · exact ih d hmem
    · obtain rfl := List.mem_singleton.1 hmem
      exact (hexDigits_sound _ hd).1

theorem spelled_eq (h : HexForm n digits) : spelled 16 digits = n := by
  induction h with
  | nil => rfl
  | snoc h hd ih =>
    have hlast := (hexDigits_sound _ hd).2
    rw [spelled] at ih ⊢
    rw [List.foldl_append, ih, List.foldl_cons, List.foldl_nil, hlast]

end HexForm

theorem scalar_toNat (v : Char) : scalar v.toNat = v := by
  have hvalid : v.toNat.isValidChar := v.valid
  rw [scalar, if_pos hvalid, Char.ofNat_toNat]

theorem scalar_hexValue {v : Char} (h : HexForm v.toNat digits) : scalar (hexValue digits) = v := by
  have hlt : v.toNat < UInt32.size := v.val.toNat_lt
  rw [hexValue, h.spelled_eq]
  simp only [if_pos hlt, scalar_toNat]

theorem not_mem_of_isHexDigit (hcs : ∀ c ∈ cs, isHexDigit c = true) : '\\' ∉ cs :=
  fun h ↦ absurd (hcs _ h) (by decide)

/-- A universal name takes all the hexadecimal digits that follow it. So it reads as its character,
before what the text after it stands for, exactly if there are none. -/
theorem decode_universalName {mark v : Char} (hform : HexForm v.toNat digits)
    (hlength : mark = 'u' ∧ digits.length = 4 ∨ mark = 'U' ∧ digits.length = 8) (rest : String) :
    let text := String.ofList ('\\' :: mark :: digits) ++ rest
    let run := rest.toList.takeWhile isHexDigit
    decode text = String.singleton (scalar (hexValue (digits ++ run))) ++
        decode (String.ofList (rest.toList.drop run.length)) ∧
      (decode text = String.singleton v ++ decode rest ↔ run = []) := by
  intro text run
  have hmark : mark = 'u' ∨ mark = 'U' := hlength.imp And.left And.left
  have hafter : rest.toList = run ++ rest.toList.dropWhile isHexDigit :=
    List.takeWhile_append_dropWhile.symm
  have hdrop : rest.toList.drop run.length = rest.toList.dropWhile isHexDigit := by
    conv => lhs; rw [hafter, List.drop_left]
  have htext : (decode text).toList = scalar (hexValue (digits ++ run)) ::
      Utf8.decode (bytes (rest.toList.dropWhile isHexDigit)) := by
    rw [toList_decode, String.toList_append, String.toList_ofList, List.cons_append,
      List.cons_append, bytes_universal hmark, List.takeWhile_append_of_pos hform.isHexDigit,
      List.dropWhile_append_of_pos hform.isHexDigit, Utf8.decode_encodeChar_append]
  -- The digits that follow the name stand for themselves in the rest.
  have hrest : (decode rest).toList =
      run ++ Utf8.decode (bytes (rest.toList.dropWhile isHexDigit)) := by
    rw [toList_decode]
    conv => lhs; rw [hafter]
    rw [bytes_plain_append (not_mem_of_isHexDigit (List.all_eq_true.1 List.all_takeWhile)),
      Utf8.decode_encode_append]
  refine ⟨?_, ?_⟩
  · rw [← String.toList_inj, htext, hdrop, String.toList_append, toList_decode,
      String.toList_ofList, String.toList_singleton]
    rfl
  · rw [← String.toList_inj, htext, String.toList_append, hrest, String.toList_singleton,
      List.singleton_append]
    constructor
    · intro heq
      have hlen := congrArg List.length (List.cons.inj heq).2
      rw [List.length_append] at hlen
      exact List.eq_nil_of_length_eq_zero (by omega)
    · intro hnone
      rw [hnone, List.append_nil, scalar_hexValue hform, List.nil_append]

/-- A letter that is no digit leaves the name alone, and digits that are not its own change it. -/
theorem decode_universalName_followed :
    HexForm 'é'.toNat "00e9".toList ∧ HexForm '😀'.toNat "0001F600".toList ∧
      decode (String.ofList ('\\' :: 'u' :: "00e9".toList) ++ "tude") =
        String.singleton 'é' ++ decode "tude" ∧
      decode (String.ofList ('\\' :: 'U' :: "0001F600".toList) ++ "0!") =
        String.singleton Utf8.replacement ++ decode "!" := by
  have hfour : HexForm 'é'.toNat "00e9".toList :=
    .snoc (k := 9) (.snoc (k := 14) (.snoc (k := 0) (.snoc (k := 0) .nil (by decide)) (by decide))
      (by decide)) (by decide)
  have hseven : HexForm 0x1F60 "0001F60".toList :=
    .snoc (k := 0) (.snoc (k := 6) (.snoc (k := 15) (.snoc (k := 1) (.snoc (k := 0) (.snoc (k := 0)
      (.snoc (k := 0) .nil (by decide)) (by decide)) (by decide)) (by decide)) (by decide))
      (by decide)) (by decide)
  have height : HexForm '😀'.toNat "0001F600".toList := .snoc (k := 0) hseven (by decide)
  refine ⟨hfour, height, ?_, ?_⟩
  · exact (decode_universalName hfour (.inl ⟨rfl, by decide⟩) "tude").2.2 (by decide)
  · exact (decode_universalName height (.inr ⟨rfl, by decide⟩) "0!").1

/-- A digit right after a universal name is taken for a part of it. -/
theorem universalName_grows :
    HexForm 'A'.toNat "0041".toList ∧
      decode (String.ofList ('\\' :: 'u' :: "0041".toList) ++ "B") = "Л" ∧
      decode (String.ofList ('\\' :: 'u' :: "0041".toList) ++ "B") ≠
        String.singleton 'A' ++ decode "B" := by
  refine ⟨?_, by decide +kernel, by decide +kernel⟩
  exact .snoc (k := 1) (.snoc (k := 4) (.snoc (k := 0) (.snoc (k := 0) .nil (by decide)) (by decide))
    (by decide)) (by decide)

end Escape

end Harvest.Text
