import Harvest.Proofs.Source.RawLiterals
import Harvest.Proofs.Text.Escapes

/-!
# Literals with escapes

The body of a literal goes up to the first quote that no backslash escapes, and its escapes stay
encoded. A text can be written in a literal in many ways: a character stands for itself, or it is
escaped by a sign, or its bytes are written as octal numbers. Main statement: however each character
is written, the literal is read as one token whose value is the text (`Stream.ofText_of_written`).
-/

namespace Harvest

/-- What may stand between the quotes of a literal: a quote or a backslash follows a backslash, and
the line does not end. -/
def isBody : List Char → Bool
  | [] => true
  | '\\' :: e :: rest => e ≠ '\n' && e ≠ '\r' && isBody rest
  | c :: rest => Token.isLiteralChar c && isBody rest

/-- The text between the quotes of a literal. -/
structure LiteralBody where
  text : String
  valid : isBody text.toList = true

section Bodies

variable {c e : Char} {cs ds rest : List Char}

theorem isBody_escape (he : e ≠ '\n' ∧ e ≠ '\r') (cs : List Char) :
    isBody ('\\' :: e :: cs) = isBody cs := by
  simp [isBody, he]

theorem isBody_plain (hc : Token.isLiteralChar c = true) (cs : List Char) :
    isBody (c :: cs) = isBody cs := by
  rw [isBody, hc, Bool.true_and]
  rintro _ _ rfl
  exact absurd hc (by decide)

theorem isBody_append (hcs : isBody cs = true) (hds : isBody ds = true) :
    isBody (cs ++ ds) = true := by
  fun_induction isBody cs with
  | case1 => exact hds
  | case2 e rest ih =>
    simp only [Bool.and_eq_true, decide_eq_true_eq] at hcs
    rw [List.cons_append, List.cons_append, isBody_escape hcs.1]
    exact ih hcs.2
  | case3 c rest _ ih =>
    obtain ⟨hc, hrest⟩ := Bool.and_eq_true_iff.1 hcs
    rw [List.cons_append, isBody_plain hc]
    exact ih hrest

/-- A body stands on one line. -/
theorem not_mem_of_isBody (hcs : isBody cs = true) : '\n' ∉ cs ∧ '\r' ∉ cs := by
  fun_induction isBody cs with
  | case1 => exact ⟨List.not_mem_nil, List.not_mem_nil⟩
  | case2 e rest ih =>
    simp only [Bool.and_eq_true, decide_eq_true_eq] at hcs
    obtain ⟨hn, hr⟩ := ih hcs.2
    simp only [List.mem_cons, not_or]
    exact ⟨⟨by decide, hcs.1.1.symm, hn⟩, by decide, hcs.1.2.symm, hr⟩
  | case3 c rest _ ih =>
    simp only [Token.isLiteralChar, Bool.and_eq_true, decide_eq_true_eq] at hcs
    obtain ⟨hn, hr⟩ := ih hcs.2
    simp only [List.mem_cons, not_or]
    exact ⟨⟨hcs.1.1.2.symm, hn⟩, hcs.1.2.symm, hr⟩

end Bodies

/-- A text on one line is read character by character. -/
theorem Glyph.map_char_read_of_line (line : Nat) (leads : Bool) {cs : List Char} (hn : '\n' ∉ cs)
    (hr : '\r' ∉ cs) : (read line leads cs).map Glyph.char = cs := by
  induction cs generalizing line leads with
  | nil => rfl
  | cons c cs ih =>
    simp only [List.mem_cons, not_or] at hn hr
    rw [read]
    · rw [List.map_cons, ih _ _ hn.2 hr.2]
    all_goals grind

namespace Lexeme

variable {gs : List Glyph} {body rest : List Char}

theorem stringBody_of_isBody (hbody : isBody body = true)
    (hgs : gs.map Glyph.char = body ++ '"' :: rest) :
    (stringBody gs).1 = body ∧ (stringBody gs).2.map Glyph.char = '"' :: rest := by
  fun_induction isBody body generalizing gs with
  | case1 =>
    obtain ⟨g, gs, rfl, hg, htail⟩ := List.map_eq_cons_iff.1 hgs
    cases gs <;> simp_all [stringBody]
  | case2 e body ih =>
    obtain ⟨g, gs, rfl, hg, htail⟩ := List.map_eq_cons_iff.1 hgs
    obtain ⟨g', gs, rfl, hg', htail⟩ := List.map_eq_cons_iff.1 htail
    simp only [Bool.and_eq_true, decide_eq_true_eq] at hbody
    obtain ⟨hfst, hsnd⟩ := ih hbody.2 htail
    simp [stringBody, hg, hg', hbody.1.1, hfst, hsnd]
  | case3 c body _ ih =>
    obtain ⟨g, gs, rfl, rfl, htail⟩ := List.map_eq_cons_iff.1 hgs
    obtain ⟨hc, hrest⟩ := Bool.and_eq_true_iff.1 hbody
    obtain ⟨hfst, hsnd⟩ := ih hrest htail
    simp only [Token.isLiteralChar, Bool.and_eq_true, decide_eq_true_eq] at hc
    cases gs with
    | nil => simp at htail
    | cons g' gs => simp [stringBody, hc, hfst, hsnd]

/-- A literal is read up to its closing quote. -/
theorem next_literal {g : Glyph} (hbody : isBody body = true)
    (hgs : (g :: gs).map Glyph.char = '"' :: (body ++ '"' :: rest)) :
    ∃ left, next g gs = ⟨.token (.string (String.ofList body)), none, left⟩ ∧
      left.map Glyph.char = rest := by
  obtain ⟨hg, htail⟩ := List.cons.inj hgs
  obtain ⟨hfst, hsnd⟩ := stringBody_of_isBody hbody htail
  have hquote : char? (stringBody gs).2 = some '"' := by
    rw [char?_eq_head?, hsnd]
    rfl
  have hstring : next g gs = string gs := by
    simp [next, hg, isWordStart, punctuation]
  refine ⟨(stringBody gs).2.tail, ?_, by rw [List.map_tail, hsnd]; rfl⟩
  simp [hstring, string, hfst, hquote]

end Lexeme

/-- The characters that a sign after a backslash stands for, with their signs. -/
def signs : List (Char × Char) :=
  [('\\', '\\'), ('"', '"'), ('\x07', 'a'), ('\x08', 'b'), ('\x0c', 'f'), ('\n', 'n'), ('\r', 'r'),
    ('\t', 't'), ('\x0b', 'v')]

def octalDigit (n : Nat) : Char := Char.ofNat (n + 0x30)

/-- A byte as an octal number of three digits. -/
def octalEscape (byte : UInt8) : List Char :=
  let n := byte.toNat
  ['\\', octalDigit (n / 64), octalDigit (n / 8 % 8), octalDigit (n % 8)]

/-- The ways to write one character in a literal. -/
inductive WrittenChar (c : Char) : List Char → Prop
  | itself (hc : Token.isLiteralChar c = true) : WrittenChar c [c]
  | sign {e : Char} (he : (c, e) ∈ signs) : WrittenChar c ['\\', e]
  | octal : WrittenChar c ((String.utf8EncodeChar c).flatMap octalEscape)

/-- The ways to write a text in a literal, each character in its own way. -/
inductive Written : List Char → List Char → Prop
  | nil : Written [] []
  | cons {c : Char} {cs w ws : List Char} (hc : WrittenChar c w) (hcs : Written cs ws) :
      Written (c :: cs) (w ++ ws)

theorem octalDigit_sound : ∀ n < 8, Text.Escape.isOctalDigit (octalDigit n) = true ∧
    Text.Escape.digitValue (octalDigit n) = n ∧ Token.isLiteralChar (octalDigit n) = true ∧
    octalDigit n ≠ '\n' ∧ octalDigit n ≠ '\r' := by
  decide

theorem signs_sound : ∀ p ∈ signs, p.2 ≠ '\n' ∧ p.2 ≠ '\r' ∧ p.2 ≠ 'x' ∧ p.2 ≠ 'u' ∧ p.2 ≠ 'U' ∧
    Text.Escape.isOctalDigit p.2 = false ∧ (Text.Escape.control? p.2).getD p.2 = p.1 := by
  decide

theorem isBody_octalEscape (byte : UInt8) : isBody (octalEscape byte) = true := by
  have hbyte : byte.toNat < 256 := byte.toNat_lt
  obtain ⟨-, -, -, hfirst⟩ := octalDigit_sound (byte.toNat / 64) (by omega)
  obtain ⟨-, -, hsecond, -⟩ := octalDigit_sound (byte.toNat / 8 % 8) (by omega)
  obtain ⟨-, -, hthird, -⟩ := octalDigit_sound (byte.toNat % 8) (by omega)
  rw [octalEscape, isBody_escape hfirst, isBody_plain hsecond, isBody_plain hthird]
  rfl

/-- Three octal digits stand for their byte, whatever comes after them. -/
theorem bytes_octalEscape (byte : UInt8) (cs : List Char) :
    Text.Escape.bytes (octalEscape byte ++ cs) = byte :: Text.Escape.bytes cs := by
  have hbyte : byte.toNat < 256 := byte.toNat_lt
  obtain ⟨hfirst, hvalue, -⟩ := octalDigit_sound (byte.toNat / 64) (by omega)
  obtain ⟨hsecond, hvalue', -⟩ := octalDigit_sound (byte.toNat / 8 % 8) (by omega)
  obtain ⟨hthird, hvalue'', -⟩ := octalDigit_sound (byte.toNat % 8) (by omega)
  have hspelled : Text.Escape.spelled 8 [octalDigit (byte.toNat / 64),
      octalDigit (byte.toNat / 8 % 8), octalDigit (byte.toNat % 8)] = byte.toNat := by
    simp only [Text.Escape.spelled, List.foldl_cons, List.foldl_nil, hvalue, hvalue', hvalue'']
    omega
  rw [octalEscape]
  simp only [List.cons_append, List.nil_append]
  rw [Text.Escape.bytes_threeOctals hfirst hsecond hthird, hspelled, UInt8.ofNat_toNat]

theorem bytes_octalEscapes (bytes : List UInt8) (cs : List Char) :
    Text.Escape.bytes (bytes.flatMap octalEscape ++ cs) = bytes ++ Text.Escape.bytes cs := by
  induction bytes with
  | nil => rfl
  | cons byte bytes ih =>
    rw [List.flatMap_cons, List.append_assoc, bytes_octalEscape, ih, List.cons_append]

namespace WrittenChar

variable {c : Char} {w : List Char}

theorem isBody (h : WrittenChar c w) : isBody w = true := by
  cases h with
  | itself hc => rw [isBody_plain hc]; rfl
  | sign he =>
    obtain ⟨hn, hr, -⟩ := signs_sound _ he
    rw [isBody_escape ⟨hn, hr⟩]
    rfl
  | octal =>
    induction String.utf8EncodeChar c with
    | nil => rfl
    | cons byte bytes ih => exact isBody_append (isBody_octalEscape byte) ih

theorem bytes_eq (h : WrittenChar c w) (cs : List Char) :
    Text.Escape.bytes (w ++ cs) = String.utf8EncodeChar c ++ Text.Escape.bytes cs := by
  cases h with
  | itself hc =>
    refine Text.Escape.bytes_plain ?_ cs
    rintro rfl
    exact absurd hc (by decide)
  | sign he =>
    obtain ⟨hn, -, hx, hu, hU, hoctal, hvalue⟩ := signs_sound _ he
    rw [List.cons_append, List.cons_append, List.nil_append,
      Text.Escape.bytes_sign hn hx hu hU hoctal, hvalue]
  | octal => exact bytes_octalEscapes _ cs

end WrittenChar

namespace Written

variable {cs ws : List Char}

theorem isBody (h : Written cs ws) : isBody ws = true := by
  induction h with
  | nil => rfl
  | cons hc _ ih => exact isBody_append hc.isBody ih

theorem bytes_eq (h : Written cs ws) : Text.Escape.bytes ws = Text.Utf8.encode cs := by
  induction h with
  | nil => exact Text.Escape.bytes_nil
  | cons hc _ ih => rw [hc.bytes_eq, ih, Text.Utf8.encode, Text.Utf8.encode, List.flatMap_cons]

/-- What is written reads back. -/
theorem decode_eq {t : String} (h : Written t.toList ws) :
    Text.Escape.decode (String.ofList ws) = t := by
  rw [Text.Escape.decode, String.toList_ofList, h.bytes_eq, Text.Utf8.decode_encode,
    String.ofList_toList]

end Written

/-- A text that is written between quotes, each character in any of its ways, is read as one token
without complaint, and the value of the token is the text. Wherever else the literal stands, it is
read in the same way and what follows it is left. -/
theorem Stream.ofText_of_written {t : String} {ws : List Char} (h : Written t.toList ws) :
    Stream.ofText (String.ofList ('"' :: (ws ++ ['"']))) =
        ⟨[⟨[], .string (String.ofList ws), 1, {}⟩, ⟨[], .eof, 1, {}⟩], []⟩ ∧
      (∀ (r : Reader) (rest : List Char), r.left.map Glyph.char = '"' :: (ws ++ '"' :: rest) →
        r.Yields (.string (String.ofList ws)) [] rest) ∧
      Text.Escape.decode (String.ofList ws) = t := by
  refine ⟨?_, fun r rest hleft ↦ ?_, h.decode_eq⟩
  · obtain ⟨hn, hr⟩ := not_mem_of_isBody h.isBody
    have hline : '\n' ∉ ws ++ ['"'] ∧ '\r' ∉ ws ++ ['"'] := by
      constructor <;> simp [hn, hr]
    have hglyphs : Glyph.ofText (String.ofList ('"' :: (ws ++ ['"']))) =
        ⟨'"', 1, false, ws ++ ['"']⟩ :: Glyph.read 1 false (ws ++ ['"']) := by
      rw [Glyph.ofText, String.toList_ofList, Glyph.read]
      · rfl
      all_goals simp
    have hchars : (Glyph.read 1 false (ws ++ ['"'])).map Glyph.char = ws ++ ['"'] :=
      Glyph.map_char_read_of_line 1 false hline.1 hline.2
    obtain ⟨left, hnext, hleft⟩ := Lexeme.next_literal (g := ⟨'"', 1, false, ws ++ ['"']⟩)
      h.isBody (by rw [List.map_cons, hchars])
    have hscan : Lexeme.scan (Glyph.ofText (String.ofList ('"' :: (ws ++ ['"'])))) =
        [⟨.token (.string (String.ofList ws)), 1, none⟩] := by
      rw [hglyphs, Lexeme.scan, hnext, List.map_eq_nil_iff.1 hleft, Lexeme.scan]
    rw [Stream.ofText, hscan]
    rfl
  · obtain ⟨g, gs, hcons, -⟩ := List.map_eq_cons_iff.1 hleft
    rw [hcons] at hleft
    obtain ⟨left, hnext, hrest⟩ := Lexeme.next_literal h.isBody hleft
    have hyields := Reader.yields_of_next hcons hnext
    rwa [hrest] at hyields

/-- Octal numbers before a digit and within a character, and a backslash before the closing quote. -/
theorem Stream.ofText_of_written_mixed :
    Written "\x011é\n\"\\".toList "\\0011\\303\\251\\n\\\"\\\\".toList ∧
      Stream.ofText "\"\\0011\\303\\251\\n\\\"\\\\\"" =
        ⟨[⟨[], .string "\\0011\\303\\251\\n\\\"\\\\", 1, {}⟩, ⟨[], .eof, 1, {}⟩], []⟩ ∧
      Text.Escape.decode "\\0011\\303\\251\\n\\\"\\\\" = "\x011é\n\"\\" := by
  have hsigns : Written ['\n', '"', '\\'] (['\\', 'n'] ++ (['\\', '"'] ++ (['\\', '\\'] ++ []))) :=
    .cons (.sign (by decide)) (.cons (.sign (by decide)) (.cons (.sign (by decide)) .nil))
  have hwritten : Written "\x011é\n\"\\".toList "\\0011\\303\\251\\n\\\"\\\\".toList :=
    Written.cons (w := "\\001".toList) .octal
      (.cons (.itself (c := '1') (by decide)) (.cons (w := "\\303\\251".toList) .octal hsigns))
  have hread := Stream.ofText_of_written hwritten
  exact ⟨hwritten, hread.1, hread.2.2⟩

end Harvest
