import Harvest.Proofs.Text.Escapes

/-!
# Literal bodies side by side

Bodies can be read each for itself, or put together first and read as one. Two things may go on over
the seam between two bodies: an escape that takes another digit, and a character whose bytes are
spread over both. What comes before a seam is kept in a state, `Tail` for escapes and `Partial` for
characters, which says what can go on.

Main statement: if no escape goes on over a seam, the readings agree exactly if no character does
(`Escape.decode_flatten_eq_iff`).
-/

namespace Harvest.Text

namespace Utf8

variable {open? : Option Partial} {p : Partial} {byte : UInt8} {bytes bytes' : List UInt8}

/-- Whether the byte goes on with the character. -/
def Partial.takes (p : Partial) (byte : UInt8) : Bool :=
  p.low ≤ byte.toNat && byte.toNat ≤ p.high

/-- The value with one more byte. -/
def Partial.valueWith (p : Partial) (byte : UInt8) : Nat := p.value * 64 + (byte.toNat - 0x80)

/-- What is begun after a byte. -/
def under (open? : Option Partial) (byte : UInt8) : Option Partial :=
  match open?.filter (·.takes byte) with
  | some ⟨0, _, _, _⟩ => none
  | some p => some ⟨p.missing - 1, p.valueWith byte, 0x80, 0xBF⟩
  | none =>
    match lead byte with
    | .longer p => some p
    | _ => none

/-- The characters that are known with a byte. -/
def known (open? : Option Partial) (byte : UInt8) : List Char :=
  match open?.filter (·.takes byte) with
  | some p => if p.missing = 0 then [Char.ofNat (p.valueWith byte)] else []
  | none =>
    decodeFrom open? [] ++
      match lead byte with
      | .whole c => [c]
      | .longer _ => []
      | .none => [replacement]

/-- What is begun after bytes. -/
def pending (open? : Option Partial) (bytes : List UInt8) : Option Partial :=
  bytes.foldl under open?

theorem decodeFrom_cons (open? : Option Partial) (byte : UInt8) (bytes : List UInt8) :
    decodeFrom open? (byte :: bytes) =
      known open? byte ++ decodeFrom (under open? byte) bytes := by
  cases open? with
  | none =>
    simp only [decodeFrom, known, under, Option.filter_none]
    cases lead byte <;> rfl
  | some p =>
    obtain ⟨missing, value, low, high⟩ := p
    by_cases htakes : Partial.takes ⟨missing, value, low, high⟩ byte = true
    · have hrange : (low ≤ byte.toNat && byte.toNat ≤ high) = true := htakes
      simp only [decodeFrom, known, under, Option.filter_some, htakes, hrange, if_true]
      cases missing <;> rfl
    · have hrange : ¬ (low ≤ byte.toNat && byte.toNat ≤ high) = true := htakes
      simp only [decodeFrom, known, under, Option.filter_some, htakes, hrange, Bool.false_eq_true,
        if_false]
      cases lead byte <;> rfl

/-- What bytes are read as does not depend on those after them, but for a character that is begun. -/
theorem exists_decodeFrom_append (open? : Option Partial) (bytes : List UInt8) :
    ∃ done, ∀ more,
      decodeFrom open? (bytes ++ more) = done ++ decodeFrom (pending open? bytes) more := by
  induction bytes generalizing open? with
  | nil => exact ⟨[], fun more ↦ rfl⟩
  | cons byte bytes ih =>
    obtain ⟨done, hdone⟩ := ih (under open? byte)
    refine ⟨known open? byte ++ done, fun more ↦ ?_⟩
    rw [List.cons_append, decodeFrom_cons, hdone, List.append_assoc]
    rfl

theorem exists_decode_append (bytes : List UInt8) :
    ∃ done, decode bytes = done ++ decodeFrom (pending none bytes) [] ∧
      ∀ more, decode (bytes ++ more) = done ++ decodeFrom (pending none bytes) more := by
  obtain ⟨done, hdone⟩ := exists_decodeFrom_append none bytes
  refine ⟨done, ?_, hdone⟩
  rw [← hdone, List.append_nil, decode]

/-- Only bytes that begin nothing go on with a character. -/
def Partial.Follows (p : Partial) : Prop := 0x80 ≤ p.low ∧ p.high ≤ 0xBF

theorem follows_of_lead (hlead : lead byte = .longer p) : p.Follows := by
  simp only [lead] at hlead
  split_ifs at hlead <;> obtain rfl := Lead.longer.inj hlead <;> simp [Partial.Follows]

theorem follows_of_under {q : Partial} (hq : under open? byte = some q) : q.Follows := by
  rw [under] at hq
  split at hq
  · cases hq
  · obtain rfl := Option.some.inj hq
    exact ⟨Nat.le_refl _, Nat.le_refl _⟩
  · split at hq
    · rename_i hlead
      obtain rfl := Option.some.inj hq
      exact follows_of_lead hlead
    · cases hq

theorem follows_of_pending {q : Partial} (hopen : ∀ p, open? = some p → p.Follows)
    (hq : pending open? bytes = some q) : q.Follows := by
  induction bytes generalizing open? with
  | nil => exact hopen q hq
  | cons byte bytes ih => exact ih (fun p hp ↦ follows_of_under hp) hq

theorem lead_of_takes (hp : p.Follows) (htakes : p.takes byte = true) : lead byte = .none := by
  obtain ⟨hlow, hhigh⟩ := hp
  simp only [Partial.takes, Bool.and_eq_true, decide_eq_true_eq] at htakes
  rw [lead, if_neg (by omega), if_pos (by omega)]

/-- If the next byte does not go on with the character that is begun, it is read as if none were. -/
theorem decodeFrom_of_not_takes (h : bytes.head?.any p.takes = false) :
    decodeFrom (some p) bytes = replacement :: decode bytes := by
  cases bytes with
  | nil => rfl
  | cons byte bytes =>
    have hnot : p.takes byte = false := h
    rw [decode, decodeFrom_cons, decodeFrom_cons]
    simp [known, under, hnot, decodeFrom, Option.filter_some]

/-- A byte that goes on with a character is read as a character by itself if none is begun. So less
is read if one is. -/
theorem length_decodeFrom (hp : p.Follows) (bytes : List UInt8) :
    (decodeFrom (some p) bytes).length + (bytes.head?.any p.takes).toNat ≤
      1 + (decode bytes).length := by
  induction bytes generalizing p with
  | nil => exact Nat.le_refl _
  | cons byte bytes ih =>
    cases htakes : p.takes byte with
    | false =>
      have hnot : (byte :: bytes).head?.any p.takes = false := htakes
      rw [decodeFrom_of_not_takes hnot, hnot, List.length_cons, Bool.toNat_false]
      omega
    | true =>
      have hnext : (byte :: bytes).head?.any p.takes = true := htakes
      have hplain : decode (byte :: bytes) = replacement :: decode bytes := by
        rw [decode, decodeFrom_cons]
        simp [known, under, lead_of_takes hp htakes, decodeFrom, decode]
      rw [hnext, hplain, decodeFrom_cons]
      obtain ⟨missing, value, low, high⟩ := p
      cases missing with
      | zero =>
        have hknown : known (some ⟨0, value, low, high⟩) byte =
            [Char.ofNat (Partial.valueWith ⟨0, value, low, high⟩ byte)] := by
          simp [known, Option.filter_some, htakes]
        have hunder : under (some ⟨0, value, low, high⟩) byte = none := by
          simp [under, Option.filter_some, htakes]
        rw [hknown, hunder, List.length_append, List.length_singleton, List.length_cons, decode,
          Bool.toNat_true]
        omega
      | succ missing =>
        have hfollows (v : Nat) : Partial.Follows ⟨missing, v, 0x80, 0xBF⟩ :=
          ⟨Nat.le_refl _, Nat.le_refl _⟩
        have hrest := ih (hfollows (Partial.valueWith ⟨missing + 1, value, low, high⟩ byte))
        have hknown : known (some ⟨missing + 1, value, low, high⟩) byte = [] := by
          simp [known, Option.filter_some, htakes]
        have hunder : under (some ⟨missing + 1, value, low, high⟩) byte =
            some ⟨missing, Partial.valueWith ⟨missing + 1, value, low, high⟩ byte, 0x80, 0xBF⟩ := by
          simp [under, Option.filter_some, htakes]
        rw [hknown, hunder, List.nil_append, List.length_cons, Bool.toNat_true]
        omega

/-- A character is begun before the seam and goes on after it. -/
def cuts (bytes bytes' : List UInt8) : Bool :=
  (pending none bytes).any fun p ↦ bytes'.head?.any p.takes

theorem decode_append_of_not_cuts (h : cuts bytes bytes' = false) :
    decode (bytes ++ bytes') = decode bytes ++ decode bytes' := by
  obtain ⟨done, hbytes, hdone⟩ := exists_decode_append bytes
  rw [hbytes, hdone, List.append_assoc]
  rw [cuts] at h
  cases hpending : pending none bytes with
  | none => rfl
  | some p =>
    rw [hpending] at h
    rw [decodeFrom_of_not_takes h]
    rfl

/-- Put together first, bytes are never read as more characters, and as fewer if a character is
cut. -/
theorem length_decode_append (bytes bytes' : List UInt8) :
    (decode (bytes ++ bytes')).length + (cuts bytes bytes').toNat ≤
      (decode bytes).length + (decode bytes').length := by
  obtain ⟨done, hbytes, hdone⟩ := exists_decode_append bytes
  rw [hbytes, hdone, List.length_append, List.length_append, cuts]
  cases hpending : pending none bytes with
  | none => simp [decodeFrom, decode]
  | some p =>
    have hp : p.Follows := follows_of_pending (by simp) hpending
    have hlength := length_decodeFrom hp bytes'
    simp only [decodeFrom, Option.isSome_some, if_true, List.length_singleton, Option.any_some]
    omega

end Utf8

namespace Escape

/-- What a body ends with: nothing that could go on, a backslash, a hexadecimal number, or an octal
number that may have some more digits. -/
inductive Tail
  | done
  | slash
  | hex
  | octal (more : Nat)
deriving DecidableEq

namespace Tail

/-- Whether the character belongs to what comes before it. -/
def takes : Tail → Char → Bool
  | done, _ => false
  | slash, _ => true
  | hex, c => isHexDigit c
  | octal more, c => 0 < more && isOctalDigit c

/-- What a backslash and a character begin. -/
def ofEscape (e : Char) : Tail :=
  if e = 'x' || e = 'u' || e = 'U' then hex else if isOctalDigit e then octal 2 else done

def next (t : Tail) (c : Char) : Tail :=
  if t.takes c then
    match t with
    | done => done
    | slash => ofEscape c
    | hex => hex
    | octal more => octal (more - 1)
  else if c = '\\' then slash
  else done

def ofBody (cs : List Char) : Tail := cs.foldl next done

theorem next_of_not_takes {t : Tail} {c : Char} (h : t.takes c = false) :
    t.next c = done.next c := by
  have hnot : ¬ t.takes c = true := Bool.eq_false_iff.1 h
  simp only [next, hnot]
  rfl

end Tail

variable {t : Tail} {c e : Char} {cs ds digits : List Char}

/-- After the digits of an escape, what follows is read as if it came first. -/
theorem bytes_append_after (hafter : cs.head?.any t.takes = false)
    (hends : ds.head?.any (cs.foldl Tail.next t).takes = false)
    (ih : ds.head?.any (Tail.ofBody cs).takes = false → bytes (cs ++ ds) = bytes cs ++ bytes ds) :
    (cs ++ ds).head?.any t.takes = false ∧ bytes (cs ++ ds) = bytes cs ++ bytes ds := by
  cases cs with
  | nil => exact ⟨hends, by rw [bytes_nil]; rfl⟩
  | cons c cs =>
    refine ⟨hafter, ih ?_⟩
    rwa [List.foldl_cons, Tail.next_of_not_takes hafter] at hends

theorem foldl_next_hex (hdigits : ∀ d ∈ digits, isHexDigit d = true) :
    digits.foldl Tail.next .hex = .hex := by
  induction digits with
  | nil => rfl
  | cons d digits ih =>
    obtain ⟨hd, hdigits⟩ := List.forall_mem_cons.1 hdigits
    rw [List.foldl_cons, Tail.next, Tail.takes, if_pos hd, ih hdigits]

theorem foldl_next_octal {more : Nat} (hdigits : ∀ d ∈ digits, isOctalDigit d = true)
    (hlength : digits.length ≤ more) :
    digits.foldl Tail.next (.octal more) = .octal (more - digits.length) := by
  induction digits generalizing more with
  | nil => rfl
  | cons d digits ih =>
    obtain ⟨hd, hdigits⟩ := List.forall_mem_cons.1 hdigits
    rw [List.length_cons] at hlength ⊢
    have htakes : (Tail.octal more).takes d = true := by
      simp [Tail.takes, hd]
      omega
    rw [List.foldl_cons, Tail.next, if_pos htakes, ih hdigits (by omega)]
    congr 1
    omega

/-- A run of digits goes up to the first character that is none. -/
theorem span_of_digits {p : Char → Bool} (hdigits : ∀ d ∈ digits, p d = true)
    (hcs : cs.head?.any p = false) :
    (digits ++ cs).takeWhile p = digits ∧ (digits ++ cs).dropWhile p = cs := by
  rw [List.takeWhile_append_of_pos hdigits, List.dropWhile_append_of_pos hdigits]
  cases cs with
  | nil => simp
  | cons c cs =>
    have hc : p c = false := hcs
    simp [hc]

/-- An octal number has no more digits than it may. -/
theorem takeWhile_take_of_digits {k : Nat} (hdigits : ∀ d ∈ digits, isOctalDigit d = true)
    (hlength : digits.length ≤ k)
    (hcs : cs.head?.any (Tail.octal (k - digits.length)).takes = false) :
    ((digits ++ cs).take k).takeWhile isOctalDigit = digits := by
  rw [List.take_append, List.take_of_length_le hlength, List.takeWhile_append_of_pos hdigits]
  cases cs with
  | nil => simp
  | cons c cs =>
    have hc : (Tail.octal (k - digits.length)).takes c = false := hcs
    rw [Tail.takes, Bool.and_eq_false_iff] at hc
    rcases hc with hzero | hc
    · have hk : k - digits.length = 0 := Nat.eq_zero_of_not_pos (of_decide_eq_false hzero)
      simp [hk]
    · cases hk : k - digits.length <;> simp [hc]

theorem ofBody_escape (e : Char) (cs : List Char) :
    Tail.ofBody ('\\' :: e :: cs) = cs.foldl Tail.next (Tail.ofEscape e) := by
  simp [Tail.ofBody, Tail.next, Tail.takes]

theorem ofBody_plain (hc : c ≠ '\\') (cs : List Char) :
    Tail.ofBody (c :: cs) = Tail.ofBody cs := by
  simp [Tail.ofBody, Tail.next, Tail.takes, hc]

/-- What a hexadecimal number takes does not change over the seam. -/
theorem hex_append (h : ds.head?.any (cs.foldl Tail.next .hex).takes = false)
    (ih : ds.head?.any (Tail.ofBody (cs.dropWhile isHexDigit)).takes = false →
      bytes (cs.dropWhile isHexDigit ++ ds) = bytes (cs.dropWhile isHexDigit) ++ bytes ds) :
    (cs ++ ds).takeWhile isHexDigit = cs.takeWhile isHexDigit ∧
      bytes ((cs ++ ds).dropWhile isHexDigit) =
        bytes (cs.dropWhile isHexDigit) ++ bytes ds := by
  have hrun : ∀ d ∈ cs.takeWhile isHexDigit, isHexDigit d = true :=
    List.all_eq_true.1 List.all_takeWhile
  have hcs : cs = cs.takeWhile isHexDigit ++ cs.dropWhile isHexDigit :=
    List.takeWhile_append_dropWhile.symm
  have hafter : (cs.dropWhile isHexDigit).head?.any Tail.hex.takes = false := by
    have hhead := List.head?_dropWhile_not isHexDigit cs
    cases hnext : (cs.dropWhile isHexDigit).head? with
    | none => rfl
    | some d =>
      rw [hnext] at hhead
      simpa [Tail.takes] using hhead
  rw [hcs, List.foldl_append, foldl_next_hex hrun] at h
  obtain ⟨hhead, hbytes⟩ := bytes_append_after hafter h ih
  obtain ⟨htake, hdrop⟩ := span_of_digits (p := isHexDigit) hrun hhead
  rw [← List.append_assoc, ← hcs] at htake hdrop
  exact ⟨htake, hdrop ▸ hbytes⟩

/-- The digits that an octal number takes, and what is left after them. -/
theorem octal_run (cs : List Char) :
    ∃ digits after, (cs.take 2).takeWhile isOctalDigit = digits ∧ cs = digits ++ after ∧
      digits.length ≤ 2 ∧ (∀ d ∈ digits, isOctalDigit d = true) ∧
      after.head?.any (Tail.octal (2 - digits.length)).takes = false := by
  rcases cs with _ | ⟨a, _ | ⟨b, cs⟩⟩
  · exact ⟨[], [], rfl, rfl, by simp⟩
  · by_cases ha : isOctalDigit a = true
    · exact ⟨[a], [], by simp [ha], rfl, by simp [ha]⟩
    · exact ⟨[], [a], by simp [ha], rfl, by simp [ha, Tail.takes]⟩
  · by_cases ha : isOctalDigit a = true
    · by_cases hb : isOctalDigit b = true
      · refine ⟨[a, b], cs, by simp [ha, hb], rfl, Nat.le_refl 2, by simp [ha, hb], ?_⟩
        cases cs <;> simp [Tail.takes]
      · exact ⟨[a], b :: cs, by simp [ha, hb], rfl, by simp [ha, hb, Tail.takes]⟩
    · exact ⟨[], a :: b :: cs, by simp [ha], rfl, by simp [ha, Tail.takes]⟩

/-- What an octal number takes does not change over the seam. -/
theorem octal_append (h : ds.head?.any (cs.foldl Tail.next (.octal 2)).takes = false)
    (ih : ds.head?.any
        (Tail.ofBody (cs.drop ((cs.take 2).takeWhile isOctalDigit).length)).takes = false →
      bytes (cs.drop ((cs.take 2).takeWhile isOctalDigit).length ++ ds) =
        bytes (cs.drop ((cs.take 2).takeWhile isOctalDigit).length) ++ bytes ds) :
    ((cs ++ ds).take 2).takeWhile isOctalDigit = (cs.take 2).takeWhile isOctalDigit ∧
      bytes ((cs ++ ds).drop ((cs.take 2).takeWhile isOctalDigit).length) =
        bytes (cs.drop ((cs.take 2).takeWhile isOctalDigit).length) ++ bytes ds := by
  obtain ⟨digits, after, hdigits, rfl, hlength, hoctal, hafter⟩ := octal_run cs
  rw [hdigits, List.drop_left] at ih ⊢
  rw [List.foldl_append, foldl_next_octal hoctal hlength] at h
  obtain ⟨hhead, hbytes⟩ := bytes_append_after hafter h ih
  rw [List.append_assoc, List.drop_left]
  exact ⟨takeWhile_take_of_digits hoctal hlength hhead, hbytes⟩

/-- Bodies have their bytes side by side if the second does not go on with an escape of the first. -/
theorem bytes_append (h : ds.head?.any (Tail.ofBody cs).takes = false) :
    bytes (cs ++ ds) = bytes cs ++ bytes ds := by
  induction cs using bytes.induct with
  | case1 => rw [bytes_nil]; rfl
  | case2 =>
    cases ds with
    | nil => rw [bytes_nil, List.append_nil, List.append_nil]
    | cons d ds => exact absurd h (by simp [Tail.ofBody, Tail.next, Tail.takes])
  | case3 rest ih =>
    rw [ofBody_escape] at h
    simp only [List.cons_append]
    rw [bytes, bytes, if_pos rfl, if_pos rfl]
    exact ih h
  | case4 rest _ ih =>
    rw [ofBody_escape] at h
    obtain ⟨htake, hbytes⟩ := hex_append h ih
    simp only [List.cons_append]
    rw [bytes_hex, bytes_hex, htake, hbytes, List.cons_append]
  | case5 e rest _ _ hmark ih =>
    have he : e = 'u' ∨ e = 'U' := by simpa using hmark
    have hhex : Tail.ofEscape e = .hex := by rcases he with rfl | rfl <;> rfl
    rw [ofBody_escape, hhex] at h
    obtain ⟨htake, hbytes⟩ := hex_append h ih
    simp only [List.cons_append]
    rw [bytes_universal he, bytes_universal he, htake, hbytes, List.append_assoc]
  | case6 e rest _ hx hmark he digits ih =>
    have hoctal : Tail.ofEscape e = .octal 2 := by
      simp_all [Tail.ofEscape]
    rw [ofBody_escape, hoctal] at h
    obtain ⟨htake, hbytes⟩ := octal_append h ih
    simp only [List.cons_append]
    rw [bytes_octal he, bytes_octal he, htake, hbytes, List.cons_append]
  | case7 e rest hline hx hmark hoctal ih =>
    have hdone : Tail.ofEscape e = .done := by
      simp_all [Tail.ofEscape]
    rw [ofBody_escape, hdone] at h
    obtain ⟨hu, hU⟩ : e ≠ 'u' ∧ e ≠ 'U' := by simpa using hmark
    have hsign := bytes_sign hline hx hu hU (Bool.eq_false_iff.2 hoctal)
    simp only [List.cons_append]
    rw [hsign, hsign, ih h, List.append_assoc]
  | case8 c rest hlast hmore ih =>
    have hc : c ≠ '\\' := by
      rintro rfl
      cases rest with
      | nil => exact hlast rfl rfl
      | cons e rest => exact hmore e rest rfl rfl
    rw [ofBody_plain hc] at h
    rw [List.cons_append, bytes_plain hc, bytes_plain hc, ih h, List.append_assoc]

/-- No escape of a body goes on in the bodies after it. -/
def escapesWhole : List (List Char) → Bool
  | [] => true
  | b :: bs => !bs.flatten.head?.any (Tail.ofBody b).takes && escapesWhole bs

/-- No character of a body goes on in the bodies after it. -/
def charactersWhole : List (List Char) → Bool
  | [] => true
  | b :: bs => !Utf8.cuts (bytes b) (bytes bs.flatten) && charactersWhole bs

theorem length_decode_flatten_le {bs : List (List Char)} (h : escapesWhole bs = true) :
    (Utf8.decode (bytes bs.flatten)).length ≤
      (bs.flatMap fun b ↦ Utf8.decode (bytes b)).length := by
  induction bs with
  | nil => simp [bytes_nil, Utf8.decode, Utf8.decodeFrom]
  | cons b bs ih =>
    obtain ⟨hseam, hrest⟩ := Bool.and_eq_true_iff.1 h
    have hlength := Utf8.length_decode_append (bytes b) (bytes bs.flatten)
    have hmore := ih hrest
    rw [List.flatten_cons, bytes_append (by simpa using hseam), List.flatMap_cons,
      List.length_append]
    omega

/-- If no escape goes on over a seam, bodies that are put together first are read as if each were
read for itself exactly if no character goes on over a seam. -/
theorem decode_flatten_eq_iff {bs : List (List Char)} (h : escapesWhole bs = true) :
    Utf8.decode (bytes bs.flatten) = bs.flatMap (fun b ↦ Utf8.decode (bytes b)) ↔
      charactersWhole bs = true := by
  induction bs with
  | nil => simp [bytes_nil, Utf8.decode, Utf8.decodeFrom, charactersWhole]
  | cons b bs ih =>
    obtain ⟨hseam, hrest⟩ := Bool.and_eq_true_iff.1 h
    have hmore := length_decode_flatten_le hrest
    rw [List.flatten_cons, bytes_append (by simpa using hseam), List.flatMap_cons, charactersWhole]
    cases hcuts : Utf8.cuts (bytes b) (bytes bs.flatten) with
    | false =>
      rw [Utf8.decode_append_of_not_cuts hcuts, List.append_cancel_left_eq, ih hrest]
      simp
    | true =>
      -- A character that is cut is lost when the bodies are read one by one.
      have hlength := Utf8.length_decode_append (bytes b) (bytes bs.flatten)
      rw [hcuts, Bool.toNat_true] at hlength
      constructor
      · intro heq
        have hlen := congrArg List.length heq
        rw [List.length_append] at hlen
        omega
      · intro hwhole
        cases hwhole

end Escape

end Harvest.Text
