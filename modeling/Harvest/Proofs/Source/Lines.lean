import Harvest.Source.Stream
import Mathlib.Tactic.SplitIfs

/-!
# Lexemes within a line

A directive begins at a `#` before which only blanks stand on its line. What is read within a line
therefore leads on within it: the characters that are left follow one after which no directive may
begin. The newline ends the line, and `operator` may take it along with the blanks.

Main statement: within a line no directive is read (`follow_next`), and a macro body begins within
one (`follow_next_macroBody`).
-/

namespace Harvest

/-- The tokens that no lexeme is by itself: the end of a text or of a macro body, and the delimiters,
which are what the nesting makes of them. -/
def Token.isSilent : Token → Bool
  | eof | cancel | opening _ | closing _ => true
  | _ => false

namespace Glyph

/-- The logical characters follow one after which a directive may begin if `leads` holds. -/
def Follow : Bool → List Glyph → Prop
  | _, [] => True
  | leads, g :: gs => g.leads = leadsAfter leads g.char ∧ Follow g.leads gs

theorem follow_read (line : Nat) (leads : Bool) (cs : List Char) :
    Follow leads (read line leads cs) := by
  fun_induction read line leads cs with
  | case1 => trivial
  | case2 _ _ _ ih | case3 _ _ _ ih | case4 _ _ _ _ ih => exact ih
  | case5 _ _ _ ih | case6 _ _ _ _ ih | case7 _ _ _ ih => exact ⟨by simp [leadsAfter], ih⟩
  | case8 _ _ _ _ _ _ _ _ _ _ ih => exact ⟨rfl, ih⟩

theorem Follow.of_suffix {leads : Bool} {gs rest : List Glyph} (h : Follow leads gs)
    (hrest : rest <:+ gs) : ∃ leads', Follow leads' rest := by
  obtain ⟨before, rfl⟩ := hrest
  induction before generalizing leads with
  | nil => exact ⟨leads, h⟩
  | cons g before ih => exact ih h.2

end Glyph

namespace Lexeme

open Glyph

theorem skip_suffix (p : Char → Bool) (gs : List Glyph) : skip p gs <:+ gs :=
  List.dropWhile_suffix _

theorem blockBody_suffix (gs : List Glyph) : (blockBody gs).2.2 <:+ gs := by
  fun_induction blockBody gs with
  | case1 => exact List.suffix_rfl
  | case2 g gs _ => exact (List.tail_suffix gs).trans (List.suffix_cons g gs)
  | case3 g gs _ _ _ _ hbody ih =>
    rw [hbody] at ih
    exact ih.trans (List.suffix_cons g gs)

theorem skipLine_suffix (gs : List Glyph) : (skipLine gs).2 <:+ gs := by
  fun_induction skipLine gs with
  | case1 => exact List.suffix_rfl
  | case2 g gs _ => exact List.suffix_cons g gs
  | case3 g gs _ _ =>
    exact ((List.tail_suffix _).trans (skip_suffix _ gs)).trans (List.suffix_cons g gs)
  | case4 g gs _ _ _ _ ih =>
    exact ((ih.trans (blockBody_suffix _)).trans (List.tail_suffix gs)).trans (List.suffix_cons g gs)
  | case5 g gs => exact List.nil_suffix
  | case6 g gs _ _ _ ih => exact ih.trans (List.suffix_cons g gs)

theorem macroHead_suffix (gs : List Glyph) : (macroHead gs).2 <:+ gs := by
  simp only [macroHead]
  grind [skip_suffix, List.tail_suffix, List.IsSuffix.trans]

theorem includeToken_suffix (gs : List Glyph) : (includeToken gs).2 <:+ gs := by
  simp only [includeToken]
  grind [skip_suffix, List.tail_suffix, List.IsSuffix.trans]

theorem lineOf_suffix (d : Directive) (gs : List Glyph) : (lineOf d gs).rest <:+ gs :=
  skipLine_suffix gs

theorem directive_suffix (gs : List Glyph) : (directive gs).rest <:+ gs := by
  simp only [directive]
  grind [skip_suffix, List.tail_suffix, macroHead_suffix, includeToken_suffix, lineOf_suffix,
    List.IsSuffix.trans]

theorem rawBody_suffix (delimiter body : List Char) (held : Option (List Char × List Char))
    (gs : List Glyph) : (rawBody delimiter body held gs).2.2 <:+ gs := by
  fun_induction rawBody delimiter body held gs <;>
    grind [List.suffix_cons, List.tail_suffix, List.IsSuffix.trans]

theorem rawString_suffix (gs : List Glyph) : (rawString gs).rest <:+ gs := by
  simp only [rawString]
  grind [rawBody_suffix, skip_suffix, List.tail_suffix, List.IsSuffix.trans]

theorem stringBody_suffix (gs : List Glyph) : (stringBody gs).2 <:+ gs := by
  fun_induction stringBody gs <;>
    grind [List.suffix_cons, List.tail_suffix, List.IsSuffix.trans]

theorem string_suffix (gs : List Glyph) : (string gs).rest <:+ gs := by
  simp only [string]
  grind [stringBody_suffix, List.tail_suffix, List.IsSuffix.trans]

theorem skipCharacter_suffix (gs : List Glyph) : (skipCharacter gs).2 <:+ gs := by
  fun_induction skipCharacter gs <;>
    grind [List.suffix_cons, List.tail_suffix, List.IsSuffix.trans]

theorem character_suffix (gs : List Glyph) : (character gs).rest <:+ gs := by
  simp only [character]
  grind [skipCharacter_suffix, List.tail_suffix, List.IsSuffix.trans]

theorem word_suffix (gs : List Glyph) : (word gs).rest <:+ gs := by
  simp only [word]
  grind [skip_suffix, rawString_suffix, List.tail_suffix, List.IsSuffix.trans]

theorem comment_suffix (gs : List Glyph) : (comment gs).rest <:+ gs := by
  simp only [comment]
  grind [skip_suffix, blockBody_suffix, List.tail_suffix, List.IsSuffix.trans]

theorem afterZero_suffix (gs : List Glyph) : (afterZero gs).rest <:+ gs := by
  simp only [afterZero]
  grind [skip_suffix, List.tail_suffix, List.IsSuffix.trans]

theorem punctuation_suffix (c : Char) (gs : List Glyph) : (punctuation c gs).rest <:+ gs := by
  simp only [punctuation]
  grind [skip_suffix, comment_suffix, string_suffix, character_suffix, afterZero_suffix,
    List.tail_suffix, List.IsSuffix.trans]

theorem next_suffix (g : Glyph) (gs : List Glyph) : (next g gs).rest <:+ g :: gs := by
  simp only [next]
  grind [directive_suffix, word_suffix, punctuation_suffix, List.suffix_cons, List.IsSuffix.trans]

variable {gs : List Glyph} {leads : Bool}

theorem follow_tail (h : Follow leads gs)
    (hc : ∀ c, char? gs = some c → leadsAfter leads c = false) : Follow false gs.tail := by
  cases gs with
  | nil => trivial
  | cons g gs =>
    rw [← hc g.char rfl, ← h.1]
    exact h.2

/-- After a character that is neither a newline nor a blank nor `#`, no directive begins. -/
theorem follow_tail_of_solid {c : Char} (h : Follow leads gs) (hc : char? gs = some c)
    (hsolid : leadsAfter true c = false) : Follow false gs.tail := by
  refine follow_tail h fun d hd ↦ ?_
  obtain rfl : c = d := Option.some.inj (hc.symm.trans hd)
  cases leads with
  | true => exact hsolid
  | false => simp_all [leadsAfter]

/-- Within a line, no directive begins after a character of the line. -/
theorem follow_tail_of_ne (h : Follow false gs) (hc : char? gs ≠ some '\n') :
    Follow false gs.tail := by
  refine follow_tail h fun d hd ↦ ?_
  have hne : d ≠ '\n' := fun hd' ↦ hc (hd' ▸ hd)
  simp [leadsAfter, hne]

theorem follow_skip {p : Char → Bool} (h : Follow false gs) (hp : p '\n' = false) :
    Follow false (skip p gs) := by
  induction gs with
  | nil => trivial
  | cons g gs ih =>
    rw [skip, List.dropWhile_cons]
    split_ifs with hg
    · refine ih (follow_tail_of_ne h fun hnewline ↦ ?_)
      have hchar : g.char = '\n' := Option.some.inj hnewline
      rw [hchar, hp] at hg
      exact Bool.false_ne_true hg
    · exact h

theorem follow_blockBody (h : Follow leads gs) : Follow false (blockBody gs).2.2 := by
  fun_induction blockBody gs generalizing leads with
  | case1 => trivial
  | case2 g gs hend =>
    have hslash : char? gs = some '/' := by simp at hend; exact hend.2
    exact follow_tail_of_solid h.2 hslash (by decide)
  | case3 g gs _ _ _ _ hbody ih =>
    rw [hbody] at ih
    exact ih h.2

theorem follow_rawBody (delimiter body : List Char) (held : Option (List Char × List Char))
    (h : Follow leads gs) : Follow false (rawBody delimiter body held gs).2.2 := by
  induction gs generalizing body held leads with
  | nil => trivial
  | cons g gs ih =>
    rw [rawBody]
    dsimp only
    split
    · split_ifs with hquote
      · exact follow_tail_of_solid h.2 hquote (by decide)
      · exact ih _ _ h.2
    · split_ifs with _ _ hquote
      · exact follow_tail_of_solid h.2 hquote (by decide)
      all_goals exact ih _ _ h.2

theorem follow_rawString (h : Follow leads gs) : Follow false (rawString gs).rest := by
  obtain ⟨leads', hbody⟩ :=
    h.of_suffix ((List.tail_suffix _).trans (skip_suffix (· ≠ '(') gs))
  exact follow_rawBody _ _ _ hbody

theorem follow_stringBody (h : Follow false gs) : Follow false (stringBody gs).2 := by
  fun_induction stringBody gs with
  | case1 => trivial
  | case2 => exact h
  | case3 => trivial
  | case4 => trivial
  | case5 => exact h
  | case6 g e gs hg hslash hnewline => exact follow_tail_of_ne h (by simp_all [char?])
  | case7 g e gs hg hslash hnewline body rest hbody ih =>
    rw [hbody] at ih
    have he : Follow false (e :: gs) := follow_tail_of_ne h (by simp_all [char?])
    exact ih (follow_tail_of_ne he (by simp_all [char?]))
  | case8 g e gs hg hslash body rest hbody ih =>
    rw [hbody] at ih
    exact ih (follow_tail_of_ne h (by simp_all [char?]))

theorem follow_string (h : Follow false gs) : Follow false (string gs).rest := by
  simp only [string]
  split_ifs with hquote
  · exact follow_tail_of_solid (follow_stringBody h) hquote (by decide)
  · exact follow_stringBody h

theorem follow_skipCharacter (h : Follow false gs) : Follow false (skipCharacter gs).2 := by
  fun_induction skipCharacter gs with
  | case1 => trivial
  | case2 => exact h
  | case3 g gs hg hquote =>
    have htail : Follow false gs := follow_tail_of_ne h (by simpa [char?] using hg)
    exact follow_tail_of_solid htail hquote (by decide)
  | case4 g gs hg hquote ih => exact ih (follow_tail_of_ne h (by simpa [char?] using hg))

theorem follow_character (h : Follow false gs) : Follow false (character gs).rest := by
  simp only [character]
  split_ifs with hslash
  · exact follow_skipCharacter (follow_tail_of_solid h hslash (by decide))
  · exact follow_skipCharacter h

theorem follow_comment (h : Follow false gs) : Follow false (comment gs).rest := by
  unfold comment
  split
  · next hslash =>
    have htail : Follow false gs.tail := follow_tail_of_solid h hslash (by decide)
    exact follow_skip htail (p := (· ≠ '\n')) (by decide)
  · next hstar => exact follow_blockBody (follow_tail_of_solid h hstar (by decide))
  · exact h

theorem follow_afterZero (h : Follow false gs) : Follow false (afterZero gs).rest := by
  unfold afterZero
  split
  · exact h
  · next c hc =>
    split_ifs with hx hdigit
    · have hne : char? gs ≠ some '\n' := by
        rintro hnewline
        obtain rfl : c = '\n' := Option.some.inj (hc.symm.trans hnewline)
        simp at hx
      exact follow_skip (follow_tail_of_ne h hne) (p := fun c ↦ isHexDigit c || c = '\'') (by decide)
    · exact follow_skip h (p := fun c ↦ c.isDigit || c = '\'') (by decide)
    · exact h

/-- What a word is read as. -/
theorem word_cases (gs : List Glyph) :
    word gs = ⟨.passed, none, skip isWordChar gs⟩ ∨
      (∃ text t, Token.keyword? text = some t ∧ word gs = ⟨.token t, none, skip isWordChar gs⟩) ∨
      (word gs).kind = .token (.ident "operator") ∨
      (char? (skip isWordChar gs) = some '"' ∧ word gs = rawString (skip isWordChar gs).tail) ∨
      ∃ text, word gs = ⟨.token (.ident text), none, skip isWordChar gs⟩ := by
  by_cases hmark : (char? (skip isWordChar gs) = some '"' &&
      String.ofList (take isWordChar gs) ∈ Token.literalMarks) = true
  · exact .inl (if_pos hmark)
  refine .inr ?_
  cases hkey : Token.keyword? (String.ofList (take isWordChar gs)) with
  | some t =>
    refine .inl ⟨_, t, hkey, ?_⟩
    rw [word, if_neg hmark, hkey]
  | none =>
    refine .inr ?_
    by_cases hoperator : String.ofList (take isWordChar gs) = "operator"
    · refine .inl ?_
      rw [word, if_neg hmark, hkey, hoperator]
      rfl
    refine .inr ?_
    by_cases hraw : (char? (skip isWordChar gs) = some '"' &&
        String.ofList (take isWordChar gs) ∈ Token.rawMarks) = true
    · refine .inl ⟨of_decide_eq_true (Bool.and_eq_true_iff.1 hraw).1, ?_⟩
      rw [word, if_neg hmark, hkey]
      simp only [if_neg hoperator, if_pos hraw]
    · refine .inr ⟨String.ofList (take isWordChar gs), ?_⟩
      rw [word, if_neg hmark, hkey]
      simp only [if_neg hoperator, if_neg hraw]

/-- A word stays within its line, but for the blanks after `operator`. -/
theorem follow_word (h : Follow false gs) (hkind : (word gs).kind ≠ .token (.ident "operator")) :
    Follow false (word gs).rest := by
  have hrest : Follow false (skip isWordChar gs) := follow_skip h (by decide)
  rcases word_cases gs with hword | ⟨text, t, -, hword⟩ | hword | ⟨hquote, hword⟩ | ⟨text, hword⟩
  · rwa [hword]
  · rwa [hword]
  · exact absurd hword hkind
  · rw [hword]
    exact follow_rawString (follow_tail_of_solid hrest hquote (by decide))
  · rwa [hword]

theorem follow_punctuation (c : Char) (h : Follow false gs) :
    Follow false (punctuation c gs).rest := by
  unfold punctuation
  split
  case h_2 => exact follow_comment h
  case h_3 => exact follow_string h
  case h_4 =>
    split_ifs with hangle
    · exact follow_tail_of_solid h hangle (by decide)
    · exact h
  case h_5 =>
    split_ifs with hcolon
    · exact follow_tail_of_solid h hcolon (by decide)
    · exact h
  case h_9 => exact follow_character h
  case h_19 => exact follow_afterZero h
  case h_20 =>
    split_ifs with hdigit
    · exact follow_skip h (p := fun c ↦ c.isDigit || c = '\'') (by decide)
    · exact h
  all_goals exact h

theorem follow_macroHead (h : Follow false gs) : Follow false (macroHead gs).2 := by
  unfold macroHead
  extract_lets name named ended body
  have hname : Follow false name :=
    follow_skip (follow_skip h (p := fun c ↦ !isSpace c) (by decide)) (by decide)
  have hnamed : Follow false named :=
    follow_skip hname (p := fun c ↦ c ≠ '(' && !isSpace c) (by decide)
  have hended : Follow false ended := by
    unfold ended
    split_ifs with hparen
    · exact follow_skip (follow_tail_of_solid hnamed hparen (by decide))
        (p := fun c ↦ c ≠ ')' && c ≠ '\n') (by decide)
    · exact hnamed
  change Follow false body
  unfold body
  split_ifs with hnewline
  · exact hended
  · exact follow_skip (follow_tail_of_ne hended hnewline) (by decide)

/-- A definition with a body begins with a `d`. -/
theorem directive_eq_macroBody (hkind : (directive gs).kind = .directive .macroBody) :
    char? (skip isGap gs) = some 'd' ∧
      (directive gs).rest = (macroHead (skip isGap gs).tail).2 := by
  simp only [directive] at hkind ⊢
  grind [lineOf]

/-- The body of a macro begins within the line of its definition. -/
theorem follow_directive (h : Follow leads gs)
    (hkind : (directive gs).kind = .directive .macroBody) : Follow false (directive gs).rest := by
  obtain ⟨leads', hword⟩ := h.of_suffix (skip_suffix isGap gs)
  obtain ⟨hd, hrest⟩ := directive_eq_macroBody hkind
  rw [hrest]
  exact follow_macroHead (follow_tail_of_solid hword hd (by decide))

theorem kind_word_ne_directive (gs : List Glyph) (d : Directive) :
    (word gs).kind ≠ .directive d := by
  rcases word_cases gs with hword | ⟨_, _, -, hword⟩ | hword | ⟨-, hword⟩ | ⟨_, hword⟩ <;>
    simp [hword, rawString]

theorem kind_punctuation_ne_directive (c : Char) (gs : List Glyph) (d : Directive) :
    (punctuation c gs).kind ≠ .directive d := by
  simp only [punctuation]
  grind [comment, string, character, afterZero]

/-- Within a line no directive begins, and a lexeme leads to another one within the line, unless it
is the newline or `operator`, which takes the blanks after it, newlines among them. -/
theorem follow_next {g : Glyph} (h : Follow false (g :: gs)) :
    (∀ d, (next g gs).kind ≠ .directive d) ∧
      ((next g gs).kind ≠ .newline → (next g gs).kind ≠ .token (.ident "operator") →
        Follow false (next g gs).rest) := by
  have hplain : (g.char = '#' && g.leads) = false := by
    rw [h.1]
    by_cases hchar : g.char = '#'
    · simp [leadsAfter, hchar]
    · simp [hchar]
  rw [next, if_neg (Bool.eq_false_iff.1 hplain)]
  split_ifs with hstart
  · exact ⟨kind_word_ne_directive _, fun _ hoperator ↦ follow_word h hoperator⟩
  · refine ⟨kind_punctuation_ne_directive _ _, fun hnewline _ ↦ ?_⟩
    have hne : char? (g :: gs) ≠ some '\n' := by
      intro hchar
      have hg : g.char = '\n' := Option.some.inj hchar
      exact hnewline (by rw [hg]; rfl)
    exact follow_punctuation _ (follow_tail_of_ne h hne)

theorem follow_next_macroBody {g : Glyph} (h : Follow leads (g :: gs))
    (hkind : (next g gs).kind = .directive .macroBody) : Follow false (next g gs).rest := by
  rw [next] at hkind ⊢
  split_ifs at hkind ⊢
  · exact follow_directive h.2 hkind
  · exact absurd hkind (kind_word_ne_directive _ _)
  · exact absurd hkind (kind_punctuation_ne_directive _ _ _)

/-- The tokens that words of their own stand for. -/
theorem mem_of_keyword? {word : String} {t : Token} (h : Token.keyword? word = some t) :
    t ∈ [Token.null, .marker, .classWord, .decltypeWord, .enumWord, .friendWord, .namespaceWord,
      .returnWord, .usingWord, .access] := by
  let stands : Option Token → Prop := fun o ↦ ∀ t, o = some t →
    t ∈ [Token.null, .marker, .classWord, .decltypeWord, .enumWord, .friendWord, .namespaceWord,
      .returnWord, .usingWord, .access]
  have hite {c : Prop} [Decidable c] {a b : Option Token} (ha : stands a) (hb : stands b) :
      stands (if c then a else b) := by
    split
    · exact ha
    · exact hb
  suffices hword : stands (Token.keyword? word) from hword t h
  unfold Token.keyword?
  repeat' apply hite
  all_goals rintro t ⟨⟩ <;> decide

theorem kind_next_ne_of_silent {t : Token} (ht : t.isSilent = true) (g : Glyph)
    (gs : List Glyph) : (next g gs).kind ≠ .token t := by
  rw [next]
  split_ifs
  · simp only [directive]
    grind [lineOf, includeToken, Token.isSilent]
  · rcases word_cases (g :: gs) with hword | ⟨_, t, hkey, hword⟩ | hword | ⟨-, hword⟩ | ⟨_, hword⟩
    case inr.inl =>
      rw [hword]
      rintro ⟨⟩
      have hspelt : ∀ t ∈ [Token.null, .marker, .classWord, .decltypeWord, .enumWord, .friendWord,
        .namespaceWord, .returnWord, .usingWord, .access], t.isSilent = false := by decide
      exact absurd ht (by simp [hspelt t (mem_of_keyword? hkey)])
    all_goals
      rw [hword]
      rintro ⟨⟩
    all_goals cases ht
  · simp only [punctuation]
    grind [comment, string, character, afterZero, Token.isSilent]

theorem kind_ne_of_mem_scan {t : Token} (ht : t.isSilent = true) {x : Lexeme}
    (hx : x ∈ scan gs) : x.kind ≠ .token t := by
  induction gs using scan.induct with
  | case1 =>
    rw [scan] at hx
    exact absurd hx (by simp)
  | case2 g gs read =>
    rename_i ih
    rw [scan] at hx
    cases hx with
    | head => exact kind_next_ne_of_silent ht g gs
    | tail _ hx => exact ih hx

end Lexeme

end Harvest
