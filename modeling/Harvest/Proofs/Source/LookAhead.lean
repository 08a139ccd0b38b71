import Harvest.Proofs.Source.Pulling

/-!
# The look ahead of a colon

A colon knows which of `;` and an opening brace comes first after it, which tells a bit field from a
list of initializers. The look ahead begins late: it passes over one logical character, with the
continued line ends before it, and over one more physical character. Main statement: what the colon
knows is what comes first in the text after those characters, and so it is what comes first after
the colon exactly if none of the two is among them, or the same one of the two.
-/

namespace Harvest

/-- Which of `;` and an opening brace comes first in a text. -/
inductive Foremost : List Char → Ahead → Prop
  | semicolon {cs : List Char} (rest : List Char) (hcs : ∀ c ∈ cs, c ≠ ';' ∧ c ≠ '\x7b') :
      Foremost (cs ++ ';' :: rest) .semicolon
  | leftBrace {cs : List Char} (rest : List Char) (hcs : ∀ c ∈ cs, c ≠ ';' ∧ c ≠ '\x7b') :
      Foremost (cs ++ '\x7b' :: rest) .leftBrace
  | nothing {cs : List Char} (hcs : ∀ c ∈ cs, c ≠ ';' ∧ c ≠ '\x7b') : Foremost cs .nothing

namespace Foremost

variable {cs : List Char} {c : Char} {a b : Ahead}

theorem cons (hc : c ≠ ';' ∧ c ≠ '\x7b') (h : Foremost cs a) : Foremost (c :: cs) a := by
  cases h with
  | semicolon rest hcs => exact .semicolon rest (List.forall_mem_cons.2 ⟨hc, hcs⟩)
  | leftBrace rest hcs => exact .leftBrace rest (List.forall_mem_cons.2 ⟨hc, hcs⟩)
  | nothing hcs => exact .nothing (List.forall_mem_cons.2 ⟨hc, hcs⟩)

theorem firstOf (cs : List Char) : Foremost cs (Lexeme.firstOf cs) := by
  fun_induction Lexeme.firstOf cs with
  | case1 => exact .nothing nofun
  | case2 rest => exact @semicolon [] rest nofun
  | case3 rest => exact @leftBrace [] rest nofun
  | case4 c rest hsemicolon hbrace ih => exact ih.cons ⟨hsemicolon, hbrace⟩

theorem firstOf_eq (h : Foremost cs a) : Lexeme.firstOf cs = a := by
  have hskip : ∀ {cs : List Char} (rest : List Char), (∀ c ∈ cs, c ≠ ';' ∧ c ≠ '\x7b') →
      Lexeme.firstOf (cs ++ rest) = Lexeme.firstOf rest := by
    intro cs rest hcs
    induction cs with
    | nil => rfl
    | cons c cs ih =>
      obtain ⟨hc, hcs⟩ := List.forall_mem_cons.1 hcs
      rw [List.cons_append, Lexeme.firstOf, if_neg hc.1, if_neg hc.2, ih hcs]
  cases h with
  | semicolon rest hcs => rw [hskip _ hcs]; rfl
  | leftBrace rest hcs => rw [hskip _ hcs]; rfl
  | nothing hcs => rw [← List.append_nil cs, hskip _ hcs]; rfl

end Foremost

theorem foremost_iff {cs : List Char} {a : Ahead} : Foremost cs a ↔ Lexeme.firstOf cs = a :=
  ⟨Foremost.firstOf_eq, fun h ↦ h ▸ .firstOf cs⟩

/-- What comes first in two texts in a row. -/
theorem foremost_append {cs ds : List Char} {a : Ahead} (hds : Foremost ds a) :
    Foremost (cs ++ ds) a ↔ Foremost cs .nothing ∨ Foremost cs a := by
  simp only [foremost_iff] at *
  induction cs with
  | nil => simp [Lexeme.firstOf, hds]
  | cons c cs ih =>
    rw [List.cons_append, Lexeme.firstOf, Lexeme.firstOf]
    split_ifs
    · simp
    · simp
    · exact ih

namespace Glyph

/-- A reading that begins with a character, or that begins later. -/
theorem suffix_cons_cases {g g' : Glyph} {gs gs' : List Glyph} (h : g :: gs <:+ g' :: gs') :
    (g = g' ∧ gs = gs') ∨ g :: gs <:+ gs' := by
  rcases List.suffix_cons_iff.1 h with h | h
  · exact .inl (List.cons.inj h)
  · exact .inr h

/-- What is left after a character that ends no line is the reading of the text that follows it. -/
theorem eq_read_of_suffix {line : Nat} {leads : Bool} {cs : List Char} {g : Glyph} {gs : List Glyph}
    (h : g :: gs <:+ read line leads cs) (hg : g.char ≠ '\n') :
    g.char :: g.rest <:+ cs ∧ gs = read g.line g.leads g.rest := by
  fun_induction read line leads cs with
  | case1 => simp at h
  | case2 line leads rest ih => exact ⟨(ih h).1.trans ⟨['\\', '\n'], rfl⟩, (ih h).2⟩
  | case3 line leads rest ih => exact ⟨(ih h).1.trans ⟨['\\', '\r', '\n'], rfl⟩, (ih h).2⟩
  | case4 line leads rest _ ih => exact ⟨(ih h).1.trans ⟨['\\', '\r'], rfl⟩, (ih h).2⟩
  | case5 line leads rest ih =>
    rcases suffix_cons_cases h with ⟨rfl, -⟩ | h
    · exact absurd rfl hg
    · exact ⟨(ih h).1.trans ⟨['\r', '\n'], rfl⟩, (ih h).2⟩
  | case6 line leads rest _ ih =>
    rcases suffix_cons_cases h with ⟨rfl, -⟩ | h
    · exact absurd rfl hg
    · exact ⟨(ih h).1.trans ⟨['\r'], rfl⟩, (ih h).2⟩
  | case7 line leads rest ih =>
    rcases suffix_cons_cases h with ⟨rfl, -⟩ | h
    · exact absurd rfl hg
    · exact ⟨(ih h).1.trans ⟨['\n'], rfl⟩, (ih h).2⟩
  | case8 line leads c rest _ _ _ _ _ _ ih =>
    rcases suffix_cons_cases h with ⟨rfl, rfl⟩ | h
    · exact ⟨List.suffix_rfl, rfl⟩
    · exact ⟨(ih h).1.trans ⟨[c], rfl⟩, (ih h).2⟩

/-- How many characters of the text after a colon its look ahead passes over. -/
def passedOver : List Char → Nat
  | [] => 0
  | '\\' :: '\n' :: rest => passedOver rest + 2
  | '\\' :: '\r' :: '\n' :: rest => passedOver rest + 3
  | '\\' :: '\r' :: rest => passedOver rest + 2
  | '\r' :: '\n' :: _ => 3
  | _ :: _ => 2

end Glyph

namespace Lexeme

open Glyph

/-- The look ahead in terms of the physical text. -/
theorem ahead_read (line : Nat) (leads : Bool) (cs : List Char) :
    ahead (read line leads cs) = firstOf (cs.drop (passedOver cs)) := by
  fun_induction read line leads cs with
  | case1 => rfl
  | case2 line leads rest ih => rw [ih, passedOver, List.drop_succ_cons, List.drop_succ_cons]
  | case3 line leads rest ih =>
    rw [ih, passedOver, List.drop_succ_cons, List.drop_succ_cons, List.drop_succ_cons]
  | case4 line leads rest hrest ih =>
    rw [ih, passedOver, List.drop_succ_cons, List.drop_succ_cons]
    exact hrest
  | case5 line leads rest ih => rfl
  | case6 line leads rest hrest ih =>
    rw [passedOver]
    · rfl
    all_goals simp_all
  | case7 line leads rest ih => rfl
  | case8 line leads c rest _ _ _ _ _ _ ih =>
    rw [passedOver]
    · rfl
    all_goals assumption

theorem kind_word_ne_colon (gs : List Glyph) (a : Ahead) :
    (word gs).kind ≠ .token (.colon a) := by
  rcases word_cases gs with hword | ⟨text, t, hkey, hword⟩ | hword | ⟨-, hword⟩ | ⟨text, hword⟩
  · simp [hword]
  · rw [hword]
    rintro ⟨⟩
    simpa using mem_of_keyword? hkey
  · simp [hword]
  · simp [hword, rawString]
  · simp [hword]

/-- A colon is read from a colon, with its look ahead from what follows. -/
theorem next_of_colon {g : Glyph} {gs : List Glyph} {a : Ahead}
    (h : (next g gs).kind = .token (.colon a)) :
    g.char = ':' ∧ (next g gs).rest = gs ∧ a = ahead gs := by
  rw [next] at h ⊢
  split_ifs at h ⊢
  · simp only [directive] at h
    grind [lineOf, includeToken]
  · exact absurd h (kind_word_ne_colon _ a)
  · simp only [punctuation] at h ⊢
    grind [comment, string, character, afterZero]

end Lexeme

theorem Nesting.kind_of_colon {n : Nesting} {x : Lexeme} {a : Ahead}
    (h : (n.step x).token = some (.colon a)) : x.kind = .token (.colon a) := by
  obtain ⟨kind, line, fault⟩ := x
  cases kind with
  | passed => cases h
  | newline => simp only [step, endLine] at h; split at h <;> simp at h
  | token t => exact congrArg _ (Option.some.inj h)
  | opening d => cases h
  | closing d =>
    cases d
    all_goals
      simp only [step, closeDelimiter] at h
      split_ifs at h <;> simp at h
  | comment body => cases h
  | directive d => cases h

namespace Reader

/-- A call that gives a colon has read up to it. -/
theorem pull_of_colon {n : Nesting} {notes : List Note} {line : Nat} {gs : List Glyph} {a : Ahead}
    (h : (pull n notes line gs).1.token = .colon a) :
    ∃ g, g.char = ':' ∧ g :: (pull n notes line gs).2.left <:+ gs ∧
      a = Lexeme.ahead (pull n notes line gs).2.left := by
  fun_induction pull n notes line gs with
  | case1 => cases h
  | case2 n notes line g gs read effect hnone ih =>
    obtain ⟨g', hg', hsuffix, ha⟩ := ih h
    exact ⟨g', hg', hsuffix.trans (Lexeme.next_suffix g gs), ha⟩
  | case3 n notes line g gs read effect t ht =>
    obtain rfl : t = .colon a := h
    obtain ⟨hg, hrest, ha⟩ := Lexeme.next_of_colon (Nesting.kind_of_colon ht)
    exact ⟨g, hg, hrest ▸ List.suffix_rfl, hrest ▸ ha⟩

theorem after_suffix (r : Reader) (k : Nat) : (r.after k).left <:+ r.left := by
  induction k with
  | zero => exact List.suffix_rfl
  | succ k ih =>
    rw [after_succ']
    exact (pull_suffix _ _ _ _).trans ih

/-- In every text, a colon knows what comes first after the characters that its look ahead passes
over. That is also what comes first right after the colon, exactly if the characters passed over
hold none of the two, or the same one first. -/
theorem colon_looks_ahead (text : String) (k : Nat) (a : Ahead)
    (h : ((Reader.ofText text).item k).token = .colon a) :
    ∃ before after line leads, text.toList = before ++ ':' :: after ∧
      ((Reader.ofText text).after (k + 1)).left = Glyph.read line leads after ∧
      Foremost (after.drop (Glyph.passedOver after)) a ∧
      (Foremost after a ↔ Foremost (after.take (Glyph.passedOver after)) .nothing ∨
        Foremost (after.take (Glyph.passedOver after)) a) := by
  obtain ⟨g, hg, hsuffix, ha⟩ := pull_of_colon h
  have hread : g :: ((Reader.ofText text).after (k + 1)).left <:+ Glyph.read 1 true text.toList := by
    rw [after_succ']
    exact hsuffix.trans ((Reader.ofText text).after_suffix k)
  obtain ⟨⟨before, hbefore⟩, hleft⟩ := Glyph.eq_read_of_suffix hread (by rw [hg]; decide)
  rw [hg] at hbefore
  have hseen : Foremost (g.rest.drop (Glyph.passedOver g.rest)) a := by
    rw [foremost_iff, ← Lexeme.ahead_read g.line g.leads, ← hleft, ha, after_succ']
    rfl
  refine ⟨before, g.rest, g.line, g.leads, hbefore.symm, hleft, hseen, ?_⟩
  conv => lhs; rw [← List.take_append_drop (Glyph.passedOver g.rest) g.rest]
  exact foremost_append hseen

/-- A continued line end is passed over together with the blank after it, and then the `3`. -/
theorem colon_looks_ahead_continued :
    ((Reader.ofText "x :\\\n 3;\x7b").item 1).token = .colon .semicolon ∧
      ∃ before after line leads, "x :\\\n 3;\x7b".toList = before ++ ':' :: after ∧
        ((Reader.ofText "x :\\\n 3;\x7b").after 2).left = Glyph.read line leads after ∧
        Foremost (after.drop (Glyph.passedOver after)) .semicolon ∧
        (Foremost after .semicolon ↔ Foremost (after.take (Glyph.passedOver after)) .nothing ∨
          Foremost (after.take (Glyph.passedOver after)) .semicolon) :=
  have hcolon : ((Reader.ofText "x :\\\n 3;\x7b").item 1).token = .colon .semicolon := by
    decide +kernel
  ⟨hcolon, colon_looks_ahead _ 1 .semicolon hcolon⟩

/-- The semicolon after a bit field of one digit is missed. -/
theorem semicolon_passed_over :
    ((Reader.ofText "a:3;\x7b\x7d").item 1).token = .colon .leftBrace ∧
      ((Reader.ofText "a:3;\x7b\x7d").after 2).left.map Glyph.char = "3;\x7b\x7d".toList ∧
      Foremost "3;\x7b\x7d".toList .semicolon :=
  ⟨by decide +kernel, by decide +kernel, foremost_iff.2 rfl⟩

end Reader

end Harvest
