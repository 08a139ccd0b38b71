import Harvest.Source.Stream

/-!
# Texts that spell tokens

A token of the outline of a source text (a word, a plain literal, a delimiter, `::`, `;`, `=` or a
zero) has one spelling. A text spells a list of tokens if it is made of their spellings in order, with blanks
between them wherever two of them would grow together and optional blanks everywhere else.

Main statement: reading a text that spells balanced tokens gives exactly these tokens, with the
delimiter depths that they lead to, and nothing to note on the way.
-/

namespace Harvest

namespace Token

/-- A word that is read as an identifier and leaves what follows it alone. -/
def isIdentifier (word : String) : Bool :=
  match word.toList with
  | [] => false
  | c :: cs =>
    Lexeme.isWordStart c && cs.all Lexeme.isWordChar && keyword? word = none && word ≠ "operator"

/-- A character that stands for itself in a literal. -/
def isLiteralChar (c : Char) : Bool := c ≠ '"' && c ≠ '\\' && c ≠ '\n' && c ≠ '\r'

/-- The tokens with a spelling of their own, as long as their contents are plain. -/
def isPlain : Token → Bool
  | ident word => isIdentifier word
  | string body => body.toList.all isLiteralChar
  | namespaceWord | usingWord | classWord | marker | null => true
  | colonColon | semicolon | equals | opening _ | closing _ => true
  | _ => false

/-- A token that is spelt as a word or a number. -/
def isWord : Token → Bool
  | ident _ | namespaceWord | usingWord | classWord | marker | null => true
  | _ => false

/-- The word or the number that a token is spelt as. -/
def word : Token → String
  | ident word => word
  | namespaceWord => "namespace"
  | usingWord => "using"
  | classWord => "class"
  | marker => "Q_OBJECT"
  | null => "0"
  | _ => ""

def openingChar : Delimiter → Char
  | .brace => '\x7b'
  | .paren => '('
  | .bracket => '['

def closingChar : Delimiter → Char
  | .brace => '\x7d'
  | .paren => ')'
  | .bracket => ']'

/-- The characters of a plain token. -/
def spelling : Token → List Char
  | string body => '"' :: (body.toList ++ ['"'])
  | colonColon => [':', ':']
  | semicolon => [';']
  | equals => ['=']
  | opening d => [openingChar d]
  | closing d => [closingChar d]
  | t => t.word.toList

/-- A token that grows together with a word right before it. -/
def clings : Token → Bool
  | string _ => true
  | t => t.isWord

/-- The lexeme that a token comes from. -/
def kind : Token → LexemeKind
  | opening d => .opening d
  | closing d => .closing d
  | t => .token t

end Token

/-- Blanks between two tokens. -/
def isSpacing (cs : List Char) : Bool := cs.all fun c ↦ Lexeme.isSpace c && c ≠ '\r'

/-- The characters spell the tokens; `afterWord` says that a word stands right before them. -/
inductive Spells : Bool → List Token → List Char → Prop
  | blank {afterWord : Bool} {gap : List Char} (hgap : isSpacing gap) : Spells afterWord [] gap
  | token {afterWord : Bool} {gap rest : List Char} {t : Token} {ts : List Token}
      (hgap : isSpacing gap) (happart : afterWord → t.clings → gap ≠ [])
      (hrest : Spells t.isWord ts rest) :
      Spells afterWord (t :: ts) (gap ++ (t.spelling ++ rest))

/-- The plainest text that spells tokens: a blank before each of them. -/
def spaced (ts : List Token) : List Char := ts.flatMap fun t ↦ ' ' :: t.spelling

theorem spells_spaced (afterWord : Bool) (ts : List Token) : Spells afterWord ts (spaced ts) := by
  induction ts generalizing afterWord with
  | nil => exact .blank rfl
  | cons t ts ih =>
    have hgap : isSpacing [' '] = true := by decide
    have hstep : Spells afterWord (t :: ts) ([' '] ++ (t.spelling ++ spaced ts)) :=
      .token hgap (fun _ _ ↦ List.cons_ne_nil _ _) (ih t.isWord)
    simpa [spaced] using hstep

namespace Glyph

/-- A text without backslashes and carriage returns is read character by character. -/
theorem map_char_read (line : Nat) (leads : Bool) {cs : List Char} (hslash : '\\' ∉ cs)
    (hreturn : '\r' ∉ cs) : (read line leads cs).map Glyph.char = cs := by
  induction cs generalizing line leads with
  | nil => rfl
  | cons c cs ih =>
    have hc : c ≠ '\\' ∧ '\\' ∉ cs := by simpa [eq_comm] using hslash
    have hr : c ≠ '\r' ∧ '\r' ∉ cs := by simpa [eq_comm] using hreturn
    by_cases hn : c = '\n'
    · subst hn
      simp only [read, List.map_cons, ih _ _ hc.2 hr.2]
    · rw [read]
      · simp only [List.map_cons, ih _ _ hc.2 hr.2]
      all_goals simp_all

end Glyph

namespace Lexeme

/-- A run of characters of one class is taken whole, and what follows it is left. -/
theorem take_skip_of_append {p : Char → Bool} {gs : List Glyph} {cs rest : List Char}
    (hgs : gs.map Glyph.char = cs ++ rest) (hall : ∀ c ∈ cs, p c = true)
    (hstop : ∀ c ∈ rest.head?, p c = false) :
    take p gs = cs ∧ (skip p gs).map Glyph.char = rest := by
  induction cs generalizing gs with
  | nil =>
    cases gs with
    | nil => simp_all [take, skip]
    | cons g gs =>
      rw [List.nil_append] at hgs
      have hg : p g.char = false := hstop g.char (by rw [← hgs]; rfl)
      simp [take, skip, hg, ← hgs]
  | cons c cs ih =>
    obtain ⟨g, gs, rfl, rfl, htail⟩ := List.map_eq_cons_iff.1 hgs
    have hg : p g.char = true := hall g.char List.mem_cons_self
    obtain ⟨htake, hskip⟩ := ih htail fun c hc ↦ hall c (List.mem_cons_of_mem _ hc)
    simp only [take, skip] at htake hskip ⊢
    simp [hg, htake, hskip]

theorem char?_eq_head? (gs : List Glyph) : char? gs = (gs.map Glyph.char).head? := by
  cases gs <;> rfl

/-- What may follow a word: neither a word character nor a quote. -/
def endsWord (c : Char) : Prop := isWordChar c = false ∧ c ≠ '"'

theorem isWordChar_of_isWordStart {c : Char} (h : isWordStart c = true) : isWordChar c = true := by
  simp only [isWordStart, Bool.or_eq_true] at h
  simp only [isWordChar, Char.isAlphanum, Bool.or_eq_true]
  exact h.imp_left Or.inl

/-- A word begins like one, and it is made like one, as a number is. -/
theorem word_chars {t : Token} (hplain : t.isPlain = true) (hword : t.isWord = true) :
    ∃ c cs, t.word.toList = c :: cs ∧ (t ≠ .null → isWordStart c = true) ∧
      ∀ d ∈ c :: cs, isWordChar d = true := by
  cases t <;> simp only [Token.isWord, Bool.false_eq_true] at hword
  case ident w =>
    simp only [Token.isPlain, Token.isIdentifier] at hplain
    cases hw : w.toList with
    | nil => simp [hw] at hplain
    | cons c cs =>
      simp only [hw, Bool.and_eq_true, List.all_eq_true] at hplain
      obtain ⟨⟨⟨hstart, hall⟩, -⟩, -⟩ := hplain
      exact ⟨c, cs, hw, fun _ ↦ hstart,
        List.forall_mem_cons.2 ⟨isWordChar_of_isWordStart hstart, hall⟩⟩
  all_goals exact ⟨_, _, rfl, by decide, List.all_eq_true.1 (by decide)⟩

/-- What a word is read as. -/
theorem word_classified {t : Token} (hplain : t.isPlain = true) (hword : t.isWord = true)
    (hnull : t ≠ .null) :
    Token.keyword? t.word = some t ∨
      (Token.keyword? t.word = none ∧ t.word ≠ "operator" ∧ t = .ident t.word) := by
  cases t <;> simp only [Token.isWord, Bool.false_eq_true] at hword
  case ident w =>
    right
    simp only [Token.isPlain, Token.isIdentifier] at hplain
    cases hw : w.toList with
    | nil => simp [hw] at hplain
    | cons c cs =>
      simp only [hw, Bool.and_eq_true, decide_eq_true_eq] at hplain
      exact ⟨hplain.1.2, hplain.2, rfl⟩
  case null => exact absurd rfl hnull
  all_goals exact Or.inl (by decide)

theorem word_reads {t : Token} {gs : List Glyph} {rest : List Char} (hplain : t.isPlain = true)
    (hword : t.isWord = true) (hnull : t ≠ .null)
    (hgs : gs.map Glyph.char = t.word.toList ++ rest)
    (hstop : ∀ c ∈ rest.head?, endsWord c) :
    ∃ left, word gs = ⟨.token t, none, left⟩ ∧ left.map Glyph.char = rest := by
  obtain ⟨c, cs, htext, -, hall⟩ := word_chars hplain hword
  have hchars : ∀ c ∈ t.word.toList, isWordChar c = true := htext ▸ hall
  obtain ⟨htake, hskip⟩ := take_skip_of_append hgs hchars fun c hc ↦ (hstop c hc).1
  have hquote : char? (skip isWordChar gs) ≠ some '"' := by
    rw [char?_eq_head?, hskip]
    exact fun h ↦ (hstop '"' h).2 rfl
  refine ⟨skip isWordChar gs, ?_, hskip⟩
  simp only [word, htake, String.ofList_toList]
  rcases word_classified hplain hword hnull with hkey | ⟨hkey, hoperator, hident⟩
  · simp [hkey, hquote]
  · simp [hkey, hquote, hoperator, ← hident]

theorem stringBody_of_literal {gs : List Glyph} {body rest : List Char}
    (hgs : gs.map Glyph.char = body ++ '"' :: rest)
    (hbody : ∀ c ∈ body, Token.isLiteralChar c = true) :
    (stringBody gs).1 = body ∧ (stringBody gs).2.map Glyph.char = '"' :: rest := by
  induction body generalizing gs with
  | nil =>
    obtain ⟨g, gs, rfl, hg, htail⟩ := List.map_eq_cons_iff.1 hgs
    cases gs <;> simp_all [stringBody]
  | cons c body ih =>
    obtain ⟨g, gs, rfl, rfl, htail⟩ := List.map_eq_cons_iff.1 hgs
    have hc : Token.isLiteralChar g.char = true := hbody g.char List.mem_cons_self
    obtain ⟨hfst, hsnd⟩ := ih htail fun d hd ↦ hbody d (List.mem_cons_of_mem _ hd)
    cases gs with
    | nil => simp at htail
    | cons e gs =>
      simp only [Token.isLiteralChar, Bool.and_eq_true, decide_eq_true_eq] at hc
      simp [stringBody, hc, hfst, hsnd]

/-- A plain literal is read up to its closing quote. -/
theorem string_reads {gs : List Glyph} {body : String} {rest : List Char}
    (hgs : gs.map Glyph.char = body.toList ++ '"' :: rest)
    (hbody : body.toList.all Token.isLiteralChar = true) :
    ∃ left, string gs = ⟨.token (.string body), none, left⟩ ∧ left.map Glyph.char = rest := by
  obtain ⟨hfst, hsnd⟩ := stringBody_of_literal hgs (List.all_eq_true.1 hbody)
  have hquote : char? (stringBody gs).2 = some '"' := by
    rw [char?_eq_head?, hsnd]
    rfl
  refine ⟨(stringBody gs).2.tail, ?_, by rw [List.map_tail, hsnd]; rfl⟩
  simp [string, hquote, hfst]

/-- A zero with no digit after it is read as such. -/
theorem zero_reads {gs : List Glyph} {rest : List Char} (hgs : gs.map Glyph.char = rest)
    (hstop : ∀ c ∈ rest.head?, endsWord c) :
    ∃ left, punctuation '0' gs = ⟨.token .null, none, left⟩ ∧ left.map Glyph.char = rest := by
  refine ⟨gs, ?_, hgs⟩
  change afterZero gs = _
  unfold afterZero
  rw [char?_eq_head?, hgs]
  cases hhead : rest.head? with
  | none => rfl
  | some c =>
    have hc : isWordChar c = false := (hstop c hhead).1
    have hx : c ≠ 'x' ∧ c ≠ 'X' :=
      ⟨fun h ↦ absurd (h ▸ hc) (by decide), fun h ↦ absurd (h ▸ hc) (by decide)⟩
    have hdigit : c.isDigit = false := by
      simp only [isWordChar, Char.isAlphanum, Bool.or_eq_false_iff] at hc
      exact hc.1.2
    simp [hx, hdigit]

/-- A delimiter, `;`, `=` or `::` is read as such. -/
theorem punctuation_reads {t : Token} {gs : List Glyph} {c : Char} {rest : List Char}
    (hspell : t.spelling ++ rest = c :: gs.map Glyph.char) (hplain : t.isPlain = true)
    (hword : t.isWord = false) :
    ∃ left, punctuation c gs = ⟨t.kind, none, left⟩ ∧ left.map Glyph.char = rest := by
  cases t <;>
    simp only [Token.isPlain, Token.isWord, Bool.false_eq_true, Bool.true_eq_false] at hplain hword
  case string body =>
    obtain ⟨rfl, hgs⟩ := List.cons.inj hspell
    exact string_reads (by simpa using hgs.symm) hplain
  case colonColon =>
    obtain ⟨rfl, hgs⟩ := List.cons.inj hspell
    obtain ⟨g, gs, rfl, hg, rfl⟩ := List.map_eq_cons_iff.1 hgs.symm
    exact ⟨gs, by simp [punctuation, char?, hg, Token.kind], rfl⟩
  case semicolon =>
    obtain ⟨rfl, hgs⟩ := List.cons.inj hspell
    exact ⟨gs, rfl, hgs.symm⟩
  case equals =>
    obtain ⟨rfl, hgs⟩ := List.cons.inj hspell
    exact ⟨gs, rfl, hgs.symm⟩
  case opening d =>
    obtain ⟨rfl, hgs⟩ := List.cons.inj hspell
    exact ⟨gs, by cases d <;> rfl, hgs.symm⟩
  case closing d =>
    obtain ⟨rfl, hgs⟩ := List.cons.inj hspell
    exact ⟨gs, by cases d <;> rfl, hgs.symm⟩

theorem spelling_head {t : Token} (hplain : t.isPlain = true) (hword : t.isWord = false) :
    ∃ c cs, t.spelling = c :: cs ∧ isWordStart c = false ∧ isWordChar c = false ∧ c ≠ '#' ∧
      (c = '"' → t.clings = true) := by
  cases t <;>
    simp only [Token.isPlain, Token.isWord, Bool.false_eq_true, Bool.true_eq_false] at hplain hword
  case opening d => exact ⟨_, _, rfl, by cases d <;> decide⟩
  case closing d => exact ⟨_, _, rfl, by cases d <;> decide⟩
  case string body => exact ⟨_, _, rfl, by decide, by decide, by decide, fun _ ↦ rfl⟩
  all_goals exact ⟨_, _, rfl, by decide, by decide, by decide, by decide⟩

/-- A plain token is read from its spelling, and what follows it is left. -/
theorem next_spelling {t : Token} {g : Glyph} {gs : List Glyph} {rest : List Char}
    (hplain : t.isPlain = true) (hgs : (g :: gs).map Glyph.char = t.spelling ++ rest)
    (hstop : t.isWord = true → ∀ c ∈ rest.head?, endsWord c) :
    ∃ left, next g gs = ⟨t.kind, none, left⟩ ∧ left.map Glyph.char = rest := by
  cases hword : t.isWord with
  | true =>
    have hspell : t.spelling = t.word.toList ∧ t.kind = .token t := by
      cases t <;> simp_all [Token.isWord, Token.spelling, Token.kind]
    rw [hspell.1] at hgs
    by_cases hnull : t = .null
    · subst hnull
      obtain ⟨hzero, hrest⟩ : g.char = '0' ∧ gs.map Glyph.char = rest := List.cons.inj hgs
      obtain ⟨left, hread, hleft⟩ := zero_reads hrest (hstop hword)
      refine ⟨left, ?_, hleft⟩
      rw [hspell.2, ← hread]
      simp [next, hzero, isWordStart]
    · obtain ⟨c, cs, htext, hbegins, -⟩ := word_chars hplain hword
      have hstart : isWordStart c = true := hbegins hnull
      have hg : g.char = c := by
        simp only [htext, List.map_cons, List.cons_append] at hgs
        exact (List.cons.inj hgs).1
      have hhash : c ≠ '#' := by
        rintro rfl
        exact absurd hstart (by decide)
      obtain ⟨left, hread, hleft⟩ := word_reads hplain hword hnull hgs (hstop hword)
      refine ⟨left, ?_, hleft⟩
      rw [hspell.2, ← hread]
      simp [next, hhash, hg, hstart]
  | false =>
    obtain ⟨c, cs, htext, hstart, -, hhash, -⟩ := spelling_head hplain hword
    have hg : g.char = c := by
      simp only [htext, List.map_cons, List.cons_append] at hgs
      exact (List.cons.inj hgs).1
    obtain ⟨left, hread, hleft⟩ := punctuation_reads hgs.symm hplain hword
    refine ⟨left, ?_, hleft⟩
    rw [← hread]
    simp [next, hg, hhash, hstart]

/-- A blank is passed over or ends a line. -/
theorem next_blank {g : Glyph} (gs : List Glyph) (hblank : isSpace g.char = true)
    (hreturn : g.char ≠ '\r') :
    next g gs = ⟨.passed, none, gs⟩ ∨ next g gs = ⟨.newline, none, gs⟩ := by
  obtain ⟨c, line, leads, after⟩ := g
  simp only [isSpace, Bool.or_eq_true, decide_eq_true_eq] at hblank hreturn
  rcases hblank with ((((rfl | rfl) | rfl) | rfl) | rfl) | rfl
  case inr => exact absurd rfl hreturn
  all_goals simp [next, isWordStart, punctuation]

theorem endsWord_of_isSpacing {gap : List Char} {c : Char} (hgap : isSpacing gap = true)
    (hc : c ∈ gap) : endsWord c := by
  have hspace := List.all_eq_true.1 hgap c hc
  simp only [isSpace, Bool.and_eq_true, Bool.or_eq_true, decide_eq_true_eq] at hspace
  rcases hspace.1 with ((((rfl | rfl) | rfl) | rfl) | rfl) | rfl <;> exact ⟨by decide, by decide⟩

/-- A text that begins after a word goes on with a blank or with a token that ends the word. -/
theorem endsWord_of_spells {ts : List Token} {cs : List Char} (hspell : Spells true ts cs)
    (hplain : ∀ t ∈ ts, t.isPlain = true) : ∀ c ∈ cs.head?, endsWord c := by
  intro c hc
  cases hspell with
  | blank hgap => exact endsWord_of_isSpacing hgap (List.mem_of_mem_head? hc)
  | @token _ gap rest t ts hgap happart hrest =>
    cases gap with
    | cons d gap =>
      have hcd : d = c := by simpa using hc
      exact endsWord_of_isSpacing hgap (hcd ▸ List.mem_cons_self)
    | nil =>
      have hclings : t.clings = false :=
        Bool.eq_false_iff.2 fun h ↦ happart rfl h rfl
      have hword : t.isWord = false := by
        cases t <;> simp_all [Token.clings, Token.isWord]
      obtain ⟨d, ds, htext, -, hchar, -, hquote⟩ :=
        spelling_head (hplain t List.mem_cons_self) hword
      have hcd : d = c := by simpa [htext] using hc
      subst hcd
      exact ⟨hchar, fun h ↦ by simp [hquote h] at hclings⟩

end Lexeme

/-- The lexemes hold the tokens in order, and besides them only blanks. -/
inductive Lexed : List Token → List Lexeme → Prop
  | nil : Lexed [] []
  | blank {x : Lexeme} {ts : List Token} {xs : List Lexeme} (hfault : x.fault = none)
      (hkind : x.kind = .passed ∨ x.kind = .newline) (hrest : Lexed ts xs) : Lexed ts (x :: xs)
  | token {x : Lexeme} {t : Token} {ts : List Token} {xs : List Lexeme} (hfault : x.fault = none)
      (hkind : x.kind = t.kind) (hrest : Lexed ts xs) : Lexed (t :: ts) (x :: xs)

namespace Lexeme

theorem spelling_ne_nil {t : Token} (hplain : t.isPlain = true) : t.spelling ≠ [] := by
  cases hword : t.isWord with
  | true =>
    obtain ⟨c, cs, htext, -⟩ := word_chars hplain hword
    cases t <;> simp_all [Token.isWord, Token.spelling]
  | false =>
    obtain ⟨c, cs, htext, -⟩ := spelling_head hplain hword
    simp [htext]

theorem lexed_spacing {ts : List Token} {gs : List Glyph} {gap rest : List Char}
    (hgap : isSpacing gap = true) (hgs : gs.map Glyph.char = gap ++ rest)
    (hrest : ∀ gs, gs.map Glyph.char = rest → Lexed ts (scan gs)) : Lexed ts (scan gs) := by
  induction gap generalizing gs with
  | nil => exact hrest gs hgs
  | cons c gap ih =>
    obtain ⟨g, gs, rfl, rfl, htail⟩ := List.map_eq_cons_iff.1 hgs
    simp only [isSpacing, List.all_cons, Bool.and_eq_true, decide_eq_true_eq] at hgap
    have hafter : Lexed ts (scan gs) := ih hgap.2 htail
    rw [scan]
    rcases next_blank gs hgap.1.1 hgap.1.2 with hnext | hnext
    · rw [hnext]
      exact .blank rfl (.inl rfl) hafter
    · rw [hnext]
      exact .blank rfl (.inr rfl) hafter

/-- The lexemes of a text hold the tokens that the text spells. -/
theorem lexed_scan {afterWord : Bool} {ts : List Token} {cs : List Char}
    (hspell : Spells afterWord ts cs) (hplain : ∀ t ∈ ts, t.isPlain = true) {gs : List Glyph}
    (hgs : gs.map Glyph.char = cs) : Lexed ts (scan gs) := by
  induction hspell generalizing gs with
  | @blank _ gap hgap =>
    rw [← List.append_nil gap] at hgs
    refine lexed_spacing hgap hgs fun gs hnil ↦ ?_
    rw [List.map_eq_nil_iff.1 hnil, scan]
    exact .nil
  | @token _ gap rest t ts hgap happart hrest ih =>
    have ht : t.isPlain = true := hplain t List.mem_cons_self
    have hts : ∀ u ∈ ts, u.isPlain = true := fun u hu ↦ hplain u (List.mem_cons_of_mem t hu)
    refine lexed_spacing hgap hgs fun gs hgs ↦ ?_
    have hstop : t.isWord = true → ∀ c ∈ rest.head?, endsWord c := fun hword ↦
      endsWord_of_spells (hword ▸ hrest) hts
    cases gs with
    | nil => exact absurd (List.append_eq_nil_iff.1 hgs.symm).1 (spelling_ne_nil ht)
    | cons g gs =>
      obtain ⟨left, hnext, hleft⟩ := next_spelling ht hgs hstop
      rw [scan, hnext]
      exact .token rfl rfl (ih hts hleft)

end Lexeme

namespace Depths

/-- The depths after a token. -/
def after (depths : Depths) : Token → Depths
  | .opening d => depths.set d (depths.get d + 1)
  | .closing d => depths.set d (depths.get d - 1)
  | _ => depths

/-- No token closes what is not open. -/
def Safe : Depths → List Token → Prop
  | _, [] => True
  | depths, t :: ts => (∀ d, t = .closing d → depths.get d ≠ 0) ∧ Safe (depths.after t) ts

end Depths

/-- The items hold the tokens in order, each with the depths that it leads to, and have no notes. -/
def Carries : Depths → List Token → List Item → Prop
  | _, [], items => items = []
  | depths, t :: ts, items =>
    ∃ line rest, items = ⟨[], t, line, depths.after t⟩ :: rest ∧ Carries (depths.after t) ts rest

namespace Nesting

/-- One token that closes nothing but what is open changes the depths and takes no notes. -/
theorem step_token {n : Nesting} {x : Lexeme} {t : Token} (houtside : n.macroBody = none)
    (hwrapped : t = .opening .brace → n.wrapped = false) (hfault : x.fault = none)
    (hkind : x.kind = t.kind) (hsafe : ∀ d, t = .closing d → n.depths.get d ≠ 0) :
    (n.step x).notes = [] ∧ (n.step x).token = some t ∧
      (n.step x).nesting.depths = n.depths.after t ∧ (n.step x).nesting.macroBody = none ∧
      (n.step x).nesting.wrapped = n.wrapped := by
  cases t
  case opening d =>
    simp only [Token.kind] at hkind
    have hraised : n.raised d = n.depths.get d + 1 := by cases d <;> simp_all [raised, Depths.get]
    simp [step, hkind, openDelimiter, hraised, Depths.after, houtside]
  case closing d =>
    have hd := hsafe d rfl
    simp only [Token.kind] at hkind
    have hfloor : n.floor = 0 := by simp [floor, houtside]
    cases d <;> simp_all [step, closeDelimiter, underflows, Depths.after, Depths.get]
  all_goals
    simp only [Token.kind] at hkind
    simp [step, hkind, hfault, Depths.after, houtside]

theorem step_blank {n : Nesting} {x : Lexeme} (houtside : n.macroBody = none)
    (hfault : x.fault = none) (hkind : x.kind = .passed ∨ x.kind = .newline) :
    n.step x = ⟨n, [], none⟩ := by
  rcases hkind with hkind | hkind <;> simp [step, hkind, hfault, endLine, houtside]

/-- The tokens of lexemes without directives and comments, up to the end of the text. -/
theorem carries_items {ts : List Token} {xs : List Lexeme} (hlexed : Lexed ts xs) {n : Nesting}
    (line : Nat) (houtside : n.macroBody = none) (hwrapped : n.wrapped = false)
    (hsafe : n.depths.Safe ts) :
    Carries n.depths (ts ++ [.eof]) (n.items [] line xs) ∧
      (n.after xs).depths = ts.foldl Depths.after n.depths := by
  induction hlexed generalizing n line with
  | nil => exact ⟨⟨line, [], rfl, rfl⟩, rfl⟩
  | @blank x ts xs hfault hkind hrest ih =>
    have hstep := step_blank houtside hfault hkind
    obtain ⟨hitems, hafter⟩ := ih x.line houtside hwrapped hsafe
    constructor
    · simpa [items, hstep] using hitems
    · simpa [after, hstep] using hafter
  | @token x t ts xs hfault hkind hrest ih =>
    obtain ⟨hnotes, htoken, hdepths, houtside', hwrapped'⟩ :=
      step_token houtside (fun _ ↦ hwrapped) hfault hkind hsafe.1
    obtain ⟨hitems, hafter⟩ :=
      ih x.line houtside' (hwrapped'.trans hwrapped) (hdepths ▸ hsafe.2)
    rw [hdepths] at hitems hafter
    constructor
    · refine ⟨x.line, _, ?_, hitems⟩
      simp [items, htoken, hnotes, hdepths]
    · simpa [after] using hafter

end Nesting

theorem spelling_printable {t : Token} (hplain : t.isPlain = true) :
    '\\' ∉ t.spelling ∧ '\r' ∉ t.spelling := by
  cases hword : t.isWord with
  | true =>
    obtain ⟨c, cs, htext, -, hall⟩ := Lexeme.word_chars hplain hword
    have hspell : t.spelling = c :: cs := by
      rw [← htext]
      cases t <;> simp_all [Token.isWord, Token.spelling]
    have hchars : ∀ d ∈ t.spelling, Lexeme.isWordChar d = true := hspell ▸ hall
    exact ⟨fun h ↦ absurd (hchars _ h) (by decide), fun h ↦ absurd (hchars _ h) (by decide)⟩
  | false =>
    cases t <;> simp only [Token.isPlain, Token.isWord, Bool.false_eq_true, Bool.true_eq_false]
      at hplain hword
    case string body =>
      have hbody := List.all_eq_true.1 hplain
      constructor
      · intro h
        have hmem : '\\' ∈ body.toList := by simpa [Token.spelling] using h
        exact absurd (hbody _ hmem) (by decide)
      · intro h
        have hmem : '\r' ∈ body.toList := by simpa [Token.spelling] using h
        exact absurd (hbody _ hmem) (by decide)
    case opening d => cases d <;> decide
    case closing d => cases d <;> decide
    all_goals decide

theorem spells_printable {afterWord : Bool} {ts : List Token} {cs : List Char}
    (hspell : Spells afterWord ts cs) (hplain : ∀ t ∈ ts, t.isPlain = true) :
    '\\' ∉ cs ∧ '\r' ∉ cs := by
  have hspacing : ∀ {gap : List Char}, isSpacing gap = true → '\\' ∉ gap ∧ '\r' ∉ gap :=
    fun hgap ↦ ⟨fun h ↦ absurd (List.all_eq_true.1 hgap _ h) (by decide),
      fun h ↦ absurd (List.all_eq_true.1 hgap _ h) (by decide)⟩
  induction hspell with
  | blank hgap => exact hspacing hgap
  | @token _ gap rest t ts hgap happart hrest ih =>
    have hts := ih fun u hu ↦ hplain u (List.mem_cons_of_mem t hu)
    have ht := spelling_printable (hplain t List.mem_cons_self)
    simp only [List.mem_append, not_or]
    exact ⟨⟨(hspacing hgap).1, ht.1, hts.1⟩, (hspacing hgap).2, ht.2, hts.2⟩

/-- Reading a text gives the tokens that it spells, if they are balanced. -/
theorem Stream.carries_ofText {ts : List Token} {text : String}
    (hspell : Spells false ts text.toList) (hplain : ∀ t ∈ ts, t.isPlain = true)
    (hsafe : ({} : Depths).Safe ts) (hclosed : ts.foldl Depths.after {} = {}) :
    Carries {} (ts ++ [.eof]) (ofText text).items ∧ (ofText text).trailing = [] := by
  obtain ⟨hslash, hreturn⟩ := spells_printable hspell hplain
  have hlexed : Lexed ts (Lexeme.scan (Glyph.ofText text)) :=
    Lexeme.lexed_scan hspell hplain (Glyph.map_char_read 1 true hslash hreturn)
  obtain ⟨hitems, hafter⟩ := Nesting.carries_items hlexed (n := {}) 1 rfl rfl hsafe
  refine ⟨hitems, ?_⟩
  simp [ofText, ofLexemes, Nesting.unbalanced, hafter, hclosed]

end Harvest
