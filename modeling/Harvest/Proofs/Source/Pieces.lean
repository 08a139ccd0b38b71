import Harvest.Proofs.Outline
import Harvest.Proofs.Source.Pulling

/-!
# Texts made of pieces

A piece of a text is read on its own: a plain token, a comma, an arrow, a dot, of which no token
comes, or an integer literal. The digits of a literal are one token. A word right after them, such
as the suffix in `10UL` or what follows the zero in `0b11`, is another one.

Main statement: a reader that comes to pieces, with blanks between them wherever two of them would
grow together, gives their tokens with nothing noted and goes on behind them
(`Reader.items_of_composed`).
-/

namespace Harvest

/-- What the digits of a number go on with. -/
def isDecimalPart (c : Char) : Bool := c.isDigit || c = '\''

def isHexPart (c : Char) : Bool := Lexeme.isHexDigit c || c = '\''

/-- Digits that are read as one token. -/
inductive Numeral
  | zero
  /-- A zero with more digits after it. -/
  | octal (digit : Char) (more : List Char) (h : (digit.isDigit && more.all isDecimalPart) = true)
  | decimal (first : Char) (more : List Char)
      (h : (first.isDigit && first ≠ '0' && more.all isDecimalPart) = true)
  /-- `0x` with digits after it. -/
  | hex (mark : Char) (more : List Char)
      (h : ((mark = 'x' || mark = 'X') && more.all isHexPart) = true)

namespace Numeral

def chars : Numeral → List Char
  | zero => ['0']
  | octal digit more _ => '0' :: digit :: more
  | decimal first more _ => first :: more
  | hex mark more _ => '0' :: mark :: more

def token : Numeral → Token
  | zero => .null
  | _ => .integer

/-- The characters that would go on with the digits. -/
def takes : Numeral → Char → Bool
  | zero, c => c.isDigit || c = 'x' || c = 'X'
  | hex _ _ _, c => isHexPart c
  | _, c => isDecimalPart c

end Numeral

/-- An integer literal: digits, and a word right after them or none. -/
structure IntegerLiteral where
  numeral : Numeral
  suffix : Option Identifier
  apart : (suffix.all fun s ↦ s.word.toList.head?.all fun c ↦ !numeral.takes c) = true

namespace IntegerLiteral

def chars (i : IntegerLiteral) : List Char :=
  i.numeral.chars ++ i.suffix.elim [] fun s ↦ s.word.toList

def tokens (i : IntegerLiteral) : List Token :=
  i.numeral.token :: i.suffix.elim [] fun s ↦ [.ident s.word]

end IntegerLiteral

inductive Piece
  | plain (t : Token) (h : t.isPlain = true)
  | comma
  | arrow
  | dot
  | integer (i : IntegerLiteral)

namespace Piece

def word (name : Identifier) : Piece := plain (.ident name.word) name.valid

def chars : Piece → List Char
  | plain t _ => t.spelling
  | comma => [',']
  | arrow => ['-', '>']
  | dot => ['.']
  | integer i => i.chars

def tokens : Piece → List Token
  | plain t _ => [t]
  | comma => [.comma]
  | arrow => [.arrow]
  | dot => []
  | integer i => i.tokens

/-- A piece with which a word or a number right after it would grow together. -/
def isWord : Piece → Bool
  | plain t _ => t.isWord
  | integer _ => true
  | _ => false

/-- A piece that grows together with a word right before it. -/
def clings : Piece → Bool
  | plain t _ => t.clings
  | integer _ => true
  | _ => false

end Piece

/-- The characters are those of the pieces, with blanks before each of them; `afterWord` says that
a word stands right before them. -/
inductive Composed : Bool → List Piece → List Char → Prop
  | nil {afterWord : Bool} : Composed afterWord [] []
  | cons {afterWord : Bool} {gap rest : List Char} {p : Piece} {ps : List Piece}
      (hgap : isSpacing gap) (happart : afterWord → p.clings → gap ≠ [])
      (hrest : Composed p.isWord ps rest) : Composed afterWord (p :: ps) (gap ++ (p.chars ++ rest))

/-- The plainest text of pieces: a blank before each of them. -/
def spacedPieces (ps : List Piece) : List Char := ps.flatMap fun p ↦ ' ' :: p.chars

theorem composed_spacedPieces (afterWord : Bool) (ps : List Piece) :
    Composed afterWord ps (spacedPieces ps) := by
  induction ps generalizing afterWord with
  | nil => exact .nil
  | cons p ps ih =>
    have hstep : Composed afterWord (p :: ps) ([' '] ++ (p.chars ++ spacedPieces ps)) :=
      .cons (by decide) (fun _ _ ↦ List.cons_ne_nil _ _) (ih p.isWord)
    simpa [spacedPieces] using hstep

/-- What may follow a word or a number. -/
def Lexeme.endsPiece (c : Char) : Prop := endsWord c ∧ c ≠ '\''

/-- Reading from some characters on to others gives the tokens, and besides them only blanks. -/
inductive Scans : List Glyph → List Token → List Glyph → Prop
  | nil (gs : List Glyph) : Scans gs [] gs
  | blank {g : Glyph} {gs left gs' : List Glyph} {ts : List Token}
      (hnext : Lexeme.next g gs = ⟨.passed, none, left⟩ ∨ Lexeme.next g gs = ⟨.newline, none, left⟩)
      (hrest : Scans left ts gs') : Scans (g :: gs) ts gs'
  | token {g : Glyph} {gs left gs' : List Glyph} {t : Token} {ts : List Token}
      (hnext : Lexeme.next g gs = ⟨t.kind, none, left⟩) (hrest : Scans left ts gs') :
      Scans (g :: gs) (t :: ts) gs'

theorem Scans.trans {gs gs' gs'' : List Glyph} {ts us : List Token} (h : Scans gs ts gs')
    (h' : Scans gs' us gs'') : Scans gs (ts ++ us) gs'' := by
  induction h with
  | nil => exact h'
  | blank hnext _ ih => exact .blank hnext (ih h')
  | token hnext _ ih => exact .token hnext (ih h')

namespace Lexeme

/-- A token is the first lexeme, and what follows it is left. -/
theorem scans_token {gs : List Glyph} {cs rest : List Char} {t : Token} (hcs : cs ≠ [])
    (hgs : gs.map Glyph.char = cs ++ rest)
    (hnext : ∀ g tail, gs = g :: tail →
      ∃ left, next g tail = ⟨t.kind, none, left⟩ ∧ left.map Glyph.char = rest) :
    ∃ left, Scans gs [t] left ∧ left.map Glyph.char = rest := by
  cases gs with
  | nil => exact absurd (List.append_eq_nil_iff.1 hgs.symm).1 hcs
  | cons g gs =>
    obtain ⟨left, hread, hleft⟩ := hnext g gs rfl
    exact ⟨left, .token hread (.nil left), hleft⟩

theorem scans_spacing {gs : List Glyph} {gap rest : List Char} (hgap : isSpacing gap = true)
    (hgs : gs.map Glyph.char = gap ++ rest) :
    ∃ left, Scans gs [] left ∧ left.map Glyph.char = rest := by
  induction gap generalizing gs with
  | nil => exact ⟨gs, .nil gs, hgs⟩
  | cons c gap ih =>
    obtain ⟨g, gs, rfl, rfl, htail⟩ := List.map_eq_cons_iff.1 hgs
    simp only [isSpacing, List.all_cons, Bool.and_eq_true, decide_eq_true_eq] at hgap
    obtain ⟨left, hscans, hleft⟩ := ih hgap.2 htail
    exact ⟨left, .blank (next_blank gs hgap.1.1 hgap.1.2) hscans, hleft⟩

theorem isAlpha_iff (c : Char) :
    c.isAlpha = true ↔ ('A' ≤ c ∧ c ≤ 'Z') ∨ ('a' ≤ c ∧ c ≤ 'z') := by
  change (decide ('A'.val ≤ c.val ∧ c.val ≤ 'Z'.val) ||
    decide ('a'.val ≤ c.val) && decide (c.val ≤ 'z'.val)) = true ↔ _
  simp only [Bool.or_eq_true, Bool.and_eq_true, decide_eq_true_eq, Char.le_def]

/-- A digit begins neither a directive nor a word. -/
theorem next_of_isDigit {g : Glyph} (gs : List Glyph) (h : g.char.isDigit = true) :
    next g gs = punctuation g.char gs := by
  have hhash : g.char ≠ '#' := by
    intro heq
    rw [heq] at h
    exact absurd h (by decide)
  have hunderscore : g.char ≠ '_' := by
    intro heq
    rw [heq] at h
    exact absurd h (by decide)
  have hletter : g.char.isAlpha = false := by
    refine Bool.eq_false_iff.2 fun halpha ↦ ?_
    simp only [isAlpha_iff, Char.isDigit, Bool.and_eq_true, decide_eq_true_eq, ge_iff_le, Char.le_def,
      UInt32.le_iff_toNat_le] at h halpha
    have hnine : '9'.val.toNat = 57 := rfl
    have hupper : 'A'.val.toNat = 65 := rfl
    have hlower : 'a'.val.toNat = 97 := rfl
    omega
  rw [next, if_neg (by simp [hhash]), if_neg (by simp [isWordStart, hletter, hunderscore])]

theorem punctuation_of_isDigit {c : Char} (gs : List Glyph) (h : c.isDigit = true) (hzero : c ≠ '0') :
    punctuation c gs = ⟨.token .integer, none, skip isDecimalPart gs⟩ := by
  unfold punctuation
  split <;> first | exact absurd h (by decide) | skip
  · exact absurd rfl hzero
  · rw [if_pos h]; rfl

/-- Digits are read as one token, up to the first character that they do not go on with. -/
theorem next_numeral (n : Numeral) {g : Glyph} {gs : List Glyph} {rest : List Char}
    (hgs : (g :: gs).map Glyph.char = n.chars ++ rest)
    (hstop : ∀ c ∈ rest.head?, n.takes c = false) :
    ∃ left, next g gs = ⟨.token n.token, none, left⟩ ∧ left.map Glyph.char = rest := by
  cases n with
  | zero =>
    obtain ⟨hzero, hrest⟩ : g.char = '0' ∧ gs.map Glyph.char = rest := List.cons.inj hgs
    refine ⟨gs, ?_, hrest⟩
    rw [next_of_isDigit gs (by rw [hzero]; decide), hzero]
    change afterZero gs = _
    rw [afterZero, char?_eq_head?, hrest]
    cases hhead : rest.head? with
    | none => rfl
    | some c =>
      have hc := hstop c hhead
      simp only [Numeral.takes, Bool.or_eq_false_iff, decide_eq_false_iff_not] at hc
      simp [hc, Numeral.token]
  | octal digit more h =>
    simp only [Bool.and_eq_true, List.all_eq_true] at h
    obtain ⟨hzero, hrest⟩ : g.char = '0' ∧ gs.map Glyph.char = (digit :: more) ++ rest :=
      List.cons.inj hgs
    have hdigits : ∀ c ∈ digit :: more, isDecimalPart c = true :=
      List.forall_mem_cons.2 ⟨by simp [isDecimalPart, h.1], h.2⟩
    obtain ⟨-, hskip⟩ := take_skip_of_append hrest hdigits hstop
    refine ⟨_, ?_, hskip⟩
    have hx : digit ≠ 'x' ∧ digit ≠ 'X' := by
      constructor <;> (rintro rfl; exact absurd h.1 (by decide))
    rw [next_of_isDigit gs (by rw [hzero]; decide), hzero]
    change afterZero gs = _
    rw [afterZero, char?_eq_head?, hrest]
    simp only [List.cons_append, List.head?_cons, hx, h.1, decide_false, Bool.or_self,
      Bool.false_eq_true, if_false, if_true]
    rfl
  | decimal first more h =>
    simp only [Bool.and_eq_true, List.all_eq_true, decide_eq_true_eq] at h
    obtain ⟨rfl, hrest⟩ : g.char = first ∧ gs.map Glyph.char = more ++ rest := List.cons.inj hgs
    obtain ⟨-, hskip⟩ := take_skip_of_append hrest h.2 hstop
    refine ⟨_, ?_, hskip⟩
    rw [next_of_isDigit gs h.1.1, punctuation_of_isDigit gs h.1.1 h.1.2]
    rfl
  | hex mark more h =>
    simp only [Bool.and_eq_true, List.all_eq_true] at h
    obtain ⟨hzero, hrest⟩ : g.char = '0' ∧ gs.map Glyph.char = mark :: (more ++ rest) :=
      List.cons.inj hgs
    obtain ⟨g', gs, rfl, rfl, hmore⟩ := List.map_eq_cons_iff.1 hrest
    obtain ⟨-, hskip⟩ := take_skip_of_append hmore h.2 hstop
    refine ⟨_, ?_, hskip⟩
    rw [next_of_isDigit _ (by rw [hzero]; decide), hzero]
    change afterZero (g' :: gs) = _
    rw [afterZero, char?_eq_head?, hrest]
    simp only [List.head?_cons, h.1, if_true]
    rfl

theorem isWordChar_of_isHexDigit {c : Char} (h : isHexDigit c = true) : isWordChar c = true := by
  simp only [isHexDigit, Bool.or_eq_true, Bool.and_eq_true, decide_eq_true_eq] at h
  simp only [isWordChar, Char.isAlphanum, Bool.or_eq_true, isAlpha_iff]
  rcases h with (h | h) | h
  · exact .inl (.inr h)
  · exact .inl (.inl (.inr ⟨h.1, Char.le_trans h.2 (by decide)⟩))
  · exact .inl (.inl (.inl ⟨h.1, Char.le_trans h.2 (by decide)⟩))

/-- What ends a word goes on with no digits. -/
theorem takes_of_endsPiece (n : Numeral) {c : Char} (hc : endsPiece c) : n.takes c = false := by
  obtain ⟨⟨hword, -⟩, hquote⟩ := hc
  have hhex : isHexDigit c = false :=
    Bool.eq_false_iff.2 fun h ↦ by simp [isWordChar_of_isHexDigit h] at hword
  have hdigit : c.isDigit = false := by
    simp only [isHexDigit, Bool.or_eq_false_iff] at hhex
    exact hhex.1.1
  have hx : c ≠ 'x' ∧ c ≠ 'X' :=
    ⟨fun h ↦ absurd (h ▸ hword) (by decide), fun h ↦ absurd (h ▸ hword) (by decide)⟩
  cases n <;> simp [Numeral.takes, isDecimalPart, isHexPart, hhex, hdigit, hx, hquote]

/-- A literal is read whole, its suffix as a word. -/
theorem scans_integer (i : IntegerLiteral) {gs : List Glyph} {rest : List Char}
    (hgs : gs.map Glyph.char = i.chars ++ rest) (hstop : ∀ c ∈ rest.head?, endsPiece c) :
    ∃ left, Scans gs i.tokens left ∧ left.map Glyph.char = rest := by
  obtain ⟨n, suffix, happart⟩ := i
  have hn : n.chars ≠ [] := by cases n <;> simp [Numeral.chars]
  have hkind : n.token.kind = .token n.token := by cases n <;> rfl
  cases suffix with
  | none =>
    rw [IntegerLiteral.chars, Option.elim_none, List.append_nil] at hgs
    refine scans_token hn hgs fun g tail hcons ↦ ?_
    rw [hkind]
    exact next_numeral n (hcons ▸ hgs) fun c hc ↦ takes_of_endsPiece n (hstop c hc)
  | some s =>
    rw [IntegerLiteral.chars, Option.elim_some, List.append_assoc] at hgs
    have hs : s.word.toList ≠ [] := spelling_ne_nil (t := .ident s.word) s.valid
    obtain ⟨d, ds, hd⟩ := List.exists_cons_of_ne_nil hs
    obtain ⟨left, hdigits, hleft⟩ := scans_token (t := n.token) hn hgs fun g tail hcons ↦ by
      rw [hkind]
      refine next_numeral n (hcons ▸ hgs) fun c hc ↦ ?_
      rw [hd] at hc
      obtain rfl : d = c := Option.some.inj hc
      simpa [hd] using happart
    obtain ⟨left', hsuffix, hleft'⟩ := scans_token (t := .ident s.word) hs hleft fun g tail hcons ↦
      next_spelling s.valid (hcons ▸ hleft) fun _ c hc ↦ (hstop c hc).1
    exact ⟨left', hdigits.trans hsuffix, hleft'⟩

end Lexeme

namespace Piece

open Lexeme

theorem scans (p : Piece) {gs : List Glyph} {rest : List Char}
    (hgs : gs.map Glyph.char = p.chars ++ rest)
    (hstop : p.isWord = true → ∀ c ∈ rest.head?, endsPiece c) :
    ∃ left, Scans gs p.tokens left ∧ left.map Glyph.char = rest := by
  cases p with
  | plain t h =>
    refine scans_token (spelling_ne_nil h) hgs fun g tail hcons ↦ ?_
    exact next_spelling h (hcons ▸ hgs) fun hword c hc ↦ (hstop hword c hc).1
  | comma =>
    obtain ⟨g, gs, rfl, hg, hrest⟩ := List.map_eq_cons_iff.1 hgs
    exact ⟨gs, .token (by simp [next, hg, isWordStart, punctuation, Token.kind]) (.nil gs), hrest⟩
  | arrow =>
    obtain ⟨g, gs, rfl, hg, hgs⟩ := List.map_eq_cons_iff.1 hgs
    obtain ⟨g', gs, rfl, hg', hrest⟩ := List.map_eq_cons_iff.1 hgs
    refine ⟨gs, .token ?_ (.nil gs), hrest⟩
    simp [next, hg, hg', isWordStart, punctuation, char?, Token.kind]
  | dot =>
    obtain ⟨g, gs, rfl, hg, hrest⟩ := List.map_eq_cons_iff.1 hgs
    exact ⟨gs, .blank (.inl (by simp [next, hg, isWordStart, punctuation])) (.nil gs), hrest⟩
  | integer i => exact scans_integer i hgs (hstop rfl)

theorem spelling_head?_ne_quote {t : Token} (hplain : t.isPlain = true) (hword : t.isWord = false) :
    t.spelling.head? ≠ some '\'' := by
  cases t <;>
    simp only [Token.isPlain, Token.isWord, Bool.false_eq_true, Bool.true_eq_false] at hplain hword
  case string body => simp [Token.spelling]
  case opening d => cases d <;> decide
  case closing d => cases d <;> decide
  all_goals decide

/-- A piece that does not cling to a word ends it. -/
theorem endsPiece_of_not_clings (p : Piece) (hclings : p.clings = false) :
    ∃ c cs, p.chars = c :: cs ∧ endsPiece c := by
  cases p with
  | plain t h =>
    have hword : t.isWord = false := by cases t <;> simp_all [clings, Token.clings, Token.isWord]
    obtain ⟨c, cs, hspell, -, hchar, -, hquote⟩ := spelling_head h hword
    refine ⟨c, cs, hspell, ⟨hchar, fun heq ↦ ?_⟩, ?_⟩
    · simp [clings, hquote heq] at hclings
    · rintro rfl
      exact spelling_head?_ne_quote h hword (by rw [hspell]; rfl)
  | comma => exact ⟨_, _, rfl, ⟨by decide, by decide⟩, by decide⟩
  | arrow => exact ⟨_, _, rfl, ⟨by decide, by decide⟩, by decide⟩
  | dot => exact ⟨_, _, rfl, ⟨by decide, by decide⟩, by decide⟩
  | integer i => simp [clings] at hclings

/-- Pieces that come after a word begin with a blank or with what ends the word. -/
theorem endsPiece_of_composed {ps : List Piece} {cs rest : List Char} (h : Composed true ps cs)
    (hstop : ps = [] → ∀ c ∈ rest.head?, endsPiece c) : ∀ c ∈ (cs ++ rest).head?, endsPiece c := by
  intro c hc
  cases h with
  | nil => exact hstop rfl c hc
  | @cons _ gap rest p ps hgap happart hrest =>
    cases gap with
    | cons d gap =>
      obtain rfl : d = c := Option.some.inj hc
      have hspace := List.all_eq_true.1 hgap d List.mem_cons_self
      refine ⟨endsWord_of_isSpacing hgap List.mem_cons_self, ?_⟩
      rintro rfl
      exact absurd hspace (by decide)
    | nil =>
      obtain ⟨d, ds, hchars, hd⟩ :=
        p.endsPiece_of_not_clings (Bool.eq_false_iff.2 fun h ↦ happart rfl h rfl)
      rw [hchars] at hc
      obtain rfl : d = c := Option.some.inj hc
      exact hd

/-- The pieces are read one after the other. -/
theorem scans_of_composed {afterWord : Bool} {ps : List Piece} {cs : List Char}
    (h : Composed afterWord ps cs) {gs : List Glyph} {rest : List Char}
    (hgs : gs.map Glyph.char = cs ++ rest)
    (hstop : ∀ p ∈ ps.getLast?, p.isWord = true → ∀ c ∈ rest.head?, endsPiece c) :
    ∃ left, Scans gs (ps.flatMap tokens) left ∧ left.map Glyph.char = rest := by
  induction h generalizing gs with
  | nil => exact ⟨gs, .nil gs, hgs⟩
  | @cons _ gap more p ps hgap _ hmore ih =>
    rw [List.append_assoc, List.append_assoc] at hgs
    obtain ⟨gs', hblank, hgs'⟩ := scans_spacing hgap hgs
    obtain ⟨gs'', hpiece, hgs''⟩ := p.scans hgs' fun hword ↦
      endsPiece_of_composed (hword ▸ hmore) fun hnil ↦ hstop p (by rw [hnil]; rfl) hword
    obtain ⟨left, hrest, hleft⟩ := ih hgs'' fun q hq ↦
      hstop q (by rw [List.getLast?_cons, Option.mem_def.1 hq]; rfl)
    exact ⟨left, hblank.trans (hpiece.trans hrest), hleft⟩

end Piece

/-- The items of what has been scanned hold its tokens and no notes, and those of the rest follow. -/
theorem Nesting.items_of_scans {gs gs' : List Glyph} {ts : List Token} (h : Scans gs ts gs')
    {n : Nesting} (line : Nat) (houtside : n.macroBody = none)
    (hwrapped : .opening .brace ∈ ts → n.wrapped = false) (hsafe : n.depths.Safe ts) :
    ∃ (is : List Item) (r : Reader), n.items [] line (Lexeme.scan gs) = is ++ r.items ∧
      Carries n.depths ts is ∧ r.left = gs' := by
  induction h generalizing n line with
  | nil gs => exact ⟨[], ⟨n, line, gs⟩, rfl, rfl, rfl⟩
  | @blank g gs left gs' ts hnext hrest ih =>
    obtain ⟨is, r, hitems, hcarries, hleft⟩ := ih g.line houtside hwrapped hsafe
    refine ⟨is, r, ?_, hcarries, hleft⟩
    rw [← hitems, Lexeme.scan]
    rcases hnext with hnext | hnext
    · simp [items, hnext, step_blank (x := ⟨.passed, g.line, none⟩) houtside rfl (.inl rfl)]
    · simp [items, hnext, step_blank (x := ⟨.newline, g.line, none⟩) houtside rfl (.inr rfl)]
  | @token g gs left gs' t ts hnext hrest ih =>
    obtain ⟨hnotes, htoken, hdepths, houtside', hwrapped'⟩ :=
      step_token (x := ⟨t.kind, g.line, none⟩) houtside
        (fun heq ↦ hwrapped (heq ▸ List.mem_cons_self)) rfl rfl hsafe.1
    obtain ⟨is, r, hitems, hcarries, hleft⟩ := ih g.line houtside'
      (fun hmem ↦ hwrapped'.trans (hwrapped (List.mem_cons_of_mem t hmem))) (hdepths ▸ hsafe.2)
    rw [hdepths] at hcarries
    refine ⟨⟨[], t, g.line, n.depths.after t⟩ :: is, r, ?_, ⟨g.line, is, rfl, hcarries⟩, hleft⟩
    rw [Lexeme.scan, hnext, items, htoken]
    simp [hnotes, hdepths, hitems]

/-- A reader that is in no directive and comes to pieces without braces gives their tokens, and then
what follows them. -/
theorem Reader.items_of_composed (r : Reader) (houtside : r.nesting.macroBody = none)
    {afterWord : Bool} {ps : List Piece} {cs rest : List Char} (h : Composed afterWord ps cs)
    (hleft : r.left.map Glyph.char = cs ++ rest)
    (hstop : ∀ p ∈ ps.getLast?, p.isWord = true → ∀ c ∈ rest.head?, Lexeme.endsPiece c)
    (hbrace : .opening .brace ∉ ps.flatMap Piece.tokens)
    (hsafe : r.nesting.depths.Safe (ps.flatMap Piece.tokens)) :
    ∃ (is : List Item) (r' : Reader), r.items = is ++ r'.items ∧
      Carries r.nesting.depths (ps.flatMap Piece.tokens) is ∧ r'.left.map Glyph.char = rest := by
  obtain ⟨left, hscans, hrest⟩ := Piece.scans_of_composed h hleft hstop
  obtain ⟨is, r', hitems, hcarries, rfl⟩ := Nesting.items_of_scans hscans r.line houtside
    (fun hmem ↦ absurd hmem hbrace) hsafe
  exact ⟨is, r', hitems, hcarries, hrest⟩

end Harvest
