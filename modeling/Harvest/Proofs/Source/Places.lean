import Harvest.Proofs.Source.Delimiters
import Harvest.Proofs.Source.Folding
import Harvest.Proofs.Source.LookAhead
import Harvest.Proofs.Source.Spelling

/-!
# Places in a text

Every token and every comment is reported with a line. The lines are counted while the logical
characters are made, one character ahead of the lexemes, and comments, literals and directives take
the ends of lines along in many places. Which line is the right one can be said on the physical text
alone: one more than the number of lines that end before the first character of the token.

Main statement: all tokens and comments are reported with the lines on which they begin, and the
lines do not decrease along the stream.
-/

namespace Harvest

namespace Glyph

/-- How many lines end in a text. A carriage return and the newline after it end one line, and a
line that is continued ends like any other. -/
def lineEnds (cs : List Char) : Nat := (unifyEnds cs).count '\n'

theorem lineEnds_newline (cs : List Char) : lineEnds ('\n' :: cs) = lineEnds cs + 1 := by
  rw [lineEnds, unifyEnds_cons (by decide), List.count_cons_self, lineEnds]

theorem lineEnds_returnNewline (cs : List Char) :
    lineEnds ('\r' :: '\n' :: cs) = lineEnds cs + 1 := by
  rw [lineEnds, unifyEnds, List.count_cons_self, lineEnds]

theorem lineEnds_return {cs : List Char} (h : ∀ rest, cs ≠ '\n' :: rest) :
    lineEnds ('\r' :: cs) = lineEnds cs + 1 := by
  rw [lineEnds, unifyEnds_return h, List.count_cons_self, lineEnds]

theorem lineEnds_cons {c : Char} (hnewline : c ≠ '\n') (hreturn : c ≠ '\r') (cs : List Char) :
    lineEnds (c :: cs) = lineEnds cs := by
  rw [lineEnds, unifyEnds_cons hreturn, List.count_cons_of_ne hnewline, lineEnds]

/-- A character that ends no line stands on the line after all those that end before it. -/
theorem line_of_suffix {line : Nat} {leads : Bool} {cs : List Char} {g : Glyph} {gs : List Glyph}
    (h : g :: gs <:+ read line leads cs) (hg : g.char ≠ '\n') :
    ∃ before, cs = before ++ g.char :: g.rest ∧ g.line = line + lineEnds before := by
  fun_induction read line leads cs with
  | case1 => simp at h
  | case2 line leads rest ih =>
    obtain ⟨before, rfl, hline⟩ := ih h
    refine ⟨'\\' :: '\n' :: before, rfl, ?_⟩
    rw [hline, lineEnds_cons (by decide) (by decide), lineEnds_newline]
    omega
  | case3 line leads rest ih =>
    obtain ⟨before, rfl, hline⟩ := ih h
    refine ⟨'\\' :: '\r' :: '\n' :: before, rfl, ?_⟩
    rw [hline, lineEnds_cons (by decide) (by decide), lineEnds_returnNewline]
    omega
  | case4 line leads rest hrest ih =>
    obtain ⟨before, rfl, hline⟩ := ih h
    have hbefore : ∀ rest, before ≠ '\n' :: rest := by
      rintro rest rfl
      exact hrest _ rfl
    refine ⟨'\\' :: '\r' :: before, rfl, ?_⟩
    rw [hline, lineEnds_cons (by decide) (by decide), lineEnds_return hbefore]
    omega
  | case5 line leads rest ih =>
    rcases suffix_cons_cases h with ⟨rfl, -⟩ | h
    · exact absurd rfl hg
    obtain ⟨before, rfl, hline⟩ := ih h
    refine ⟨'\r' :: '\n' :: before, rfl, ?_⟩
    rw [hline, lineEnds_returnNewline]
    omega
  | case6 line leads rest hrest ih =>
    rcases suffix_cons_cases h with ⟨rfl, -⟩ | h
    · exact absurd rfl hg
    obtain ⟨before, rfl, hline⟩ := ih h
    have hbefore : ∀ rest, before ≠ '\n' :: rest := by
      rintro rest rfl
      exact hrest _ rfl
    refine ⟨'\r' :: before, rfl, ?_⟩
    rw [hline, lineEnds_return hbefore]
    omega
  | case7 line leads rest ih =>
    rcases suffix_cons_cases h with ⟨rfl, -⟩ | h
    · exact absurd rfl hg
    obtain ⟨before, rfl, hline⟩ := ih h
    refine ⟨'\n' :: before, rfl, ?_⟩
    rw [hline, lineEnds_newline]
    omega
  | case8 line leads c rest _ _ _ _ hreturn hnewline ih =>
    rcases suffix_cons_cases h with ⟨rfl, rfl⟩ | h
    · exact ⟨[], rfl, rfl⟩
    obtain ⟨before, rfl, hline⟩ := ih h
    refine ⟨c :: before, rfl, ?_⟩
    rw [hline, lineEnds_cons hnewline hreturn]

theorem le_line_of_mem_read {line : Nat} {leads : Bool} {cs : List Char} {g : Glyph}
    (hg : g ∈ read line leads cs) : line ≤ g.line := by
  fun_induction read line leads cs <;> grind

/-- The lines of the logical characters do not decrease. -/
theorem pairwise_line_read (line : Nat) (leads : Bool) (cs : List Char) :
    (read line leads cs).Pairwise fun g g' ↦ g.line ≤ g'.line := by
  fun_induction read line leads cs with
  | case1 => exact .nil
  | case2 _ _ _ ih | case3 _ _ _ ih | case4 _ _ _ _ ih => exact ih
  | case5 _ _ _ ih | case6 _ _ _ _ ih | case7 _ _ _ ih | case8 _ _ _ _ _ _ _ _ _ _ ih =>
    exact .cons (fun _ hg ↦ le_line_of_mem_read hg) ih

end Glyph

/-! ### What a lexeme begins with -/

namespace Token

/-- The signs that are tokens. A closing brace that nothing has opened counts as a semicolon. -/
def signs : List (List Char × Token) :=
  [([':', ':'], colonColon), (['-', '>'], arrow), (['='], equals), (['<'], angle), (['>'], angle),
    ([','], comma), ([';'], semicolon), (['\x7d'], semicolon), (['?'], question), (['0'], null)] ++
  [.brace, .paren, .bracket].flatMap fun d ↦
    [([openingChar d], opening d), ([closingChar d], closing d)]

/-- Logical characters that begin with a token, at its first character. This is the `#` of an
include, and the quote of a literal even if it has a mark. -/
inductive Begins : Token → List Char → Prop
  | sign {cs : List Char} {t : Token} (h : (cs, t) ∈ signs) (rest : List Char) :
      Begins t (cs ++ rest)
  | keyword {word : String} {t : Token} (h : keyword? word = some t) (rest : List Char) :
      Begins t (word.toList ++ rest)
  | ident {word : String} (h : word ≠ "") (rest : List Char) :
      Begins (ident word) (word.toList ++ rest)
  | colon (ahead : Ahead) (rest : List Char) : Begins (colon ahead) (':' :: rest)
  | integer {c : Char} (h : c.isDigit = true) (rest : List Char) : Begins integer (c :: rest)
  | string (body : String) (rest : List Char) :
      Begins (string body) ('"' :: (body.toList ++ rest))
  | rawString {mark : String} (h : mark ∈ rawMarks) (body : String) (rest : List Char) :
      Begins (rawString body) (mark.toList ++ '"' :: rest)
  | quotedInclude (path : String) (word rest : List Char) :
      Begins (quotedInclude path) ('#' :: (word ++ '"' :: (path.toList ++ rest)))
  | angledInclude (path : String) (word rest : List Char) :
      Begins (angledInclude path) ('#' :: (word ++ '<' :: (path.toList ++ rest)))

theorem Begins.char {c : Char} {t : Token} (h : ([c], t) ∈ signs) (rest : List Char) :
    t.Begins (c :: rest) :=
  .sign h rest

end Token

namespace LexemeKind

/-- Logical characters that begin with a lexeme, as far as it is reported. -/
def Begins : LexemeKind → List Char → Prop
  | token t, cs => t.Begins cs
  | opening d, cs => ∃ rest, cs = Token.openingChar d :: rest
  | closing d, cs => ∃ rest, cs = Token.closingChar d :: rest
  | comment body, cs =>
    ∃ rest, cs = '/' :: '/' :: (body.toList ++ rest) ∨ cs = '/' :: '*' :: (body.toList ++ rest)
  | _, _ => True

end LexemeKind

namespace Lexeme

open Glyph

variable {gs : List Glyph}

theorem take_append_skip (p : Char → Bool) (gs : List Glyph) :
    take p gs ++ (skip p gs).map char = gs.map char := by
  rw [take, skip, ← List.map_append, List.takeWhile_append_dropWhile]

theorem map_char_eq_cons {c : Char} (h : char? gs = some c) :
    gs.map char = c :: gs.tail.map char := by
  cases gs with
  | nil => cases h
  | cons g gs => rw [List.map_cons, Option.some.inj h, List.tail_cons]

theorem exists_map_char_append {rest : List Glyph} (h : rest <:+ gs) :
    ∃ before, gs.map char = before ++ rest.map char := by
  obtain ⟨before, rfl⟩ := h
  exact ⟨before.map char, List.map_append⟩

theorem blockBody_append (gs : List Glyph) : ∃ rest, gs.map char = (blockBody gs).1 ++ rest := by
  fun_induction blockBody gs with
  | case1 | case2 => exact ⟨_, rfl⟩
  | case3 g gs _ body closed rest hbody ih =>
    rw [hbody] at ih
    obtain ⟨rest, hrest⟩ := ih
    exact ⟨rest, congrArg (g.char :: ·) hrest⟩

theorem stringBody_append (gs : List Glyph) : ∃ rest, gs.map char = (stringBody gs).1 ++ rest := by
  fun_induction stringBody gs with
  | case1 | case2 | case3 | case4 | case5 | case6 => exact ⟨_, rfl⟩
  | case7 g e gs _ hslash _ body rest hbody ih =>
    rw [hbody] at ih
    obtain ⟨rest, hrest⟩ := ih
    refine ⟨rest, ?_⟩
    rw [← hslash]
    exact congrArg (g.char :: e.char :: ·) hrest
  | case8 g e gs _ _ body rest hbody ih =>
    rw [hbody] at ih
    obtain ⟨rest, hrest⟩ := ih
    exact ⟨rest, congrArg (g.char :: ·) hrest⟩

theorem toList_char?_append (gs : List Glyph) :
    (char? gs).toList ++ gs.tail.map char = gs.map char := by
  cases gs <;> rfl

theorem begins_comment (gs : List Glyph) : (comment gs).kind.Begins ('/' :: gs.map char) := by
  unfold comment
  split
  · next hslash =>
    -- The newline that ends the comment is part of its body.
    refine ⟨(skip (· ≠ '\n') gs.tail).tail.map char, .inl ?_⟩
    rw [String.toList_ofList, List.append_assoc, toList_char?_append, take_append_skip,
      map_char_eq_cons hslash]
  · next hstar =>
    obtain ⟨rest, hrest⟩ := blockBody_append gs.tail
    refine ⟨rest, .inr ?_⟩
    rw [map_char_eq_cons hstar, hrest, String.toList_ofList]
  · trivial

/-- The path of an include stands behind its quote. -/
theorem begins_includeToken {word : List Char} {t : Token} (h : (includeToken gs).1 = some t) :
    t.Begins ('#' :: (word ++ gs.map char)) := by
  simp only [includeToken] at h
  let path := skip isSpace (skip (fun c ↦ !isSpace c && c ≠ '"' && c ≠ '<') gs)
  obtain ⟨before, hbefore⟩ : ∃ before, gs.map char = before ++ path.map char :=
    exists_map_char_append ((skip_suffix _ _).trans (skip_suffix _ _))
  have hspelt {quote : Char} (close : Char) (hquote : char? path = some quote) :
      word ++ gs.map char = (word ++ before) ++ quote ::
        ((String.ofList (take (fun c ↦ c ≠ close && c ≠ '\n') path.tail)).toList ++
          (skip (fun c ↦ c ≠ close && c ≠ '\n') path.tail).map char) := by
    rw [String.toList_ofList, take_append_skip, ← map_char_eq_cons hquote, hbefore,
      List.append_assoc]
  split at h
  · next hquote =>
    obtain rfl := Option.some.inj h
    rw [hspelt '"' hquote]
    exact .quotedInclude _ _ _
  · next hquote =>
    obtain rfl := Option.some.inj h
    rw [hspelt '>' hquote]
    exact .angledInclude _ _ _
  · cases h

theorem begins_directive (gs : List Glyph) : (directive gs).kind.Begins ('#' :: gs.map char) := by
  unfold directive
  dsimp only
  split
  · split <;> trivial
  · split
    · trivial
    · split
      · next t rest hinclude =>
        obtain ⟨word, hword⟩ : ∃ word, gs.map char = word ++ (skip isGap gs).tail.tail.map char :=
          exists_map_char_append
            (((List.tail_suffix _).trans (List.tail_suffix _)).trans (skip_suffix _ _))
        rw [hword]
        exact begins_includeToken (congrArg Prod.fst hinclude)
      · trivial
    · trivial
  · split <;> trivial
  · trivial

theorem begins_word {g : Glyph} (hstart : isWordStart g.char = true) :
    (word (g :: gs)).kind.Begins ((g :: gs).map char) := by
  have hchars : (String.ofList (take isWordChar (g :: gs))).toList ++
      (skip isWordChar (g :: gs)).map char = (g :: gs).map char := by
    rw [String.toList_ofList, take_append_skip]
  have hne : String.ofList (take isWordChar (g :: gs)) ≠ "" := by
    simp [take, isWordChar_of_isWordStart hstart, ← String.toList_inj]
  unfold word
  extract_lets text rest
  rw [← hchars]
  split
  · trivial
  · split
    · next t hkey => exact .keyword hkey _
    · split
      · exact .ident hne _
      · split
        · next hraw =>
          simp only [Bool.and_eq_true, decide_eq_true_eq] at hraw
          rw [map_char_eq_cons hraw.1]
          exact .rawString hraw.2 _ _
        · exact .ident hne _

theorem begins_afterZero (gs : List Glyph) : (afterZero gs).kind.Begins ('0' :: gs.map char) := by
  have hzero : Token.null.Begins ('0' :: gs.map char) := .char (by decide) _
  have hinteger : Token.integer.Begins ('0' :: gs.map char) := .integer (by decide) _
  unfold afterZero
  split
  · exact hzero
  · split
    · exact hinteger
    · split
      · exact hinteger
      · exact hzero

theorem begins_punctuation (c : Char) (gs : List Glyph) :
    (punctuation c gs).kind.Begins (c :: gs.map char) := by
  have hsigns {c d : Char} {t : Token} (hd : char? gs = some d) (h : ([c, d], t) ∈ Token.signs) :
      t.Begins (c :: gs.map char) := by
    rw [map_char_eq_cons hd]
    exact .sign h _
  unfold punctuation
  split
  case h_1 => trivial
  case h_2 => exact begins_comment gs
  case h_3 =>
    obtain ⟨rest, hrest⟩ := stringBody_append gs
    have hstring := Token.Begins.string (String.ofList (stringBody gs).1) rest
    rw [String.toList_ofList, ← hrest] at hstring
    unfold string
    dsimp only
    split <;> exact hstring
  case h_4 =>
    split
    · next hangle => exact hsigns hangle (by decide)
    · trivial
  case h_5 =>
    split
    · next hcolon => exact hsigns hcolon (by decide)
    · exact .colon _ _
  case h_9 => trivial
  case h_10 | h_11 | h_12 | h_13 | h_14 | h_15 => exact ⟨_, rfl⟩
  case h_19 => exact begins_afterZero gs
  case h_20 =>
    split
    · next hdigit => exact .integer hdigit _
    · trivial
  all_goals exact Token.Begins.char (by decide) _

/-- What is read as a lexeme begins with the character from which it is read. -/
theorem begins_next (g : Glyph) (gs : List Glyph) :
    (next g gs).kind.Begins ((g :: gs).map char) := by
  unfold next
  split_ifs with hhash hstart
  · simp only [Bool.and_eq_true, decide_eq_true_eq] at hhash
    rw [List.map_cons, hhash.1]
    exact begins_directive gs
  · exact begins_word hstart
  · exact begins_punctuation g.char gs

theorem kind_next_of_newline {g : Glyph} (hg : g.char = '\n') (gs : List Glyph) :
    (next g gs).kind = .newline := by
  rw [next, hg]
  rfl

theorem next_suffix_later (g : Glyph) (gs : List Glyph) : (next g gs).rest <:+ gs := by
  refine (List.suffix_cons_iff.1 (next_suffix g gs)).resolve_left fun hrest ↦ ?_
  have hlength := length_next_le g gs
  rw [hrest, List.length_cons] at hlength
  omega

/-- Where the lexemes are cut, some of the characters are left. -/
theorem exists_left {earlier later : List Lexeme} {x : Lexeme}
    (h : scan gs = earlier ++ x :: later) :
    ∃ g left, g :: left <:+ gs ∧ scan (g :: left) = x :: later := by
  induction earlier generalizing gs with
  | nil =>
    cases gs with
    | nil => simp [scan] at h
    | cons g gs => exact ⟨g, gs, List.suffix_rfl, h⟩
  | cons y earlier ih =>
    cases gs with
    | nil => simp [scan] at h
    | cons g gs =>
      rw [scan] at h
      obtain ⟨g', left, hsuffix, hscan⟩ := ih (List.cons.inj h).2
      exact ⟨g', left, hsuffix.trans (next_suffix g gs), hscan⟩

end Lexeme

/-- The place of the lexeme that comes after the lexemes `earlier` of a text. -/
structure Site (text : String) (earlier : List Lexeme) where
  /-- The text before the lexeme. -/
  before : List Char
  /-- The first character of the lexeme. -/
  first : Glyph
  /-- The logical characters after the first one. -/
  left : List Glyph
  text_eq : text.toList = before ++ first.char :: first.rest
  suffix : first :: left <:+ Glyph.ofText text
  scan_eq : Lexeme.ofText text = earlier ++ Lexeme.scan (first :: left)

namespace Site

variable {text : String} {earlier : List Lexeme}

/-- The line of a place, counted in the text before it. -/
def line (p : Site text earlier) : Nat := 1 + Glyph.lineEnds p.before

/-- The logical characters from a place on. -/
def chars (p : Site text earlier) : List Char := (p.first :: p.left).map Glyph.char

/-- What is read at a place. -/
def lexeme (p : Site text earlier) : Lexeme := (Lexeme.next p.first p.left).lexeme p.first.line

/-- Every lexeme but a newline has a place, stands on the line of that place and is spelt there. -/
theorem exists_lexeme {x : Lexeme} {later : List Lexeme}
    (htext : Lexeme.ofText text = earlier ++ x :: later) (hx : x.kind ≠ .newline) :
    ∃ p : Site text earlier, p.lexeme = x ∧ x.line = p.line ∧ x.kind.Begins p.chars := by
  obtain ⟨g, gs, hsuffix, hscan⟩ := Lexeme.exists_left htext
  have hlexeme : (Lexeme.next g gs).lexeme g.line = x := by
    rw [Lexeme.scan] at hscan
    exact (List.cons.inj hscan).1
  subst hlexeme
  have hg : g.char ≠ '\n' := fun hg ↦ hx (Lexeme.kind_next_of_newline hg gs)
  obtain ⟨before, hbefore, hline⟩ := Glyph.line_of_suffix hsuffix hg
  exact ⟨⟨before, g, gs, hbefore, hsuffix, hscan ▸ htext⟩, rfl, hline, Lexeme.begins_next g gs⟩

end Site

/-! ### Steps -/

namespace Nesting

variable {n : Nesting} {x : Lexeme}

/-- The only token of a newline is the end of a macro body, which has no characters of its own. -/
theorem kind_ne_newline {t : Token} (h : (n.step x).token = some t) (hcancel : t ≠ .cancel) :
    x.kind ≠ .newline := by
  intro hx
  simp only [step, hx, endLine] at h
  split at h
  · cases h
  · exact hcancel (Option.some.inj h).symm

/-- A token begins where the lexeme begins from which it comes. -/
theorem begins_token {t : Token} {cs : List Char} (h : (n.step x).token = some t)
    (hnewline : x.kind ≠ .newline) (hbegins : x.kind.Begins cs) : t.Begins cs := by
  obtain ⟨kind, line, fault⟩ := x
  cases kind with
  | passed => cases h
  | newline => exact absurd rfl hnewline
  | token t' =>
    obtain rfl := Option.some.inj h
    exact hbegins
  | opening d =>
    obtain rfl := Option.some.inj h
    obtain ⟨rest, rfl⟩ := hbegins
    exact .char (by cases d <;> decide) rest
  | closing d =>
    obtain ⟨rest, rfl⟩ := hbegins
    refine .char ?_ rest
    cases d
    all_goals
      simp only [step, closeDelimiter] at h
      split_ifs at h
    all_goals
      obtain rfl := Option.some.inj h
      decide
  | comment body => cases h
  | directive d => cases h

theorem comment_notMem_directive (n : Nesting) (d : Directive) (line : Nat) (body : String)
    (line' : Nat) : .comment body line' ∉ (n.directive d line).2 := by
  cases d with
  | conditional | macroBody | other => simp [directive]
  | alternative =>
    simp only [directive, alternative]
    split
    · simp
    · split
      · simp
      · split_ifs <;> simp
  | conditionalEnd =>
    simp only [directive, endConditional]
    split
    · simp
    · split
      · simp
      · split_ifs <;> simp

/-- A comment is noted with the line of its lexeme. -/
theorem comment_mem_step {body : String} {line : Nat} (h : .comment body line ∈ (n.step x).notes) :
    x.kind = .comment body ∧ x.line = line := by
  obtain ⟨kind, line', fault⟩ := x
  cases kind with
  | passed => cases fault <;> simp [step] at h
  | newline =>
    simp only [step, endLine] at h
    split at h <;> simp at h
  | token t => cases fault <;> simp [step] at h
  | opening d => simp [step, openDelimiter] at h
  | closing d =>
    cases d
    all_goals
      simp only [step, closeDelimiter] at h
      split_ifs at h
    all_goals simp at h
  | comment body' => cases fault <;> simp_all [step]
  | directive d =>
    rcases List.mem_append.1 h with h | h
    · exact absurd h (comment_notMem_directive n d line' body line)
    · cases fault <;> simp at h

theorem comment_mem_notesOf {body : String} {line : Nat} {xs : List Lexeme}
    (h : .comment body line ∈ n.notesOf xs) :
    ∃ earlier x later, xs = earlier ++ x :: later ∧ x.kind = .comment body ∧ x.line = line := by
  induction xs generalizing n with
  | nil => cases h
  | cons x xs ih =>
    rcases List.mem_append.1 h with h | h
    · exact ⟨[], x, xs, rfl, comment_mem_step h⟩
    · obtain ⟨earlier, y, later, rfl, hy⟩ := ih h
      exact ⟨x :: earlier, y, later, rfl, hy⟩

end Nesting

namespace Reader

/-- A call that gives a token ends with the lexeme of that token, on its line. -/
theorem exists_readsFrom_concat {n : Nesting} {notes : List Note} {line : Nat} {gs : List Glyph}
    (h : (pull n notes line gs).1.token ≠ .eof) :
    ∃ passed x, readsFrom n gs = passed ++ [x] ∧ x.line = (pull n notes line gs).1.line ∧
      ((n.after passed).step x).token = some (pull n notes line gs).1.token := by
  fun_induction pull n notes line gs with
  | case1 => exact absurd rfl h
  | case2 n notes line g gs read effect hnone ih =>
    obtain ⟨passed, x, hreads, hline, htoken⟩ := ih h
    refine ⟨⟨read.kind, g.line, read.fault⟩ :: passed, x, ?_, hline, htoken⟩
    rw [readsFrom, if_neg (by simpa [effect] using hnone), hreads]
    rfl
  | case3 n notes line g gs read effect t ht =>
    refine ⟨[], ⟨read.kind, g.line, read.fault⟩, ?_, rfl, ht⟩
    rw [readsFrom, if_pos (by simp [ht, effect, read])]
    rfl

/-- The lines of what was read and of what is left do not decrease. -/
def Ordered (r : Reader) : Prop := (r.line :: r.left.map Glyph.line).Pairwise (· ≤ ·)

theorem ordered_ofText (text : String) : (ofText text).Ordered := by
  refine .cons ?_ (List.pairwise_map.2 (Glyph.pairwise_line_read 1 true text.toList))
  rintro line hline
  obtain ⟨g, hg, rfl⟩ := List.mem_map.1 hline
  exact Glyph.le_line_of_mem_read hg

/-- A call goes on where the lines do not decrease. -/
theorem ordered_pull {n : Nesting} {notes : List Note} {line : Nat} {gs : List Glyph}
    (h : (line :: gs.map Glyph.line).Pairwise (· ≤ ·)) :
    line ≤ (pull n notes line gs).1.line ∧
      (pull n notes line gs).2.line = (pull n notes line gs).1.line ∧
      (pull n notes line gs).2.Ordered := by
  fun_induction pull n notes line gs with
  | case1 => exact ⟨Nat.le_refl _, rfl, h⟩
  | case2 n notes line g gs read effect hnone ih =>
    have hline : line ≤ g.line := List.rel_of_pairwise_cons h List.mem_cons_self
    have hrest : (g.line :: read.rest.map Glyph.line).Pairwise (· ≤ ·) :=
      h.of_cons.sublist (((Lexeme.next_suffix_later g gs).sublist.map _).cons_cons _)
    obtain ⟨hle, hnext⟩ := ih hrest
    exact ⟨Nat.le_trans hline hle, hnext⟩
  | case3 n notes line g gs read effect t ht =>
    exact ⟨List.rel_of_pairwise_cons h List.mem_cons_self, rfl,
      h.of_cons.sublist (((Lexeme.next_suffix_later g gs).sublist.map _).cons_cons _)⟩

theorem ordered_after {r : Reader} (h : r.Ordered) (k : Nat) : (r.after k).Ordered := by
  induction k with
  | zero => exact h
  | succ k ih =>
    rw [after_succ']
    exact (ordered_pull ih).2.2

theorem line_item_le {r : Reader} (h : r.Ordered) {j k : Nat} (hjk : j ≤ k) :
    (r.item j).line ≤ (r.item k).line := by
  induction hjk with
  | refl => exact Nat.le_refl _
  | @step k _ ih =>
    have hnext : (r.after (k + 1)).line = (r.item k).line := by
      rw [after_succ']
      exact (ordered_pull (ordered_after h k)).2.1
    refine Nat.le_trans ih ?_
    rw [← hnext]
    exact (ordered_pull (ordered_after h (k + 1))).1

/-- What a call reads has its place in the text. -/
theorem exists_site {text : String} {k : Nat} {passed later : List Lexeme} {x : Lexeme}
    (hreads : ((ofText text).after k).reads = passed ++ x :: later) (hx : x.kind ≠ .newline) :
    ∃ earlier, ∃ site : Site text earlier,
      (ofText text).scanned (k + 1) = earlier ++ x :: later ∧ site.lexeme = x ∧
      x.line = site.line ∧ x.kind.Begins site.chars := by
  have hscanned : (ofText text).scanned (k + 1) =
      ((ofText text).scanned k ++ passed) ++ x :: later := by
    rw [scanned_succ, hreads, List.append_assoc]
  have htext : Lexeme.ofText text = _ := (ofText text).scan_eq_scanned_append (k + 1)
  rw [hscanned, List.append_assoc, List.cons_append] at htext
  obtain ⟨site, hsite⟩ := Site.exists_lexeme htext hx
  exact ⟨_, site, hscanned, hsite⟩

end Reader

/-- The lines of a text are reported as they are. -/
structure Lined (text : String) : Prop where
  /-- The items of the text are what the calls give. -/
  items : (Stream.ofText text).items =
    (List.range ((Stream.ofText text).count + 1)).map (Reader.ofText text).item
  /-- Every token is reported with the line of the place where it is spelt. It comes from what is
  read there, the last thing that its call reads. -/
  token (k : Nat) (heof : ((Reader.ofText text).item k).token ≠ .eof)
    (hcancel : ((Reader.ofText text).item k).token ≠ .cancel) :
    ∃ earlier, ∃ site : Site text earlier,
      (Reader.ofText text).scanned (k + 1) = earlier ++ [site.lexeme] ∧
      ((Reader.ofText text).item k).token.Begins site.chars ∧
      ((Reader.ofText text).item k).line = site.line
  /-- Every comment is noted with the line of the place where it is read. -/
  comment (k : Nat) (body : String) (line : Nat)
    (hnote : .comment body line ∈ ((Reader.ofText text).item k).notes) :
    ∃ earlier later, ∃ site : Site text earlier,
      (Reader.ofText text).scanned (k + 1) = earlier ++ site.lexeme :: later ∧
      site.lexeme.kind = .comment body ∧ (LexemeKind.comment body).Begins site.chars ∧
      line = site.line
  /-- The lines do not decrease. -/
  ordered {j k : Nat} (hjk : j ≤ k) :
    ((Reader.ofText text).item j).line ≤ ((Reader.ofText text).item k).line

namespace Stream

/-- In every text, tokens and comments are reported with the lines on which they begin. -/
theorem lines_of_text (text : String) : Lined text := by
  let r := Reader.ofText text
  constructor
  case items =>
    obtain ⟨n, -, hitems, -⟩ := r.exists_end
    have hcount : (ofText text).count = n := by
      change r.items.length - 1 = n
      rw [hitems, List.length_map, List.length_range, Nat.add_sub_cancel]
    rw [hcount]
    exact hitems
  case token =>
    intro k heof hcancel
    obtain ⟨passed, x, hreads, hline, htoken⟩ := Reader.exists_readsFrom_concat heof
    have hx := Nesting.kind_ne_newline htoken hcancel
    obtain ⟨earlier, site, hscanned, rfl, hsite, hbegins⟩ := Reader.exists_site hreads hx
    exact ⟨earlier, site, hscanned, Nesting.begins_token htoken hx hbegins, hline.symm.trans hsite⟩
  case comment =>
    intro k body line hnote
    rw [Reader.item, Reader.notes_next] at hnote
    obtain ⟨passed, x, later, hreads, hkind, rfl⟩ := Nesting.comment_mem_notesOf hnote
    obtain ⟨earlier, site, hscanned, rfl, hsite, hbegins⟩ :=
      Reader.exists_site hreads (by simp [hkind])
    exact ⟨earlier, later, site, hscanned, hkind, hkind ▸ hbegins, hsite⟩
  case ordered => exact fun hjk ↦ Reader.line_item_le (Reader.ordered_ofText text) hjk

-- Line ends of all three kinds in a comment, in a literal, between tokens and before a directive.
example : (ofText "x /*\r\n*/ L\"s\\\nt\" \\\r y\r # include <z>").items.map
    (fun item ↦ (item.token, item.line)) =
      [(.ident "x", 1), (.string "st", 2), (.ident "y", 4), (.angledInclude "z", 5),
        (.eof, 5)] := by
  decide +kernel

end Stream

end Harvest
