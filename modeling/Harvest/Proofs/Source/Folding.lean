import Harvest.Proofs.Source.Lines

/-!
# Physical and logical characters

Two physical texts may have the same logical characters: the continued lines need not be broken at
the same places, and a line end may be written in three ways. The readers of lexemes look at the
logical characters and at nothing else, except that a colon remembers what comes first in the
physical text after it.

Each reader commutes with a change of glyphs that keeps their characters (from `skip_map` on). Main
statements: two texts with the same logical characters have the same lexemes, but for their lines
(`Lexeme.Blends.map_view_scan`), and what the second reading makes of lexemes does not depend on
their lines (`Nesting.map_unplaced_items`).
-/

namespace Harvest

namespace Token

/-- The token with another look ahead. -/
def peek (look : Ahead → Ahead) : Token → Token
  | colon ahead => colon (look ahead)
  | t => t

@[simp]
theorem peek_id (t : Token) : t.peek id = t := by
  cases t <;> rfl

end Token

namespace Lexeme

/-- The lexeme on another line and with another look ahead. -/
def view (look : Ahead → Ahead) (place : Nat → Nat) (x : Lexeme) : Lexeme where
  kind :=
    match x.kind with
    | .token t => .token (t.peek look)
    | kind => kind
  line := place x.line
  fault := x.fault

theorem view_id (x : Lexeme) : x.view id id = x := by
  obtain ⟨kind, line, fault⟩ := x
  cases kind <;> simp [view]

/-- The lexeme without its place in the physical text. -/
def unplaced (x : Lexeme) : Lexeme := x.view (fun _ ↦ .nothing) (fun _ ↦ 0)

namespace Read

/-- The same lexeme, with the characters after it changed. -/
def map (f : Glyph → Glyph) (r : Read) : Read := { r with rest := r.rest.map f }

/-- What is read, as a lexeme on `line`. -/
def lexeme (r : Read) (line : Nat) : Lexeme := ⟨r.kind, line, r.fault⟩

end Read

end Lexeme

namespace Note

/-- The note without the line it names. -/
def unplaced : Note → Note
  | comment body _ => comment body 0
  | problem _ kind message => problem 0 kind message
  | note => note

end Note

namespace Item

/-- The item without its line and without the look ahead of a colon. -/
def unplaced (item : Item) : Item where
  notes := item.notes.map Note.unplaced
  token := item.token.peek fun _ ↦ .nothing
  line := 0
  depths := item.depths

end Item

namespace Stream

/-- The events of a text without their places in it: tokens, depths and notes in their order. -/
def unplaced (s : Stream) : Stream := ⟨s.items.map Item.unplaced, s.trailing.map Note.unplaced⟩

end Stream

namespace Lexeme

section Chars

variable {f : Glyph → Glyph} (hchar : ∀ g, (f g).char = g.char)

include hchar

theorem skip_map (p : Char → Bool) (gs : List Glyph) : skip p (gs.map f) = (skip p gs).map f := by
  simp only [skip, List.dropWhile_map, Function.comp_def, hchar]

theorem take_map (p : Char → Bool) (gs : List Glyph) : take p (gs.map f) = take p gs := by
  simp only [take, List.takeWhile_map, Function.comp_def, hchar, List.map_map]

theorem char?_map (gs : List Glyph) : char? (gs.map f) = char? gs := by
  cases gs with
  | nil => rfl
  | cons g gs => simp [char?, hchar]

theorem blockBody_map (gs : List Glyph) :
    blockBody (gs.map f) = (blockBody gs).map id (Prod.map id (List.map f)) := by
  induction gs with
  | nil => rfl
  | cons g gs ih =>
    rw [List.map_cons, blockBody, blockBody, hchar, char?_map hchar, ih]
    split
    · simp only [Prod.map_apply, id_eq, List.map_tail]
    · rfl

theorem skipLine_map (gs : List Glyph) :
    skipLine (gs.map f) = (skipLine gs).map id (List.map f) := by
  fun_induction skipLine gs with
  | case1 => rw [List.map_nil, skipLine]; rfl
  | case2 g gs hnewline =>
    rw [List.map_cons, skipLine, hchar, if_pos hnewline]
    rfl
  | case3 g gs hnewline hline =>
    rw [List.map_cons, skipLine, hchar, if_neg hnewline, char?_map hchar, if_pos hline,
      skip_map hchar, ← List.map_tail]
    rfl
  | case4 g gs hnewline hline hblock hclosed ih =>
    rw [List.map_cons, skipLine, hchar, if_neg hnewline, char?_map hchar, if_neg hline,
      if_pos hblock, ← List.map_tail, blockBody_map hchar]
    simpa only [Prod.map_fst, Prod.map_snd, id_eq, if_pos hclosed] using ih
  | case5 g gs hnewline hline hblock hclosed =>
    rw [List.map_cons, skipLine, hchar, if_neg hnewline, char?_map hchar, if_neg hline,
      if_pos hblock, ← List.map_tail, blockBody_map hchar]
    simp only [Prod.map_fst, Prod.map_snd, id_eq, if_neg hclosed]
    rfl
  | case6 g gs hnewline hline hblock ih =>
    rw [List.map_cons, skipLine, hchar, if_neg hnewline, char?_map hchar, if_neg hline,
      if_neg hblock, ih]

theorem macroHead_map (gs : List Glyph) :
    macroHead (gs.map f) = (macroHead gs).map id (List.map f) := by
  simp only [macroHead, skip_map hchar, char?_map hchar, ← List.map_tail, ← apply_ite (List.map f),
    Prod.map_apply, id_eq]

theorem includeToken_map (gs : List Glyph) :
    includeToken (gs.map f) = (includeToken gs).map id (List.map f) := by
  simp only [includeToken, skip_map hchar, char?_map hchar, take_map hchar, ← List.map_tail,
    ← apply_ite (List.map f)]
  split <;> rfl

theorem lineOf_map (d : Directive) (gs : List Glyph) :
    lineOf d (gs.map f) = (lineOf d gs).map f := by
  rw [lineOf, skipLine_map hchar]
  rfl

theorem directive_map (gs : List Glyph) : directive (gs.map f) = (directive gs).map f := by
  simp only [directive, skip_map hchar, char?_map hchar, ← List.map_tail, macroHead_map hchar,
    includeToken_map hchar, lineOf_map hchar]
  split
  · rcases macroHead (skip isGap gs).tail with ⟨_ | _, rest⟩ <;> rfl
  · split
    · rfl
    · rcases includeToken (skip isGap gs).tail.tail with ⟨_ | t, rest⟩
      · exact lineOf_map hchar .other rest
      · rfl
    · rfl
  · split <;> rfl
  · rfl

theorem rawBody_map (delimiter body : List Char) (held : Option (List Char × List Char))
    (gs : List Glyph) :
    rawBody delimiter body held (gs.map f) =
      (rawBody delimiter body held gs).map id (Prod.map id (List.map f)) := by
  induction gs generalizing body held with
  | nil => rfl
  | cons g gs ih =>
    simp only [List.map_cons, rawBody, hchar, char?_map hchar, ih]
    split
    · split
      · simp only [Prod.map_apply, id_eq, List.map_tail]
      · rfl
    · split_ifs <;> simp only [Prod.map_apply, id_eq, List.map_tail]

theorem rawString_map (gs : List Glyph) : rawString (gs.map f) = (rawString gs).map f := by
  simp only [rawString, take_map hchar, skip_map hchar, ← List.map_tail, rawBody_map hchar]
  rfl

theorem stringBody_map (gs : List Glyph) :
    stringBody (gs.map f) = (stringBody gs).map id (List.map f) := by
  fun_induction stringBody gs with
  | case1 => rfl
  | case2 g hends => simp [stringBody, hchar, hends]
  | case3 g _ hescape => simp [stringBody, hchar, hescape]
  | case4 g hends hescape => simp [stringBody, hchar, hends, hescape]
  | case5 g e gs hends => simp [stringBody, hchar, hends]
  | case6 g e gs _ hescape hnewline => simp [stringBody, hchar, hescape, hnewline]
  | case7 g e gs _ hescape hnewline body rest hbody ih =>
    simp [stringBody, hchar, hescape, hnewline, ih, hbody]
  | case8 g e gs hends hescape body rest hbody ih =>
    rw [List.map_cons] at ih
    simp [stringBody, hchar, hends, hescape, ih, hbody]

theorem string_map (gs : List Glyph) : string (gs.map f) = (string gs).map f := by
  simp only [string, stringBody_map hchar, Prod.map_fst, Prod.map_snd, id_eq, char?_map hchar]
  split
  · simp only [Read.map, List.map_tail]
  · rfl

theorem skipCharacter_map (gs : List Glyph) :
    skipCharacter (gs.map f) = (skipCharacter gs).map id (List.map f) := by
  induction gs with
  | nil => rfl
  | cons g gs ih =>
    simp only [List.map_cons, skipCharacter, hchar, char?_map hchar, ih]
    split_ifs <;> simp only [Prod.map_apply, id_eq, List.map_tail, List.map_cons]

theorem character_map (gs : List Glyph) : character (gs.map f) = (character gs).map f := by
  simp only [character, char?_map hchar, ← List.map_tail, ← apply_ite (List.map f),
    skipCharacter_map hchar]
  rfl

theorem word_map (gs : List Glyph) : word (gs.map f) = (word gs).map f := by
  simp only [word, take_map hchar, skip_map hchar, char?_map hchar, ← List.map_tail,
    rawString_map hchar]
  split
  · rfl
  · split
    · rfl
    · split_ifs <;> rfl

theorem comment_map (gs : List Glyph) : comment (gs.map f) = (comment gs).map f := by
  simp only [comment, char?_map hchar, ← List.map_tail, take_map hchar, skip_map hchar,
    blockBody_map hchar]
  split <;> rfl

theorem afterZero_map (gs : List Glyph) : afterZero (gs.map f) = (afterZero gs).map f := by
  simp only [afterZero, char?_map hchar, ← List.map_tail, skip_map hchar]
  split
  · rfl
  · split_ifs <;> rfl

/-- A colon aside, the character that begins a lexeme and those after it decide what is read. -/
theorem punctuation_map {c : Char} (hc : c ≠ ':') (gs : List Glyph) :
    punctuation c (gs.map f) = (punctuation c gs).map f := by
  unfold punctuation
  split
  case h_2 => exact comment_map hchar gs
  case h_3 => exact string_map hchar gs
  case h_4 => simp only [char?_map hchar, ← List.map_tail]; split_ifs <;> rfl
  case h_5 => contradiction
  case h_9 => exact character_map hchar gs
  case h_19 => exact afterZero_map hchar gs
  case h_20 => simp only [skip_map hchar]; split_ifs <;> rfl
  all_goals rfl

end Chars

/-- A change of glyphs that cannot be told from the lexemes, as far as `look` and `place` tell two
look aheads and two lines apart. -/
structure Blends (look : Ahead → Ahead) (place : Nat → Nat) (f : Glyph → Glyph) : Prop where
  char : ∀ g, (f g).char = g.char
  leads : ∀ g, (f g).leads = g.leads
  line : ∀ g, place (f g).line = place g.line
  ahead : ∀ gs, look (ahead (gs.map f)) = look (ahead gs)

variable {look : Ahead → Ahead} {place : Nat → Nat} {f : Glyph → Glyph}

theorem Blends.view_lexeme_punctuation (hf : Blends look place f) (c : Char) (gs : List Glyph)
    {line line' : Nat} (hline : place line' = place line) :
    ((punctuation c (gs.map f)).lexeme line').view look place =
        ((punctuation c gs).lexeme line).view look place ∧
      (punctuation c (gs.map f)).rest = (punctuation c gs).rest.map f := by
  by_cases hc : c = ':'
  · subst hc
    simp only [punctuation, char?_map hf.char, ← List.map_tail]
    split
    · simp [Read.lexeme, view, hline]
    · simp [Read.lexeme, view, hline, Token.peek, hf.ahead]
  · rw [punctuation_map hf.char hc]
    simp [Read.lexeme, Read.map, view, hline]

/-- What is read from changed glyphs is the same, and so is what follows it, up to the change. -/
theorem Blends.view_lexeme_next (hf : Blends look place f) (g : Glyph) (gs : List Glyph) :
    ((next (f g) (gs.map f)).lexeme (f g).line).view look place =
        ((next g gs).lexeme g.line).view look place ∧
      (next (f g) (gs.map f)).rest = (next g gs).rest.map f := by
  unfold next
  rw [hf.char, hf.leads, ← List.map_cons]
  split
  · rw [directive_map hf.char]
    simp [Read.lexeme, Read.map, view, hf.line]
  · split
    · rw [word_map hf.char]
      simp [Read.lexeme, Read.map, view, hf.line]
    · exact hf.view_lexeme_punctuation g.char gs (hf.line g)

theorem Blends.map_view_scan (hf : Blends look place f) (gs : List Glyph) :
    (scan (gs.map f)).map (view look place) = (scan gs).map (view look place) := by
  fun_induction scan gs with
  | case1 => rw [List.map_nil, scan]
  | case2 g gs read ih =>
    obtain ⟨hview, hrest⟩ := hf.view_lexeme_next g gs
    rw [List.map_cons, scan, hrest, List.map_cons, List.map_cons, ih]
    exact congrArg (· :: _) hview

end Lexeme

namespace Glyph

/-- The glyph without its place in the physical text. -/
def unplaced (g : Glyph) : Glyph := { g with line := 0, rest := [] }

/-- Whether a directive may begin at a character is decided by the characters before it. -/
theorem Follow.map_unplaced_eq {leads : Bool} {gs gs' : List Glyph} (h : Follow leads gs)
    (h' : Follow leads gs') (hchars : gs.map char = gs'.map char) :
    gs.map unplaced = gs'.map unplaced := by
  induction gs generalizing leads gs' with
  | nil => rw [List.map_eq_nil_iff.1 hchars.symm]
  | cons g gs ih =>
    cases gs' with
    | nil => cases hchars
    | cons g' gs' =>
      obtain ⟨hchar, hchars⟩ := List.cons.inj hchars
      have hleads : g.leads = g'.leads := by rw [h.1, h'.1, hchar]
      rw [List.map_cons, List.map_cons, ih h.2 (hleads ▸ h'.2) hchars]
      simp only [unplaced, hchar, hleads]

theorem blends_unplaced : Lexeme.Blends (fun _ ↦ .nothing) (fun _ ↦ 0) unplaced where
  char _ := rfl
  leads _ := rfl
  line _ := rfl
  ahead _ := rfl

-- The look ahead is left out: it passes over one physical character, which may continue a line.
example : Lexeme.ahead (read 1 false ['a', ';', '\x7b']) = .leftBrace ∧
    Lexeme.ahead (read 1 false ['a', '\\', '\n', ';', '\x7b']) = .semicolon := by decide

/-- The text with every line end written as a single newline. -/
def unifyEnds : List Char → List Char
  | [] => []
  | '\r' :: '\n' :: rest => '\n' :: unifyEnds rest
  | '\r' :: rest => '\n' :: unifyEnds rest
  | c :: rest => c :: unifyEnds rest

theorem unifyEnds_return {rest : List Char} (h : ∀ rest', rest ≠ '\n' :: rest') :
    unifyEnds ('\r' :: rest) = '\n' :: unifyEnds rest := by
  rw [unifyEnds]
  simpa using h

theorem unifyEnds_cons {c : Char} (hc : c ≠ '\r') (rest : List Char) :
    unifyEnds (c :: rest) = c :: unifyEnds rest := by
  rw [unifyEnds] <;> simp [hc]

theorem lineEnd_of_unifyEnds {cs rest : List Char} {c : Char} (h : unifyEnds cs = c :: rest)
    (hc : c = '\n' ∨ c = '\r') : ∃ rest', cs = '\n' :: rest' ∨ cs = '\r' :: rest' := by
  fun_cases unifyEnds cs with
  | case1 => cases h
  | case2 rest' => exact ⟨_, .inr rfl⟩
  | case3 rest' _ => exact ⟨_, .inr rfl⟩
  | case4 c' rest' _ hreturn =>
    rw [unifyEnds_cons hreturn] at h
    obtain ⟨rfl, -⟩ := List.cons.inj h
    exact ⟨rest', .inl (by rw [hc.resolve_right hreturn])⟩

/-- The glyph with the line ends after it written as single newlines. -/
def unified (g : Glyph) : Glyph := { g with rest := unifyEnds g.rest }

theorem read_unifyEnds (line : Nat) (leads : Bool) (cs : List Char) :
    read line leads (unifyEnds cs) = (read line leads cs).map unified := by
  fun_induction read line leads cs with
  | case1 => rfl
  | case2 line leads rest ih => simp [unifyEnds, read, ih]
  | case3 line leads rest ih => simp [unifyEnds, read, ih]
  | case4 line leads rest hrest ih =>
    rw [unifyEnds_cons (by decide), unifyEnds_return hrest, read, ih]
  | case5 line leads rest ih => simp [unifyEnds, read, ih, unified]
  | case6 line leads rest hrest ih =>
    rw [unifyEnds_return hrest, read, ih]
    rfl
  | case7 line leads rest ih => simp [unifyEnds, read, ih, unified]
  | case8 line leads c rest hnewline _ hreturn _ hc hc' ih =>
    -- a backslash stays one that continues no line
    have hfree (d : Char) (rest' : List Char) (hd : d = '\n' ∨ d = '\r') (hslash : c = '\\') :
        unifyEnds rest ≠ d :: rest' := by
      intro h
      obtain ⟨rest'', rfl | rfl⟩ := lineEnd_of_unifyEnds h hd
      · exact hnewline rest'' hslash rfl
      · exact hreturn rest'' hslash rfl
    rw [unifyEnds_cons hc, read, ih]
    · rfl
    · exact fun rest' hslash ↦ hfree '\n' rest' (.inl rfl) hslash
    · exact fun rest' hslash ↦ hfree '\r' _ (.inr rfl) hslash
    · exact fun rest' hslash ↦ hfree '\r' rest' (.inr rfl) hslash
    · exact fun rest' h ↦ absurd h hc
    · exact hc
    · exact hc'

theorem firstOf_unifyEnds (cs : List Char) : Lexeme.firstOf (unifyEnds cs) = Lexeme.firstOf cs := by
  fun_induction unifyEnds cs with
  | case1 => rfl
  | case2 rest ih => simpa [Lexeme.firstOf] using ih
  | case3 rest _ ih => simpa [Lexeme.firstOf] using ih
  | case4 c rest _ _ ih => simp only [Lexeme.firstOf, ih]

theorem blends_unified : Lexeme.Blends id id unified where
  char _ := rfl
  leads _ := rfl
  line _ := rfl
  ahead gs := by
    cases gs with
    | nil => rfl
    | cons g gs =>
      change Lexeme.firstOf ((unifyEnds g.rest).drop 1) = Lexeme.firstOf (g.rest.drop 1)
      fun_cases unifyEnds g.rest with
      | case1 => rfl
      | case2 rest => simpa [Lexeme.firstOf] using firstOf_unifyEnds rest
      | case3 rest => exact firstOf_unifyEnds rest
      | case4 c rest => exact firstOf_unifyEnds rest

end Glyph

namespace Nesting

/-- What is open, without the lines on which it was opened. -/
def unplaced (n : Nesting) : Nesting :=
  { n with
    outermost := ⟨0, 0, 0⟩
    conditionals := n.conditionals.map fun c ↦ { c with line := 0 } }

/-- The effect without lines. -/
def Effect.unplaced (e : Effect) : Effect where
  nesting := e.nesting.unplaced
  notes := e.notes.map Note.unplaced
  token := e.token.map (Token.peek fun _ ↦ .nothing)

@[simp]
theorem unplaced_unplaced (n : Nesting) : n.unplaced.unplaced = n.unplaced := by
  simp [unplaced]

theorem openDelimiter_unplaced (n : Nesting) (d : Delimiter) (line : Nat) :
    (n.unplaced.openDelimiter d 0).unplaced = (n.openDelimiter d line).unplaced := by
  have hraised : n.unplaced.raised d = n.raised d := rfl
  unfold openDelimiter
  rw [hraised]
  simp [Effect.unplaced, unplaced]

theorem closeDelimiter_unplaced (n : Nesting) (d : Delimiter) (line : Nat) :
    (n.unplaced.closeDelimiter d 0).unplaced = (n.closeDelimiter d line).unplaced := by
  have hfloor : n.unplaced.floor = n.floor := rfl
  have hdepths : n.unplaced.depths = n.depths := rfl
  have hbody : n.unplaced.macroBody = n.macroBody := rfl
  have hunderflows : n.unplaced.underflows = n.underflows := rfl
  cases d
  all_goals
    simp only [closeDelimiter, hfloor, hdepths, hbody, hunderflows]
    split_ifs <;> simp [Effect.unplaced, Note.unplaced, unplaced]

theorem endLine_unplaced (n : Nesting) : (n.unplaced.endLine).unplaced = n.endLine.unplaced := by
  have hbody : n.unplaced.macroBody = n.macroBody := rfl
  unfold endLine
  rw [hbody]
  cases n.macroBody <;> simp [Effect.unplaced, unplaced]

theorem alternative_unplaced (n : Nesting) (line : Nat) :
    (n.unplaced.alternative 0).map unplaced (List.map Note.unplaced) =
      (n.alternative line).map unplaced (List.map Note.unplaced) := by
  rcases h : n.conditionals with _ | ⟨c, outer⟩
  · simp [alternative, unplaced, h]
  · rcases hfirst : c.first with _ | ⟨ended, slot⟩
    · simp [alternative, unplaced, h, hfirst]
    · simp only [alternative, unplaced, h, hfirst, List.map_cons]
      split_ifs <;> simp [unplaced, Note.unplaced]

theorem endConditional_unplaced (n : Nesting) :
    n.unplaced.endConditional.map unplaced (List.map Note.unplaced) =
      n.endConditional.map unplaced (List.map Note.unplaced) := by
  rcases h : n.conditionals with _ | ⟨c, outer⟩
  · simp [endConditional, unplaced, h]
  · rcases hfirst : c.first with _ | ⟨ended, slot⟩
    · simp [endConditional, unplaced, h, hfirst]
    · simp only [endConditional, unplaced, h, hfirst, List.map_cons]
      split_ifs <;> simp [unplaced, Note.unplaced]

theorem directive_unplaced (n : Nesting) (d : Directive) (line : Nat) :
    (n.unplaced.directive d 0).map unplaced (List.map Note.unplaced) =
      (n.directive d line).map unplaced (List.map Note.unplaced) := by
  cases d with
  | conditional => simp [directive, unplaced]
  | alternative => exact n.alternative_unplaced line
  | conditionalEnd => exact n.endConditional_unplaced
  | macroBody => simp [directive, unplaced]
  | other => simp [directive]

/-- Where a lexeme stands decides nothing but the lines that its notes name. -/
theorem step_unplaced (n : Nesting) (x : Lexeme) :
    (n.unplaced.step x.unplaced).unplaced = (n.step x).unplaced := by
  obtain ⟨kind, line, fault⟩ := x
  cases kind with
  | passed =>
    cases fault <;> simp [step, Lexeme.unplaced, Lexeme.view, Effect.unplaced, Note.unplaced]
  | newline => exact n.endLine_unplaced
  | token t =>
    have ht : (t.peek fun _ ↦ .nothing).peek (fun _ ↦ .nothing) = t.peek fun _ ↦ .nothing := by
      cases t <;> rfl
    cases fault <;> simp [step, Lexeme.unplaced, Lexeme.view, Effect.unplaced, Note.unplaced, ht]
  | opening d => exact n.openDelimiter_unplaced d line
  | closing d => exact n.closeDelimiter_unplaced d line
  | comment body =>
    cases fault <;> simp [step, Lexeme.unplaced, Lexeme.view, Effect.unplaced, Note.unplaced]
  | directive d =>
    have h := n.directive_unplaced d line
    simp only [Prod.map, Prod.mk.injEq] at h
    cases fault <;>
      simp [step, Lexeme.unplaced, Lexeme.view, Effect.unplaced, Note.unplaced, h]

theorem step_congr {n n' : Nesting} {x x' : Lexeme} (hn : n.unplaced = n'.unplaced)
    (hx : x.unplaced = x'.unplaced) : (n.step x).unplaced = (n'.step x').unplaced := by
  rw [← step_unplaced n, ← step_unplaced n', hn, hx]

theorem depths_of_unplaced {n n' : Nesting} (h : n.unplaced = n'.unplaced) : n.depths = n'.depths :=
  (Nesting.mk.inj h).1

theorem map_unplaced_items {n n' : Nesting} {notes notes' : List Note} {xs xs' : List Lexeme}
    (line line' : Nat) (hn : n.unplaced = n'.unplaced)
    (hnotes : notes.map Note.unplaced = notes'.map Note.unplaced)
    (hxs : xs.map Lexeme.unplaced = xs'.map Lexeme.unplaced) :
    (items n notes line xs).map Item.unplaced = (items n' notes' line' xs').map Item.unplaced := by
  induction xs generalizing n n' notes notes' xs' line line' with
  | nil =>
    rw [List.map_eq_nil_iff.1 hxs.symm]
    simp [items, Item.unplaced, hnotes, depths_of_unplaced hn]
  | cons x xs ih =>
    cases xs' with
    | nil => cases hxs
    | cons x' xs' =>
      obtain ⟨hx, hxs⟩ := List.cons.inj hxs
      have hstep := step_congr hn hx
      have hnesting : (n.step x).nesting.unplaced = (n'.step x').nesting.unplaced :=
        congrArg Effect.nesting hstep
      have hmore : (notes ++ (n.step x).notes).map Note.unplaced =
          (notes' ++ (n'.step x').notes).map Note.unplaced := by
        rw [List.map_append, List.map_append, hnotes]
        exact congrArg _ (congrArg Effect.notes hstep)
      have htoken := congrArg Effect.token hstep
      simp only [Effect.unplaced] at htoken
      rw [items, items]
      rcases ht : (n.step x).token with _ | t <;> rcases ht' : (n'.step x').token with _ | t' <;>
        rw [ht, ht'] at htoken
      · exact ih _ _ hnesting hmore hxs
      · cases htoken
      · cases htoken
      · simp only [Option.map_some, Option.some.injEq] at htoken
        simp only [List.map_cons, ih x.line x'.line hnesting rfl hxs]
        simp only [Item.unplaced, hmore, depths_of_unplaced hnesting, htoken]

theorem unplaced_after {n n' : Nesting} {xs xs' : List Lexeme} (hn : n.unplaced = n'.unplaced)
    (hxs : xs.map Lexeme.unplaced = xs'.map Lexeme.unplaced) :
    (n.after xs).unplaced = (n'.after xs').unplaced := by
  induction xs generalizing n n' xs' with
  | nil =>
    rw [List.map_eq_nil_iff.1 hxs.symm]
    exact hn
  | cons x xs ih =>
    cases xs' with
    | nil => cases hxs
    | cons x' xs' =>
      obtain ⟨hx, hxs⟩ := List.cons.inj hxs
      have hnesting : (n.step x).nesting.unplaced = (n'.step x').nesting.unplaced :=
        congrArg Effect.nesting (step_congr hn hx)
      change ((n.step x).nesting.after xs).unplaced = ((n'.step x').nesting.after xs').unplaced
      exact ih hnesting hxs

theorem map_unplaced_unbalanced {n n' : Nesting} (hn : n.unplaced = n'.unplaced) :
    n.unbalanced.map Note.unplaced = n'.unbalanced.map Note.unplaced := by
  simp only [unbalanced, depths_of_unplaced hn]
  split_ifs <;> rfl

end Nesting

namespace Stream

open Glyph

theorem unplaced_ofLexemes {xs xs' : List Lexeme}
    (hxs : xs.map Lexeme.unplaced = xs'.map Lexeme.unplaced) :
    (ofLexemes xs).unplaced = (ofLexemes xs').unplaced := by
  have hitems : (Nesting.items {} [] 1 xs).map Item.unplaced =
      (Nesting.items {} [] 1 xs').map Item.unplaced := Nesting.map_unplaced_items 1 1 rfl rfl hxs
  have hafter : (Nesting.after {} xs).unplaced = (Nesting.after {} xs').unplaced :=
    Nesting.unplaced_after rfl hxs
  simp only [ofLexemes, unplaced, hitems, Nesting.map_unplaced_unbalanced hafter]

/-- The events of a text depend on its logical characters alone: two texts with the same ones have
the same tokens, depths and notes, at whatever places. If the texts differ in nothing but how their
lines end, the places are the same too. -/
theorem ofText_of_logical (a b : String) :
    ((Glyph.ofText a).map Glyph.char = (Glyph.ofText b).map Glyph.char →
        (ofText a).unplaced = (ofText b).unplaced) ∧
      (unifyEnds a.toList = unifyEnds b.toList → ofText a = ofText b) := by
  constructor
  · intro hchars
    have hglyphs : (Glyph.ofText a).map Glyph.unplaced = (Glyph.ofText b).map Glyph.unplaced :=
      (follow_read 1 true a.toList).map_unplaced_eq (follow_read 1 true b.toList) hchars
    apply unplaced_ofLexemes
    calc (Lexeme.scan (Glyph.ofText a)).map Lexeme.unplaced
        = (Lexeme.scan ((Glyph.ofText a).map Glyph.unplaced)).map Lexeme.unplaced :=
          (blends_unplaced.map_view_scan _).symm
      _ = (Lexeme.scan ((Glyph.ofText b).map Glyph.unplaced)).map Lexeme.unplaced := by rw [hglyphs]
      _ = (Lexeme.scan (Glyph.ofText b)).map Lexeme.unplaced := blends_unplaced.map_view_scan _
  · intro hends
    have hscan (text : String) :
        Lexeme.scan (Glyph.ofText text) = Lexeme.scan (read 1 true (unifyEnds text.toList)) := by
      have h := blends_unified.map_view_scan (Glyph.ofText text)
      rw [funext Lexeme.view_id, List.map_id', List.map_id', Glyph.ofText, ← read_unifyEnds] at h
      exact h.symm
    rw [ofText, ofText, hscan a, hscan b, hends]

/-- A directive that is continued, and line ends of all styles. -/
theorem ofText_of_logical_continued :
    (Glyph.ofText "#define A \\\r\n (\r// c\r\n#else").map Glyph.char =
        (Glyph.ofText "#def\\\nine A  (\n// c\n#\\\relse").map Glyph.char ∧
      (ofText "#define A \\\r\n (\r// c\r\n#else").unplaced =
        (ofText "#def\\\nine A  (\n// c\n#\\\relse").unplaced ∧
      unifyEnds "#define A \\\r\n (\r// c\r\n#else".toList =
        unifyEnds "#define A \\\n (\n// c\r#else".toList ∧
      ofText "#define A \\\r\n (\r// c\r\n#else" = ofText "#define A \\\n (\n// c\r#else" := by
  have hchars : (Glyph.ofText "#define A \\\r\n (\r// c\r\n#else").map Glyph.char =
      (Glyph.ofText "#def\\\nine A  (\n// c\n#\\\relse").map Glyph.char := by decide
  have hends : unifyEnds "#define A \\\r\n (\r// c\r\n#else".toList =
      unifyEnds "#define A \\\n (\n// c\r#else".toList := by decide
  exact ⟨hchars, (ofText_of_logical _ _).1 hchars, hends, (ofText_of_logical _ _).2 hends⟩

end Stream

end Harvest
