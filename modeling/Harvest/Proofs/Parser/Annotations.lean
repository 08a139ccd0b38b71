import Harvest.Proofs.Parser.Counting
import Harvest.Proofs.Source.Literals
import Harvest.Proofs.Text.Seams

/-!
# Literals in a row

A long text is written as several literals, one after the other. A call decodes each of them and
puts the results together. The annotation `//% "…" "…"` before a call by id puts the bodies together
as they are, and the call decodes the whole. So the two may differ where something goes on over the
seam between two bodies.

Main statement: what a call by id makes of the literals of its argument and of those in the
annotation before it, and when the two readings of a row agree (`Parser.turn_annotatedCall`).
-/

namespace Harvest

/-- Literals with these bodies stand in a row, with blanks before each of them. -/
inductive Row (blank : Char → Bool) : List LiteralBody → List Char → Prop
  | nil : Row blank [] []
  | cons {b : LiteralBody} {bs : List LiteralBody} {gap cs : List Char}
      (hgap : gap.all blank = true) (hbs : Row blank bs cs) :
      Row blank (b :: bs) (gap ++ '"' :: (b.text.toList ++ '"' :: cs))

/-- A blank between the tokens of a call. -/
def isTokenGap (c : Char) : Bool := Lexeme.isSpace c && c ≠ '\r'

/-- A blank between the literals of an annotation, which stands on one line. -/
def isAnnotationGap (c : Char) : Bool := c = ' ' || c = '\t' || c = '\x0c'

namespace LiteralBody

def token (b : LiteralBody) : Token := .string b.text

/-- What a call makes of a row: each body is decoded for itself. -/
def callText (bs : List LiteralBody) : String :=
  String.join (bs.map fun b ↦ Text.Escape.decode b.text)

/-- The bodies of a row as they are written. -/
def joined (bs : List LiteralBody) : String := String.join (bs.map LiteralBody.text)

/-- What a call makes of the row in the annotation before it: all bodies are decoded as one. -/
def annotationText (bs : List LiteralBody) : String := Text.Escape.decode (joined bs)

/-- No numeric escape of a body goes on in the bodies after it. -/
def escapesWhole (bs : List LiteralBody) : Bool :=
  Text.Escape.escapesWhole (bs.map fun b ↦ b.text.toList)

/-- No character of a body goes on in the bodies after it. -/
def charactersWhole (bs : List LiteralBody) : Bool :=
  Text.Escape.charactersWhole (bs.map fun b ↦ b.text.toList)

theorem annotationText_eq_callText_iff {bs : List LiteralBody} (h : escapesWhole bs = true) :
    annotationText bs = callText bs ↔ charactersWhole bs = true := by
  have hjoined : (joined bs).toList = (bs.map fun b ↦ b.text.toList).flatten := by
    rw [joined, String.toList_join, List.flatMap_map, List.flatMap_def]
  have hcall : (callText bs).toList = (bs.map fun b ↦ b.text.toList).flatMap
      fun cs ↦ Text.Utf8.decode (Text.Escape.bytes cs) := by
    rw [callText, String.toList_join, List.flatMap_map, List.flatMap_map]
    simp only [Text.Escape.toList_decode]
  rw [← String.toList_inj, hcall, annotationText, Text.Escape.toList_decode, hjoined]
  exact Text.Escape.decode_flatten_eq_iff h

end LiteralBody

open LiteralBody

variable {bs : List LiteralBody} {cs gap rest : List Char}

theorem not_mem_of_row (h : Row isAnnotationGap bs cs) : '\n' ∉ cs := by
  induction h with
  | nil => simp
  | @cons b bs gap cs hgap hbs ih =>
    have hbody := (not_mem_of_isBody b.valid).1
    have hblank : '\n' ∉ gap := fun hmem ↦ absurd (List.all_eq_true.1 hgap _ hmem) (by decide)
    simp [hblank, hbody, ih]

namespace Lexeme

/-- The literals of a row are tokens. -/
theorem scans_row (h : Row isTokenGap bs cs) {gs : List Glyph}
    (hgs : gs.map Glyph.char = cs ++ rest) :
    ∃ left, Scans gs (bs.map token) left ∧ left.map Glyph.char = rest := by
  induction h generalizing gs with
  | nil => exact ⟨gs, .nil gs, hgs⟩
  | @cons b bs gap cs hgap hbs ih =>
    rw [List.append_assoc] at hgs
    obtain ⟨gs', hblank, hgs'⟩ := scans_spacing hgap hgs
    rw [List.cons_append, List.append_assoc, List.cons_append] at hgs'
    obtain ⟨g, tail, rfl, -⟩ := List.map_eq_cons_iff.1 hgs'
    obtain ⟨left, hnext, hleft⟩ := next_literal b.valid hgs'
    rw [String.ofList_toList] at hnext
    obtain ⟨left', hrest, hleft'⟩ := ih hleft
    exact ⟨left', hblank.trans (.token hnext hrest), hleft'⟩

/-- A comment that begins with two slashes goes up to the end of its line, which belongs to it, but
is left. -/
theorem next_lineComment {g : Glyph} {gs : List Glyph} {body : List Char} (hbody : '\n' ∉ body)
    (hgs : (g :: gs).map Glyph.char = '/' :: '/' :: (body ++ '\n' :: rest)) :
    ∃ left, next g gs = ⟨.comment (String.ofList (body ++ ['\n'])), none, left⟩ ∧
      left.map Glyph.char = '\n' :: rest := by
  obtain ⟨hg, htail⟩ := List.cons.inj hgs
  obtain ⟨g', gs, rfl, hg', htail⟩ := List.map_eq_cons_iff.1 htail
  have hline : ∀ c ∈ body, decide (c ≠ '\n') = true := by
    intro c hc
    rw [decide_eq_true_iff]
    rintro rfl
    exact hbody hc
  obtain ⟨htake, hskip⟩ := take_skip_of_append htail hline (by simp)
  have hend : char? (skip (· ≠ '\n') gs) = some '\n' := by
    rw [char?_eq_head?, hskip]
    rfl
  have hcomment : next g (g' :: gs) = comment (g' :: gs) := by
    simp [next, hg, isWordStart, punctuation]
  refine ⟨skip (· ≠ '\n') gs, ?_, hskip⟩
  rw [hcomment]
  simp only [comment, char?, List.head?_cons, Option.map_some, hg', List.tail_cons]
  simp only [char?] at hend
  rw [htake, hend]
  rfl

end Lexeme

namespace Remark

theorem quotedTexts_blank (hgap : gap.all isAnnotationGap = true) (rest : List Char) :
    quotedTexts false (gap ++ rest) = quotedTexts false rest := by
  induction gap with
  | nil => rfl
  | cons c gap ih =>
    obtain ⟨hc, hgap⟩ := Bool.and_eq_true_iff.1 (List.all_cons ▸ hgap)
    have hspace : isAsciiSpace c = true := by
      simp only [isAnnotationGap, Bool.or_eq_true, decide_eq_true_eq] at hc
      rcases hc with (rfl | rfl) | rfl <;> rfl
    rw [List.cons_append, quotedTexts.eq_def]
    simp [hspace, ih hgap]

/-- A quotation is taken as it is written, up to its closing quote. -/
theorem quotedTexts_body {body : List Char} (hbody : isBody body = true) (rest : List Char) :
    quotedTexts true (body ++ '"' :: rest) =
      (body ++ (quotedTexts false rest).1, (quotedTexts false rest).2) := by
  fun_induction isBody body with
  | case1 =>
    rw [List.nil_append, quotedTexts.eq_def]
    rfl
  | case2 e body ih =>
    simp only [Bool.and_eq_true, decide_eq_true_eq] at hbody
    simp [quotedTexts, hbody.1.1, ih hbody.2]
  | case3 c body _ ih =>
    obtain ⟨hc, hbody⟩ := Bool.and_eq_true_iff.1 hbody
    simp only [Token.isLiteralChar, Bool.and_eq_true, decide_eq_true_eq] at hc
    rw [List.cons_append, quotedTexts.eq_def]
    simp [hc, ih hbody]

theorem quotedTexts_row (h : Row isAnnotationGap bs cs) (hgap : gap.all isAnnotationGap = true) :
    quotedTexts false (cs ++ (gap ++ ['\n'])) = ((joined bs).toList, []) := by
  induction h with
  | nil => rw [List.nil_append, quotedTexts_blank hgap]; rfl
  | @cons b bs gap' cs hgap' hbs ih =>
    have hopening (cs : List Char) : quotedTexts false ('"' :: cs) = quotedTexts true cs := by
      rw [quotedTexts.eq_def]
      rfl
    rw [List.append_assoc, quotedTexts_blank hgap', List.cons_append, List.append_assoc,
      List.cons_append, hopening, quotedTexts_body b.valid, ih]
    simp [joined, String.join_cons]

/-- The row of an annotation is put together as it is written. -/
theorem parse?_row (h : Row isAnnotationGap bs cs) (hgap : gap.all isAnnotationGap = true) :
    parse? (String.ofList ('%' :: ' ' :: (cs ++ (gap ++ ['\n'])))) =
      some (.sourceText (joined bs) []) := by
  rw [parse?, String.toList_ofList]
  simp [quotedTexts_row h hgap, show Text.isBlank ' ' = true by decide]

end Remark

/-- The text of an annotation with the bodies of a row and, on a later line, of the call of `word`
whose argument is the row of the ids. -/
inductive AnnotatedText (bs : List LiteralBody) (word : Identifier) (ids : List LiteralBody) :
    List Char → Prop
  | intro {lead row gap head argument closing : List Char} (hlead : isSpacing lead = true)
      (hrow : Row isAnnotationGap bs row) (hgap : gap.all isAnnotationGap = true)
      (hhead : Composed false [.word word, .opening] head)
      (hargument : Row isTokenGap ids argument)
      (hclosing : Composed false [.closing] closing) :
      AnnotatedText bs word ids
        (lead ++ '/' :: '/' :: '%' :: ' ' ::
          (row ++ (gap ++ '\n' :: (head ++ (argument ++ closing)))))

/-- The plainest text of a row: a blank before each literal. -/
def spacedRow (bs : List LiteralBody) : List Char :=
  bs.flatMap fun b ↦ ' ' :: '"' :: (b.text.toList ++ ['"'])

theorem row_spacedRow {blank : Char → Bool} (hblank : blank ' ' = true) (bs : List LiteralBody) :
    Row blank bs (spacedRow bs) := by
  induction bs with
  | nil => exact .nil
  | cons b bs ih =>
    have hstep : Row blank (b :: bs) ([' '] ++ '"' :: (b.text.toList ++ '"' :: spacedRow bs)) :=
      .cons (by simp [hblank]) ih
    simpa [spacedRow] using hstep

/-- The plainest text of an annotation and a call. -/
def spacedAnnotated (bs : List LiteralBody) (word : Identifier) (ids : List LiteralBody) :
    List Char :=
  "//% ".toList ++ (spacedRow bs ++ '\n' ::
    (spacedPieces [.word word, .opening] ++
      (spacedRow ids ++ spacedPieces [.closing])))

theorem annotatedText_spacedAnnotated (bs : List LiteralBody) (word : Identifier)
    (ids : List LiteralBody) : AnnotatedText bs word ids (spacedAnnotated bs word ids) :=
  @AnnotatedText.intro bs word ids [] _ [] _ _ _ rfl (row_spacedRow rfl bs) rfl
    (composed_spacedPieces _ _) (row_spacedRow rfl ids) (composed_spacedPieces _ _)

/-- The tokens after the name of a call whose argument is a row. -/
def argumentTokens (ids : List LiteralBody) : List Token :=
  .opening .paren :: (ids.map token ++ [.closing .paren])

theorem balanced_argumentTokens (ids : List LiteralBody) :
    Depths.Balanced (argumentTokens ids) := by
  refine .delimited .paren ?_ Depths.balanced_nil
  induction ids with
  | nil => exact Depths.balanced_nil
  | cons b ids ih => exact .cons (fun _ ↦ rfl) (by simp [token]) ih

namespace Nesting

variable {n : Nesting} {gs : List Glyph}

/-- What was noted before comes with the first item. -/
theorem items_append_notes (n : Nesting) (before notes : List Note) (line : Nat)
    (xs : List Lexeme) :
    n.items (before ++ notes) line xs =
      (n.items notes line xs).modifyHead fun i ↦ { i with notes := before ++ i.notes } := by
  induction xs generalizing n notes line with
  | nil => rfl
  | cons x xs ih =>
    rw [items, items]
    cases (n.step x).token with
    | none => rw [List.append_assoc]; exact ih _ _ _
    | some t => rw [List.append_assoc]; rfl

/-- Blanks before a lexeme leave no trace but its line. -/
theorem items_of_spacing (houtside : n.macroBody = none) (hgap : isSpacing gap = true)
    (hgs : gs.map Glyph.char = gap ++ rest) (line : Nat) :
    ∃ gs' line', gs'.map Glyph.char = rest ∧
      n.items [] line (Lexeme.scan gs) = n.items [] line' (Lexeme.scan gs') := by
  induction gap generalizing gs line with
  | nil => exact ⟨gs, line, hgs, rfl⟩
  | cons c gap ih =>
    obtain ⟨g, gs, rfl, rfl, htail⟩ := List.map_eq_cons_iff.1 hgs
    simp only [isSpacing, List.all_cons, Bool.and_eq_true, decide_eq_true_eq] at hgap
    obtain ⟨gs', line', hgs', hitems⟩ := ih hgap.2 htail g.line
    refine ⟨gs', line', hgs', ?_⟩
    rw [← hitems, Lexeme.scan]
    rcases Lexeme.next_blank gs hgap.1.1 hgap.1.2 with hnext | hnext
    · simp [items, hnext, step_blank (x := ⟨.passed, g.line, none⟩) houtside rfl (.inl rfl)]
    · simp [items, hnext, step_blank (x := ⟨.newline, g.line, none⟩) houtside rfl (.inr rfl)]

end Nesting

variable {ids : List LiteralBody} {word : Identifier}

/-- The name of an annotated call comes with the annotation, and its argument without notes. -/
theorem Reader.items_of_annotatedText (r : Reader) (houtside : r.nesting.macroBody = none)
    (htext : AnnotatedText bs word ids cs) (hleft : r.left.map Glyph.char = cs ++ rest) :
    ∃ body written line is r', Remark.parse? body = some (.sourceText (joined bs) []) ∧
      r.items = ⟨[.comment body written], .ident word.word, line, r.nesting.depths⟩ ::
        (is ++ Reader.items r') ∧
      Carries r.nesting.depths (argumentTokens ids) is ∧ r'.left.map Glyph.char = rest := by
  obtain ⟨hlead, hrow, hgap, hhead, hargument, hclosing⟩ := htext
  rename_i lead row gap head argument closing
  let noted : List Char := '%' :: ' ' :: (row ++ gap)
  have hline : '\n' ∉ noted := by
    have hblank : '\n' ∉ gap := fun hmem ↦ absurd (List.all_eq_true.1 hgap _ hmem) (by decide)
    simp [noted, not_mem_of_row hrow, hblank]
  rw [List.append_assoc] at hleft
  obtain ⟨gs, line, hgs, hitems⟩ := Nesting.items_of_spacing houtside hlead hleft r.line
  -- The comment goes up to the end of its line.
  have hcomment : gs.map Glyph.char =
      '/' :: '/' :: (noted ++ '\n' :: (head ++ (argument ++ (closing ++ rest)))) := by
    simpa [noted] using hgs
  obtain ⟨g, gs, rfl, -⟩ := List.map_eq_cons_iff.1 hcomment
  obtain ⟨left, hnext, hafter⟩ := Lexeme.next_lineComment hline hcomment
  have hstep : r.nesting.items [] line (Lexeme.scan (g :: gs)) =
      r.nesting.items [.comment (String.ofList (noted ++ ['\n'])) g.line] g.line
        (Lexeme.scan left) := by
    rw [Lexeme.scan, hnext]
    rfl
  -- The call is read from the next line on.
  have hbreak : isSpacing ['\n'] = true := rfl
  obtain ⟨gs₁, hnewline, hgs₁⟩ := Lexeme.scans_spacing hbreak hafter
  obtain ⟨gs₂, hname, hgs₂⟩ :=
    Piece.scans_of_composed hhead hgs₁ (by simp [Piece.opening, Piece.isWord, Token.isWord])
  obtain ⟨gs₃, hrows, hgs₃⟩ := Lexeme.scans_row hargument hgs₂
  obtain ⟨gs₄, hclose, hgs₄⟩ :=
    Piece.scans_of_composed hclosing hgs₃ (by simp [Piece.closing, Piece.isWord, Token.isWord])
  have hscans : Scans left (.ident word.word :: argumentTokens ids) gs₄ := by
    simpa [argumentTokens, Piece.tokens, Piece.word, Piece.opening, Piece.closing] using
      hnewline.trans (hname.trans (hrows.trans hclose))
  have hbalanced : Depths.Balanced (.ident word.word :: argumentTokens ids) :=
    .cons (fun _ ↦ rfl) (by simp) (balanced_argumentTokens ids)
  have hbrace : .opening .brace ∉ .ident word.word :: argumentTokens ids := by
    simp [argumentTokens, LiteralBody.token]
  obtain ⟨is, r', hcall, ⟨place, is, rfl, hcarries⟩, hend⟩ :=
    Nesting.items_of_scans hscans g.line houtside (fun hmem ↦ absurd hmem hbrace)
      (hbalanced r.nesting.depths).1
  have hparse : Remark.parse? (String.ofList (noted ++ ['\n'])) =
      some (.sourceText (joined bs) []) := by
    simpa [noted] using Remark.parse?_row hrow hgap
  refine ⟨_, g.line, place, is, r', hparse, ?_, hcarries, hend ▸ hgs₄⟩
  rw [Reader.items, hitems, hstep, ← List.append_nil [Note.comment _ _], Nesting.items_append_notes,
    hcall]
  rfl

namespace Parser

variable {p : Parser} {t : Token} {us : List Token}

theorem literals_of_ahead (ht : ∀ body, t ≠ .string body ∧ t ≠ .rawString body)
    (hahead : p.ahead = bs.map LiteralBody.token ++ t :: us) {n : Nat} (hn : bs.length ≤ n) :
    literals n p = (if bs = [] then none else some (callText bs), advance^[bs.length] p) := by
  induction bs generalizing p n with
  | nil =>
    have htoken : p.token = t := token_of_ahead hahead
    cases n with
    | zero => rfl
    | succ n =>
      rw [literals]
      split
      · rename_i body hstring
        exact absurd (htoken.symm.trans hstring) (ht body).1
      · rename_i body hstring
        exact absurd (htoken.symm.trans hstring) (ht body).2
      · rfl
  | cons b bs ih =>
    obtain ⟨n, rfl⟩ := Nat.exists_eq_add_one_of_ne_zero (Nat.ne_zero_of_lt hn)
    have htoken : p.token = .string b.text := token_of_ahead hahead
    have hnext : p.advance.ahead = bs.map LiteralBody.token ++ t :: us :=
      ahead_advance_of_ne_nil hahead (by simp)
    rw [literals, htoken]
    simp only [ih hnext (Nat.le_of_succ_le_succ hn)]
    cases bs with
    | nil => simp [callText]
    | cons b' bs => simp [callText, String.join_cons]

/-- The literals that are ahead, up to another token, are one text. -/
theorem text?_of_ahead (hbs : bs ≠ []) (ht : ∀ body, t ≠ .string body ∧ t ≠ .rawString body)
    (hahead : p.ahead = bs.map LiteralBody.token ++ t :: us) :
    p.text? = (some (callText bs), advance^[bs.length] p) := by
  have hlength : bs.length ≤ p.budget := by
    have h := congrArg List.length hahead
    simp only [ahead, List.length_cons, List.length_map, List.length_append] at h
    rw [budget]
    omega
  rw [text?, literals_of_ahead ht hahead hlength, if_neg hbs]

/-- The message of a call by id. -/
def idMessage (p : Parser) (text id : String) (plural : Bool) (line : Nat) : Message :=
  { context := ""
    sourceText := text
    comment := ""
    extraComment := shownComment p.remarks.extraComment
    id
    extras := p.remarks.extras
    plural
    kind := .translation
    file := p.file.text
    line }

/-- The messages after a call by id. A call without an id is dropped. -/
def withIdMessage (p : Parser) (text id : String) (plural : Bool) (line : Nat) : Array Message :=
  if id = "" then p.messages else p.messages.push (p.idMessage text id plural line)

/-- The argument of a call by id and what follows from it. -/
def idRead (p : Parser) (plural : Bool) : Parser :=
  match p.advance.text? with
  | (none, q) => q.forgetRemarks
  | (some id, q) =>
    if id = "" then q.forgetRemarks
    else
      let (counted, q) := q.eat .comma
      let q := { q with remarks := { q.remarks with id } }
      (q.record p.line "" (Text.Escape.decode q.remarks.sourceText) ""
        (plural || counted)).forgetRemarks

/-- A remark that is of no use for the call is reported first, and nothing else changes. -/
theorem trIdCall_eq (p : Parser) (plural : Bool) :
    ∃ p' : Parser, p'.rest = p.rest ∧ p'.token = p.token ∧ p'.line = p.line ∧ p'.ledger = p.ledger ∧
      p.trIdCall plural = p'.idRead plural := by
  by_cases hid : p.remarks.id = ""
  · refine ⟨p, rfl, rfl, rfl, rfl, ?_⟩
    rw [trIdCall, if_pos hid]
    rfl
  · refine ⟨p.report .ignoredRemark
      "//= cannot be used with qtTrId() / QT_TRID_NOOP(). Ignoring", rfl, rfl, rfl, rfl, ?_⟩
    rw [trIdCall, if_neg hid]
    rfl

/-- The message is added and the remarks are forgotten, at the same place. -/
theorem record_id_spec (q : Parser) (text id : String) (plural : Bool) (line : Nat) :
    let recorded :=
      (record { q with remarks := { q.remarks with id } } line "" text "" plural).forgetRemarks
    recorded.messages = q.messages.push (q.idMessage text id plural line) ∧
      recorded.token = q.token ∧ recorded.rest = q.rest :=
  ⟨rfl, rfl, rfl⟩

/-- A call by id takes its id from its argument and its text from the remarks. -/
theorem trIdCall_of_ahead (plural : Bool) (hids : ids ≠ [])
    (hahead : p.ahead = argumentTokens ids ++ us)
    (hsilent : ∀ i ∈ p.rest.take (ids.length + 1), i.notes = []) :
    let q := p.trIdCall plural
    q.messages = p.withIdMessage (Text.Escape.decode p.remarks.sourceText) (callText ids) plural
        p.line ∧
      q.token = .closing .paren ∧ q.rest = p.rest.drop (ids.length + 1) := by
  intro q
  obtain ⟨p', hrest, htoken, hline, hledger, hq⟩ := p.trIdCall_eq plural
  have hahead' : p'.ahead =
      .opening .paren :: (ids.map LiteralBody.token ++ .closing .paren :: us) := by
    rw [ahead, hrest, htoken, ← ahead]
    simpa [argumentTokens] using hahead
  have hargument : p'.advance.ahead = ids.map LiteralBody.token ++ .closing .paren :: us :=
    ahead_advance_of_ne_nil hahead' (by simp)
  have htext : p'.advance.text? = (some (callText ids), advance^[ids.length + 1] p') :=
    text?_of_ahead hids (by simp) hargument
  have hclosing : (advance^[ids.length + 1] p').token = .closing .paren := by
    have hafter := ahead_iterate_advance hargument (List.cons_ne_nil _ _)
    rw [List.length_map] at hafter
    exact token_of_ahead hafter
  have heat : (advance^[ids.length + 1] p').eat .comma = (false, advance^[ids.length + 1] p') := by
    rw [eat, if_neg (by rw [hclosing]; simp)]
  have hstays : (advance^[ids.length + 1] p').ledger = p.ledger :=
    (ledger_iterate_advance (hrest ▸ hsilent)).trans hledger
  have hplace : (advance^[ids.length + 1] p').rest = p.rest.drop (ids.length + 1) := by
    rw [rest_iterate_advance, hrest]
  simp only [ledger, Prod.mk.injEq] at hstays
  obtain ⟨hmessages, hremarks, hfile⟩ := hstays
  rw [show q = _ from hq, idRead, htext]
  simp only [heat, Bool.or_false]
  by_cases hempty : callText ids = ""
  · rw [withIdMessage, if_pos hempty, if_pos hempty]
    exact ⟨hmessages, hclosing, hplace⟩
  · rw [withIdMessage, if_neg hempty, if_neg hempty]
    obtain ⟨hadded, hcurrent, hleft⟩ := record_id_spec (advance^[ids.length + 1] p')
      (Text.Escape.decode p.remarks.sourceText) (callText ids) plural p.line
    rw [hline, hremarks]
    rw [hremarks] at hadded hcurrent hleft
    refine ⟨hadded.trans ?_, hcurrent.trans hclosing, hleft.trans hplace⟩
    simp only [idMessage, hmessages, hremarks, hfile]

/-- The row of an annotation is kept for the next call. -/
theorem note_row {body text : String} {line : Nat} (hexpected : p.remarksExpected = true)
    (hsource : p.remarks.sourceText = "")
    (hparse : Remark.parse? body = some (.sourceText text [])) :
    p.note (.comment body line) = { p with remarks := { p.remarks with sourceText := text } } := by
  simp [note, hexpected, hparse, remark, hsource]

/-- At an annotation with a row of literals and a call by id after it, the parser goes on to the name
of the call, and the next turn records one message and ends behind the closing parenthesis. The id
of the message is what every call makes of the literals in its argument: each is decoded for itself.
Its text is the decoding of the bodies in the annotation as one. If no numeric escape goes on over a
seam of that row, a call would read it in the same way exactly if no character does. -/
theorem turn_annotatedCall (includer : Includer) (p : Parser) (r : Reader) (hrest : p.rest = r.items)
    (houtside : r.nesting.macroBody = none) (hexpected : p.remarksExpected = true)
    (hsource : p.remarks.sourceText = "") {kind : Call}
    (hkind : p.options.calls.lookup word.word = some kind) (hshape : kind.shape = .trId)
    (hlevel : (p.advance.depths.bracket > 0 && p.advance.atNamespaceLevel) = false)
    (hids : ids ≠ []) (htext : AnnotatedText bs word ids cs)
    (hleft : r.left.map Glyph.char = cs ++ rest) :
    p.advance.token = .ident word.word ∧
      (∃ q : Parser, p.advance.turn includer = q.advance ∧
        q.messages = p.withIdMessage (annotationText bs) (callText ids) kind.forcesPlural
          (r.item 1).line ∧
        q.token = .closing .paren ∧
        ∃ r' : Reader, q.rest = r'.items ∧ r'.left.map Glyph.char = rest) ∧
      (∀ (q : Parser) (t : Token) (us : List Token),
        (∀ body, t ≠ .string body ∧ t ≠ .rawString body) →
        q.ahead = ids.map LiteralBody.token ++ t :: us →
        q.text? = (some (callText ids), advance^[ids.length] q)) ∧
      (escapesWhole bs = true → (annotationText bs = callText bs ↔ charactersWhole bs = true)) := by
  obtain ⟨body, written, line, is, r', hparse, hitems, hcarries, hleft'⟩ :=
    r.items_of_annotatedText houtside htext hleft
  have hnow : p.advance = { p with
      remarks := { p.remarks with sourceText := joined bs }
      rest := is ++ r'.items, token := .ident word.word, line, depths := r.nesting.depths } := by
    rw [advance, hrest, hitems]
    simp only [List.foldl_cons, List.foldl_nil, note_row hexpected hsource hparse]
  obtain ⟨place, is, rfl, hcarries⟩ := hcarries
  have hplace : (r.item 1).line = place := by
    rw [r.items_eq] at hitems
    obtain ⟨hfirst, hmore⟩ := List.cons.inj hitems
    rw [if_neg (by simp [hfirst]), Reader.items_eq] at hmore
    exact congrArg Item.line (List.cons.inj hmore).1
  have hopening : p.advance.advance.token = .opening .paren := by
    rw [token_advance, hnow]
    rfl
  have hword : p.advance.token = .ident word.word := by rw [hnow]
  have hoptions : p.advance.options = p.options := by rw [hnow]
  obtain ⟨p', hrest', hledger, hident⟩ := onIdent_of_call hopening (hoptions ▸ hkind)
  have hturn : p.advance.turn includer = (p'.advance.trIdCall kind.forcesPlural).advance := by
    have hcall : p'.advance.call kind = p'.advance.trIdCall kind.forcesPlural := by
      rw [call, hshape]
    rw [turn, if_neg (by simp [hlevel]), hword, ← hcall]
    exact hident
  have hnext : p'.advance = { p' with
      rest := is ++ r'.items, token := .opening .paren, line := place
      depths := r.nesting.depths.after (.opening .paren) } := by
    rw [advance, hrest', hnow]
    rfl
  have hahead : p'.advance.ahead = argumentTokens ids ++ r'.items.map Item.token := by
    rw [ahead, hnext]
    simp only [List.map_append, carries_tokens hcarries]
    rfl
  have hlength : is.length = ids.length + 1 := by
    rw [carries_length hcarries, List.length_append, List.length_map, List.length_singleton]
  have hdrop : p'.advance.rest = is ++ r'.items := by rw [hnext]
  obtain ⟨hmessages, htoken, hend⟩ := trIdCall_of_ahead kind.forcesPlural hids hahead <| by
    rw [hdrop, ← hlength, List.take_left]
    exact carries_notes hcarries
  refine ⟨hword, ⟨_, hturn, ?_, htoken, r', ?_, hleft'⟩, ?_, annotationText_eq_callText_iff⟩
  · -- Between the annotation and the call nothing but the place has changed.
    have hstays : p'.ledger = (p.messages, { p.remarks with sourceText := joined bs }, p.file) := by
      rw [hledger, hnow]
      rfl
    simp only [ledger, Prod.mk.injEq] at hstays
    obtain ⟨hbefore, hremarks, hfile⟩ := hstays
    rw [hmessages, hnext, hplace]
    simp only [withIdMessage, idMessage, hbefore, hremarks, hfile]
    rfl
  · rw [hend, hdrop, ← hlength, List.drop_left]
  · exact fun q t us ht hq ↦ text?_of_ahead hids ht hq

/-- A character written as two octal numbers, a hexadecimal number, and a letter that is no digit. -/
def wholeRow : List LiteralBody :=
  [⟨"\\303\\251", by decide⟩, ⟨"\\x41", by decide⟩, ⟨"z", by decide⟩]

def idWord : Identifier := ⟨"qtTrId", by decide⟩

def wholeText : String := String.ofList (spacedAnnotated wholeRow idWord wholeRow ++ [';'])

/-- A parser before the first token of a text. -/
def atStart (text : String) : Parser := start {} {} ⟨"main.cpp"⟩ text false [] 0 #[] {}

/-- The same row in an annotation and in a call, where nothing goes on over a seam. -/
theorem turn_annotatedCall_whole :
    escapesWhole wholeRow = true ∧ charactersWhole wholeRow = true ∧
      annotationText wholeRow = callText wholeRow ∧
      ∃ q : Parser, (atStart wholeText).advance.turn (fun _ p ↦ p) = q.advance ∧
        q.messages = #[(atStart wholeText).idMessage "éAz" "éAz" false 2] ∧
        q.token = .closing .paren := by
  have hescapes : escapesWhole wholeRow = true := by decide +kernel
  have hcharacters : charactersWhole wholeRow = true := by decide +kernel
  have hkind : (atStart wholeText).options.calls.lookup idWord.word = some .qtTrId := by
    decide +kernel
  obtain ⟨-, ⟨q, hturn, hmessages, htoken, -⟩, -, hagree⟩ :=
    turn_annotatedCall (fun _ p ↦ p) (atStart wholeText) (Reader.ofText wholeText) rfl rfl rfl rfl
      hkind rfl (by decide +kernel) (by simp [wholeRow])
      (annotatedText_spacedAnnotated wholeRow idWord wholeRow) (by decide +kernel : _ = _ ++ [';'])
  refine ⟨hescapes, hcharacters, (hagree hescapes).2 hcharacters, q, hturn, ?_, htoken⟩
  rw [hmessages, show annotationText wholeRow = "éAz" by decide +kernel,
    show callText wholeRow = "éAz" by decide +kernel,
    show ((Reader.ofText wholeText).item 1).line = 2 by decide +kernel]
  rfl

/-- A hexadecimal number that takes a letter of the next literal, and a character whose bytes are in
two literals. -/
theorem annotation_over_seams :
    let texts := fun source ↦ (({} : Extractor).extractSource ⟨"main.cpp"⟩ source).1.messages.map
      fun m ↦ (m.id, m.sourceText)
    texts "//% \"\\x41\" \"B\"\nqtTrId(\"\\x41\" \"B\");" = [("AB", "\x1b")] ∧
      texts "//% \"\\303\" \"\\251\"\nqtTrId(\"\\303\" \"\\251\");" = [("��", "é")] := by
  decide +kernel

end Parser

end Harvest
