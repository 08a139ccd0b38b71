import Harvest.Proofs.Source.Macros
import Harvest.Proofs.Source.Pulling

/-!
# Delimiters

How deep a text is nested can be said without a reader: of each kind of delimiter, a closing one is
matched if more have been opened before it than matched closing ones have come, and what is open is
the difference of the two numbers. A closing delimiter without a partner is a stray one.

Main statement: in a text without directives the depths after each token are these differences,
every stray delimiter is reported, once, and what is still open at the end is reported there
(`Stream.delimiters_of_text`).
-/

namespace Harvest

/-- The delimiters of one kind among some lexemes: how many of them open, and how many close what one
of those has opened. -/
structure Pairing where
  openings : Nat := 0
  matched : Nat := 0
deriving DecidableEq

namespace Pairing

/-- The delimiters of a kind, with one more lexeme. A closing delimiter is matched if the openings
before it outnumber the matched closings before it. -/
def next (d : Delimiter) (p : Pairing) (x : Lexeme) : Pairing :=
  if x.kind = .opening d then { p with openings := p.openings + 1 }
  else if x.kind = .closing d ∧ p.matched < p.openings then { p with matched := p.matched + 1 }
  else p

def ofLexemes (d : Delimiter) (xs : List Lexeme) : Pairing := xs.foldl (next d) {}

theorem ofLexemes_concat (d : Delimiter) (xs : List Lexeme) (x : Lexeme) :
    ofLexemes d (xs ++ [x]) = (ofLexemes d xs).next d x := by
  rw [ofLexemes, List.foldl_append]
  rfl

end Pairing

/-- A report of a closing delimiter that has no partner. -/
def Note.isExcess : Note → Bool
  | problem _ kind _ => kind = .excessClosingDelimiter
  | _ => false

namespace Lexeme

/-- The kind of delimiter that the lexeme closes without a partner among those before it. -/
def stray? (before : List Lexeme) (x : Lexeme) : Option Delimiter :=
  match x.kind with
  | .closing d =>
    if (Pairing.ofLexemes d before).matched < (Pairing.ofLexemes d before).openings then none
    else some d
  | _ => none

/-- The report that a stray delimiter calls for. -/
def strayNotes (before : List Lexeme) (x : Lexeme) : List Note :=
  ((stray? before x).map fun d ↦
    Note.problem x.line .excessClosingDelimiter (Nesting.excessMessage d)).toList

/-- The reports that the stray delimiters among some lexemes call for. -/
def reports (before : List Lexeme) : List Lexeme → List Note
  | [] => []
  | x :: xs => strayNotes before x ++ reports (before ++ [x]) xs

theorem filter_isExcess_faultNotes (x : Lexeme) : x.faultNotes.filter Note.isExcess = [] := by
  rw [faultNotes]
  cases x.fault with
  | none => rfl
  | some f => cases f <;> rfl

end Lexeme

namespace Nesting

variable {n : Nesting} {before xs : List Lexeme} {x : Lexeme} {d : Delimiter}

/-- What is open after the lexemes `before`, none of which is a directive. -/
structure Tallies (n : Nesting) (before : List Lexeme) : Prop where
  macroBody : n.macroBody = none
  unwrapped : n.wrapped = false
  depth (d : Delimiter) :
    n.depths.get d + (Pairing.ofLexemes d before).matched = (Pairing.ofLexemes d before).openings

theorem tallies_nil : ({} : Nesting).Tallies [] where
  macroBody := rfl
  unwrapped := rfl
  depth d := by cases d <;> rfl

theorem Tallies.least (h : n.Tallies before) (d : Delimiter) : n.least d = 0 := by
  cases d <;> simp [Nesting.least, floor, h.macroBody]

theorem Tallies.counted (h : n.Tallies before) : n.Counted where
  unwrapped := h.unwrapped
  floor_le := by simp [floor, h.macroBody]

theorem Tallies.underflows (h : n.Tallies before) : n.underflows = false :=
  underflows_of_floor_le h.counted.floor_le

/-- A closing delimiter has a partner if something of its kind is open. -/
theorem Tallies.stray? (h : n.Tallies before) (hx : x.kind = .closing d) :
    Lexeme.stray? before x = if n.depths.get d = 0 then some d else none := by
  have hdepth := h.depth d
  simp only [Lexeme.stray?, hx]
  by_cases hzero : n.depths.get d = 0
  · rw [if_pos hzero, if_neg (by omega)]
  · rw [if_neg hzero, if_pos (by omega)]

theorem tallies_step (h : n.Tallies before) (hx : ∀ e, x.kind ≠ .directive e) :
    (n.step x).nesting.Tallies (before ++ [x]) where
  macroBody := by
    rw [macroBody_step, if_neg (hx .macroBody), h.macroBody]
    split_ifs <;> rfl
  unwrapped := (h.counted.step fun e he ↦ absurd he (hx e)).unwrapped
  depth d := by
    have hdepth := h.depth d
    rw [Pairing.ofLexemes_concat, Pairing.next]
    cases hkind : x.kind with
    | directive e => exact absurd hkind (hx e)
    | opening e =>
      rw [get_opening hkind fun _ ↦ h.unwrapped]
      by_cases he : d = e
      · simp only [he, if_true] at hdepth ⊢
        omega
      · simpa [he, Ne.symm he] using hdepth
    | closing e =>
      rw [get_closing hkind fun _ ↦ h.counted.floor_le, h.least]
      by_cases he : d = e
      · subst he
        simp only [reduceCtorEq, if_false, true_and, apply_ite Pairing.matched,
          apply_ite Pairing.openings]
        split_ifs <;> omega
      · simpa [he, Ne.symm he] using hdepth
    | newline => simpa [step, hkind, endLine, h.macroBody] using hdepth
    | _ => simpa [step, hkind] using hdepth

theorem filter_isExcess_step (h : n.Tallies before) (hx : ∀ e, x.kind ≠ .directive e) :
    (n.step x).notes.filter Note.isExcess = Lexeme.strayNotes before x := by
  have hfault := x.filter_isExcess_faultNotes
  rw [Lexeme.faultNotes] at hfault
  rw [Lexeme.strayNotes]
  cases hkind : x.kind with
  | directive e => exact absurd hkind (hx e)
  | closing d =>
    rw [h.stray? hkind]
    cases d
    all_goals
      simp only [step, hkind, closeDelimiter, floor, h.macroBody, h.underflows, Depths.get]
      split_ifs <;> simp_all [Note.isExcess]
  | newline => simp [step, hkind, endLine, h.macroBody, Lexeme.stray?]
  | opening d => simp [step, hkind, openDelimiter, Lexeme.stray?]
  | comment body =>
    simp only [step, hkind, Lexeme.stray?, List.filter_append, hfault]
    rfl
  | passed =>
    simp only [step, hkind, Lexeme.stray?, hfault]
    rfl
  | token t =>
    simp only [step, hkind, Lexeme.stray?, hfault]
    rfl

/-- A stray brace counts as a semicolon; all other closing delimiters are tokens of their own. -/
theorem token_closing (h : n.Tallies before) (hx : x.kind = .closing d) :
    (n.step x).token =
      some (if Lexeme.stray? before x = some .brace then .semicolon else .closing d) := by
  rw [h.stray? hx]
  cases d <;>
    simp only [step, hx, closeDelimiter, floor, h.macroBody, h.underflows, Depths.get] <;>
      split_ifs <;> simp_all

/-- Each opening delimiter is a token, and among the closing braces those with a partner are. -/
theorem count_step (h : n.Tallies before) (hx : ∀ e, x.kind ≠ .directive e)
    (hspelt : ∀ e, x.kind ≠ .token (.opening e) ∧ x.kind ≠ .token (.closing e)) :
    (∀ d, (Pairing.ofLexemes d (before ++ [x])).openings =
        (Pairing.ofLexemes d before).openings + (n.step x).token.toList.count (.opening d)) ∧
      (Pairing.ofLexemes .brace (before ++ [x])).matched =
        (Pairing.ofLexemes .brace before).matched +
          (n.step x).token.toList.count (.closing .brace) := by
  simp only [Pairing.ofLexemes_concat, Pairing.next]
  cases hkind : x.kind with
  | directive e => exact absurd hkind (hx e)
  | token t =>
    simp only [hkind, ne_eq, LexemeKind.token.injEq] at hspelt
    simp [step, hkind, hspelt]
  | opening e =>
    simp only [step, hkind, openDelimiter, Option.toList_some, List.count_singleton]
    grind
  | closing e =>
    rw [token_closing h hkind, h.stray? hkind]
    have hdepth := h.depth .brace
    cases e <;> simp only [Option.toList_some, List.count_singleton] <;> grind
  | newline => simp [step, hkind, endLine, h.macroBody]
  | passed => simp [step, hkind]
  | comment body => simp [step, hkind]

theorem tallies_after (h : n.Tallies before) (hxs : ∀ x ∈ xs, ∀ e, x.kind ≠ .directive e) :
    (n.after xs).Tallies (before ++ xs) := by
  induction xs generalizing n before with
  | nil => rwa [List.append_nil]
  | cons x xs ih =>
    obtain ⟨hx, hxs⟩ := List.forall_mem_cons.1 hxs
    rw [after_cons, List.append_cons]
    exact ih (tallies_step h hx) hxs

theorem filter_isExcess_notesOf (h : n.Tallies before)
    (hxs : ∀ x ∈ xs, ∀ e, x.kind ≠ .directive e) :
    (n.notesOf xs).filter Note.isExcess = Lexeme.reports before xs := by
  induction xs generalizing n before with
  | nil => rfl
  | cons x xs ih =>
    obtain ⟨hx, hxs⟩ := List.forall_mem_cons.1 hxs
    rw [notesOf, List.filter_append, filter_isExcess_step h hx, ih (tallies_step h hx) hxs]
    rfl

theorem count_tokensOf (h : n.Tallies before) (hxs : ∀ x ∈ xs, ∀ e, x.kind ≠ .directive e)
    (hspelt : ∀ x ∈ xs, ∀ e, x.kind ≠ .token (.opening e) ∧ x.kind ≠ .token (.closing e)) :
    (∀ d, (Pairing.ofLexemes d (before ++ xs)).openings =
        (Pairing.ofLexemes d before).openings + (n.tokensOf xs).count (.opening d)) ∧
      (Pairing.ofLexemes .brace (before ++ xs)).matched =
        (Pairing.ofLexemes .brace before).matched + (n.tokensOf xs).count (.closing .brace) := by
  induction xs generalizing n before with
  | nil => simp [tokensOf]
  | cons x xs ih =>
    obtain ⟨hx, hxs⟩ := List.forall_mem_cons.1 hxs
    obtain ⟨hxspelt, hspelt⟩ := List.forall_mem_cons.1 hspelt
    obtain ⟨hopening, hclosing⟩ := count_step h hx hxspelt
    obtain ⟨hopenings, hclosings⟩ := ih (tallies_step h hx) hxs hspelt
    simp only [List.append_cons before x xs, tokensOf, List.count_append]
    refine ⟨fun d ↦ ?_, ?_⟩
    · rw [hopenings, hopening, Nat.add_assoc]
    · rw [hclosings, hclosing, Nat.add_assoc]

/-- What is left open is reported once, whatever it is. -/
theorem unbalanced_cases (n : Nesting) :
    (∀ d, n.depths.get d = 0) ∧ n.unbalanced = [] ∨
      ∃ d, n.depths.get d ≠ 0 ∧ n.unbalanced =
        [.problem (n.outermost.get d) .unbalancedOpeningDelimiter (unbalancedMessage d)] := by
  simp only [unbalanced]
  split_ifs with hbrace hparen hbracket
  · exact .inr ⟨.brace, hbrace, rfl⟩
  · exact .inr ⟨.paren, hparen, rfl⟩
  · exact .inr ⟨.bracket, hbracket, rfl⟩
  · refine .inl ⟨?_, rfl⟩
    intro d
    cases d <;> simp_all [Depths.get]

end Nesting

namespace Reader

/-- The lexemes up to the first one that is a token. -/
def readsFrom (n : Nesting) : List Glyph → List Lexeme
  | [] => []
  | g :: gs =>
    let read := Lexeme.next g gs
    let effect := n.step ⟨read.kind, g.line, read.fault⟩
    ⟨read.kind, g.line, read.fault⟩ ::
      if effect.token.isSome then [] else readsFrom effect.nesting read.rest
termination_by gs => gs.length
decreasing_by
  have := Lexeme.length_next_le g gs
  simp
  omega

/-- The lexemes that the next call reads. -/
def reads (r : Reader) : List Lexeme := readsFrom r.nesting r.left

/-- The lexemes that the first `k` calls read. -/
def scanned (r : Reader) (k : Nat) : List Lexeme := (List.range k).flatMap fun j ↦ (r.after j).reads

theorem scanned_succ (r : Reader) (k : Nat) :
    r.scanned (k + 1) = r.scanned k ++ (r.after k).reads := by
  simp [scanned, List.range_succ]

/-- What a call gives is what the lexemes that it reads do. -/
theorem pull_eq (n : Nesting) (notes : List Note) (line : Nat) (gs : List Glyph) :
    Lexeme.scan gs = readsFrom n gs ++ Lexeme.scan (pull n notes line gs).2.left ∧
      (pull n notes line gs).2.nesting = n.after (readsFrom n gs) ∧
      (pull n notes line gs).1.notes = notes ++ n.notesOf (readsFrom n gs) ∧
      (pull n notes line gs).1.depths = (pull n notes line gs).2.nesting.depths ∧
      n.tokensOf (readsFrom n gs) =
        if (pull n notes line gs).1.token = .eof then [] else [(pull n notes line gs).1.token] := by
  fun_induction pull n notes line gs with
  | case1 n notes line =>
    simp [readsFrom, Lexeme.scan, Nesting.after, Nesting.notesOf, Nesting.tokensOf]
  | case2 n notes line g gs read effect hnone ih =>
    obtain ⟨hscan, hnesting, hnotes, hdepths, htokens⟩ := ih
    have hreads : readsFrom n (g :: gs) =
        ⟨read.kind, g.line, read.fault⟩ :: readsFrom effect.nesting read.rest := by
      rw [readsFrom]
      simp only [read, effect] at hnone
      simp [hnone, read, effect]
    rw [Lexeme.scan, hreads]
    refine ⟨congrArg _ hscan, hnesting, ?_, hdepths, ?_⟩
    · rw [hnotes, Nesting.notesOf, List.append_assoc]
    · rw [Nesting.tokensOf, ← htokens]
      simp only [effect] at hnone
      rw [hnone]
      rfl
  | case3 n notes line g gs read effect t ht =>
    have hne : t ≠ .eof :=
      Nesting.token_step_ne_eof (Lexeme.kind_next_ne_of_silent rfl g gs) ht
    have hreads : readsFrom n (g :: gs) = [⟨read.kind, g.line, read.fault⟩] := by
      rw [readsFrom]
      simp only [read, effect] at ht
      simp [ht, read]
    rw [Lexeme.scan, hreads, if_neg hne]
    simp only [effect] at ht
    simp [Nesting.after, Nesting.notesOf, Nesting.tokensOf, ht, effect, read]

variable (r : Reader)

theorem scan_left : Lexeme.scan r.left = r.reads ++ Lexeme.scan r.next.2.left :=
  (pull_eq r.nesting [] r.line r.left).1

theorem nesting_next : r.next.2.nesting = r.nesting.after r.reads :=
  (pull_eq r.nesting [] r.line r.left).2.1

theorem notes_next : r.next.1.notes = r.nesting.notesOf r.reads :=
  (pull_eq r.nesting [] r.line r.left).2.2.1

theorem depths_next : r.next.1.depths = r.next.2.nesting.depths :=
  (pull_eq r.nesting [] r.line r.left).2.2.2.1

theorem tokensOf_reads :
    r.nesting.tokensOf r.reads = if r.next.1.token = .eof then [] else [r.next.1.token] :=
  (pull_eq r.nesting [] r.line r.left).2.2.2.2

theorem scan_eq_scanned_append (k : Nat) :
    Lexeme.scan r.left = r.scanned k ++ Lexeme.scan (r.after k).left := by
  induction k with
  | zero => rfl
  | succ k ih => rw [scanned_succ, after_succ', List.append_assoc, ← scan_left, ih]

theorem nesting_after (k : Nat) : (r.after k).nesting = r.nesting.after (r.scanned k) := by
  induction k with
  | zero => rfl
  | succ k ih => rw [scanned_succ, Nesting.after_append, after_succ', nesting_next, ih]

theorem count_tokens {t : Token} (ht : t ≠ .eof) (k : Nat) :
    ((List.range k).map fun j ↦ (r.item j).token).count t =
      (r.nesting.tokensOf (r.scanned k)).count t := by
  induction k with
  | zero => rfl
  | succ k ih =>
    rw [scanned_succ, Nesting.tokensOf_append, ← nesting_after, tokensOf_reads, List.range_succ,
      List.map_append, List.count_append, List.count_append, ih]
    change _ + List.count t [(r.after k).next.1.token] = _
    split_ifs with heof
    · simp [heof, Ne.symm ht]
    · rfl

theorem scanned_succ' (k : Nat) : r.scanned (k + 1) = r.reads ++ r.next.2.scanned k := by
  rw [scanned, List.range_succ_eq_map, List.flatMap_cons, List.flatMap_map]
  rfl

/-- A call reads no further than its token. -/
theorem readsFrom_eq_append {n : Nesting} {gs : List Glyph} {passed later : List Lexeme} {x : Lexeme}
    (hreads : readsFrom n gs = passed ++ x :: later)
    (htoken : ((n.after passed).step x).token.isSome = true) : later = [] := by
  induction gs using Lexeme.scan.induct generalizing n passed with
  | case1 => simp [readsFrom] at hreads
  | case2 g gs read =>
    rename_i ih
    rw [readsFrom] at hreads
    cases passed with
    | nil =>
      obtain ⟨rfl, hlater⟩ := List.cons.inj hreads
      rw [← hlater]
      exact if_pos htoken
    | cons y passed =>
      obtain ⟨rfl, hrest⟩ := List.cons.inj hreads
      split_ifs at hrest with hsome
      · simp at hrest
      · exact ih hrest htoken

theorem reads_ne_nil {r : Reader} (h : Lexeme.scan r.left ≠ []) : r.reads ≠ [] := by
  obtain ⟨n, line, left⟩ := r
  cases left with
  | nil => exact absurd (by rw [Lexeme.scan]) h
  | cons g gs =>
    rw [reads, readsFrom]
    exact List.cons_ne_nil _ _

/-- The token of each lexeme is what the call that reads it gives. -/
theorem exists_call {before later : List Lexeme} {x : Lexeme} {t : Token} (r : Reader)
    (hscan : Lexeme.scan r.left = before ++ x :: later)
    (htoken : ((r.nesting.after before).step x).token = some t) :
    ∃ k, r.scanned (k + 1) = before ++ [x] ∧ (r.item k).token = t := by
  induction hlength : before.length using Nat.strongRecOn generalizing r before with
  | _ length ih =>
    subst hlength
    have hreads : r.reads ≠ [] := reads_ne_nil (by simp [hscan])
    -- The lexeme comes after the first call, or it is the token of that call.
    have hlater (passed : List Lexeme) (hbefore : before = r.reads ++ passed)
        (hnext : Lexeme.scan r.next.2.left = passed ++ x :: later) :
        ∃ k, r.scanned (k + 1) = before ++ [x] ∧ (r.item k).token = t := by
      subst hbefore
      rw [Nesting.after_append, ← nesting_next] at htoken
      have hlt : passed.length < (r.reads ++ passed).length := by
        simpa [List.length_pos_iff] using hreads
      obtain ⟨k, hscanned, hitem⟩ := ih _ hlt r.next.2 hnext htoken rfl
      refine ⟨k + 1, ?_, hitem⟩
      rw [scanned_succ', hscanned, List.append_assoc]
    rw [scan_left] at hscan
    obtain ⟨passed, hbefore, hnext⟩ | ⟨rest, hrest, hnext⟩ := List.append_eq_append_iff.1 hscan
    · exact hlater passed hbefore hnext
    · cases rest with
      | nil => exact hlater [] (by simp [hrest]) hnext.symm
      | cons y rest =>
        obtain ⟨rfl, -⟩ := List.cons.inj hnext
        obtain rfl : rest = [] := readsFrom_eq_append hrest (by simp [htoken])
        refine ⟨0, ?_, ?_⟩
        · rw [scanned_succ, ← hrest]
          rfl
        · have htokens := r.tokensOf_reads
          rw [hrest, Nesting.tokensOf_append] at htokens
          simp only [Nesting.tokensOf, htoken] at htokens
          split_ifs at htokens with heof
          · simp at htokens
          · obtain ⟨-, htoken⟩ := List.append_eq_singleton_iff.1 htokens |>.resolve_right (by simp)
            exact (List.cons.inj htoken).1.symm

end Reader

/-- The delimiters of a text are counted and reported exactly. -/
structure Delimited (text : String) : Prop where
  /-- The calls read the text from its start, and all of it up to its end. -/
  scanned (k : Nat) :
    (Reader.ofText text).scanned k <+: Lexeme.ofText text ∧
      (((Reader.ofText text).item k).token = .eof →
        (Reader.ofText text).scanned (k + 1) = Lexeme.ofText text)
  /-- After every token, what is open of a kind is what was opened and not closed by a partner. -/
  depth (k : Nat) (d : Delimiter) :
    ((Reader.ofText text).item k).depths.get d +
        (Pairing.ofLexemes d ((Reader.ofText text).scanned (k + 1))).matched =
      (Pairing.ofLexemes d ((Reader.ofText text).scanned (k + 1))).openings
  /-- A call reports the stray delimiters that it reads, each of them once. -/
  excess (k : Nat) :
    ((Reader.ofText text).item k).notes.filter Note.isExcess =
      Lexeme.reports ((Reader.ofText text).scanned k) ((Reader.ofText text).after k).reads
  /-- In all, nothing else is reported as stray. -/
  reports :
    (Stream.notes text ++ (Stream.ofText text).trailing).filter Note.isExcess =
      Lexeme.reports [] (Lexeme.ofText text)
  /-- A stray brace is given as a semicolon, and every other closing delimiter as itself. -/
  closing {before later : List Lexeme} {x : Lexeme} {d : Delimiter}
    (htext : Lexeme.ofText text = before ++ x :: later) (hx : x.kind = .closing d) :
    ∃ k, (Reader.ofText text).scanned (k + 1) = before ++ [x] ∧
      ((Reader.ofText text).item k).token =
        if Lexeme.stray? before x = some .brace then .semicolon else .closing d
  /-- The depth of braces can be told from the tokens. -/
  brace (k : Nat) :
    ((Reader.ofText text).item k).depths.brace +
        ((List.range (k + 1)).map fun j ↦ ((Reader.ofText text).item j).token).count
          (.closing .brace) =
      ((List.range (k + 1)).map fun j ↦ ((Reader.ofText text).item j).token).count
        (.opening .brace)
  /-- At the end one report is made if something is open, and none if nothing is. -/
  unbalanced {k : Nat} (hend : ((Reader.ofText text).item k).token = .eof) :
    (∀ d, ((Reader.ofText text).item k).depths.get d = 0) ∧ (Stream.ofText text).trailing = [] ∨
      ∃ d line, ((Reader.ofText text).item k).depths.get d ≠ 0 ∧ (Stream.ofText text).trailing =
        [.problem line .unbalancedOpeningDelimiter (Nesting.unbalancedMessage d)]

namespace Stream

open Nesting

/-- The end of a text is found when all of it has been read. -/
theorem scanned_of_eof {text : String} {k : Nat}
    (hend : ((Reader.ofText text).item k).token = .eof) :
    (Reader.ofText text).scanned (k + 1) = Lexeme.ofText text := by
  have hleft : ((Reader.ofText text).after (k + 1)).left = [] := by
    rw [Reader.after_succ']
    exact Reader.left_pull_of_eof hend
  have hscan := (Reader.ofText text).scan_eq_scanned_append (k + 1)
  rw [hleft, Lexeme.scan, List.append_nil] at hscan
  exact hscan.symm

theorem filter_isExcess_trailing (text : String) :
    (ofText text).trailing.filter Note.isExcess = [] := by
  change ((({} : Nesting).after (Lexeme.ofText text)).unbalanced).filter Note.isExcess = []
  obtain ⟨-, hreport⟩ | ⟨d, -, hreport⟩ :=
    unbalanced_cases (({} : Nesting).after (Lexeme.ofText text))
  all_goals
    rw [hreport]
    rfl

/-- Where no directive is met, the delimiters are counted and reported exactly, whatever literals,
comments and operators stand between them. -/
theorem delimiters_of_text {text : String}
    (hplain : ∀ x ∈ Lexeme.ofText text, ∀ e, x.kind ≠ .directive e) : Delimited text := by
  let r := Reader.ofText text
  have hscan (k : Nat) : Lexeme.ofText text = r.scanned k ++ Lexeme.scan (r.after k).left :=
    r.scan_eq_scanned_append k
  have hmem {k : Nat} {x : Lexeme} (hx : x ∈ r.scanned k) : x ∈ Lexeme.ofText text := by
    rw [hscan k]
    exact List.mem_append_left _ hx
  have htallies (k : Nat) : (r.after k).nesting.Tallies (r.scanned k) := by
    rw [Reader.nesting_after]
    exact tallies_after tallies_nil fun x hx ↦ hplain x (hmem hx)
  have hdepths (k : Nat) : (r.item k).depths = (r.after (k + 1)).nesting.depths := by
    rw [Reader.after_succ']
    exact Reader.depths_next _
  have hdepth (k : Nat) (d : Delimiter) :
      (r.item k).depths.get d + (Pairing.ofLexemes d (r.scanned (k + 1))).matched =
        (Pairing.ofLexemes d (r.scanned (k + 1))).openings := by
    rw [hdepths]
    exact (htallies (k + 1)).depth d
  constructor
  case scanned => exact fun k ↦ ⟨⟨_, (hscan k).symm⟩, scanned_of_eof⟩
  case depth => exact hdepth
  case excess =>
    intro k
    have hreads : ∀ x ∈ (r.after k).reads, ∀ e, x.kind ≠ .directive e := by
      intro x hx
      apply hplain x (hmem (k := k + 1) _)
      rw [Reader.scanned_succ]
      exact List.mem_append_right _ hx
    exact (congrArg _ (Reader.notes_next _)).trans (filter_isExcess_notesOf (htallies k) hreads)
  case reports =>
    rw [List.filter_append, filter_isExcess_trailing, List.append_nil, notes_eq]
    exact filter_isExcess_notesOf tallies_nil hplain
  case closing =>
    intro before later x d htext hx
    have hbefore : (({} : Nesting).after before).Tallies before := by
      apply tallies_after tallies_nil
      exact fun y hy ↦ hplain y (htext ▸ List.mem_append_left _ hy)
    exact r.exists_call htext (token_closing hbefore hx)
  case brace =>
    intro k
    have hspelt : ∀ x ∈ r.scanned (k + 1), ∀ e,
        x.kind ≠ .token (.opening e) ∧ x.kind ≠ .token (.closing e) := fun x hx e ↦
      ⟨Lexeme.kind_ne_of_mem_scan rfl (hmem hx), Lexeme.kind_ne_of_mem_scan rfl (hmem hx)⟩
    obtain ⟨hopenings, hclosings⟩ :=
      count_tokensOf tallies_nil (fun x hx ↦ hplain x (hmem hx)) hspelt
    have hbrace : (r.item k).depths.brace + _ = _ := hdepth k .brace
    rw [Reader.count_tokens _ (by simp), Reader.count_tokens _ (by simp)]
    have hnone : Pairing.ofLexemes .brace [] = {} := rfl
    simp only [List.nil_append, hnone, Nat.zero_add] at hopenings hclosings
    rw [hopenings, hclosings, hnone, Nat.zero_add] at hbrace
    exact hbrace
  case unbalanced =>
    intro k hend
    have hnesting : (r.after (k + 1)).nesting = ({} : Nesting).after (Lexeme.ofText text) := by
      rw [Reader.nesting_after, scanned_of_eof hend]
      rfl
    rw [hdepths, hnesting]
    obtain ⟨hclosed, hreport⟩ | ⟨d, hopen, hreport⟩ :=
      unbalanced_cases (({} : Nesting).after (Lexeme.ofText text))
    · exact .inl ⟨hclosed, hreport⟩
    · exact .inr ⟨d, _, hopen, hreport⟩

/-- Delimiters in a character, a literal, a comment and an operator, a brace and a bracket that are
stray, and a parenthesis that is left open. -/
def strayText : String := "f('(', \")\" /* ) */) \x7d\n] operator[]("

theorem delimiters_of_text_stray :
    (∀ x ∈ Lexeme.ofText strayText, ∀ e, x.kind ≠ .directive e) ∧ Delimited strayText ∧
      (notes strayText).filter Note.isExcess =
        [.problem 1 .excessClosingDelimiter (excessMessage .brace),
          .problem 2 .excessClosingDelimiter (excessMessage .bracket)] ∧
      (ofText strayText).trailing =
        [.problem 2 .unbalancedOpeningDelimiter (unbalancedMessage .paren)] := by
  have hkinds : ∀ x ∈ Lexeme.ofText strayText,
      x.kind ∉ [.directive .conditional, .directive .alternative, .directive .conditionalEnd,
        .directive .macroBody, .directive .other] := by
    decide +kernel
  have hplain : ∀ x ∈ Lexeme.ofText strayText, ∀ e, x.kind ≠ .directive e := by
    intro x hx e he
    apply hkinds x hx
    rw [he]
    cases e <;> simp
  exact ⟨hplain, delimiters_of_text hplain, by decide +kernel, by decide +kernel⟩

end Stream

end Harvest
