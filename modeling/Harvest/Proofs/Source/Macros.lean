import Harvest.Proofs.Source.Lines
import Harvest.Proofs.Source.Runs
import Mathlib.Data.List.Induction

/-!
# Macro bodies

The body of a macro goes from its definition to the end of the line. While it is open a state is
held and closing braces do not lead below the depth at its start; where it ends the state is taken
up and the brace depth is that of the start again.

`operator` takes the blanks after it, newlines among them, and may so carry a body over the end of
its line. Main statements, for texts where it does not: directives stand outside of bodies and
braces are kept from what bodies hold (`macroBodies_bracketed`). Parentheses and brackets are not
(`depth_cancelled`).
-/

namespace Harvest

theorem Depths.get_set (depths : Depths) (d e : Delimiter) (k : Nat) :
    (depths.set d k).get e = if e = d then k else depths.get e := by
  cases d <;> cases e <;> rfl

namespace Nesting

variable {n : Nesting} {x : Lexeme} {xs ys : List Lexeme}

/-- No `operator` is read while a macro body is open. -/
def operatorFree (n : Nesting) : List Lexeme → Bool
  | [] => true
  | x :: xs =>
    (n.macroBody.isNone || x.kind ≠ .token (.ident "operator")) &&
      (n.step x).nesting.operatorFree xs

/-- Where a directive is read, no macro body is open. -/
def Outside (n : Nesting) (xs : List Lexeme) : Prop :=
  ∀ before x later, xs = before ++ x :: later → ∀ d, x.kind = .directive d →
    (n.after before).macroBody = none

theorem Outside.cons (hx : ∀ d, x.kind = .directive d → n.macroBody = none)
    (hxs : (n.step x).nesting.Outside xs) : n.Outside (x :: xs) := by
  intro before y later heq
  cases before with
  | nil =>
    obtain ⟨rfl, rfl⟩ := List.cons.inj heq
    exact hx
  | cons z before =>
    obtain ⟨rfl, hrest⟩ := List.cons.inj heq
    exact hxs before y later hrest

theorem Outside.head (h : n.Outside (x :: xs)) {d : Directive} (hx : x.kind = .directive d) :
    n.macroBody = none := h [] x xs rfl d hx

theorem Outside.tail (h : n.Outside (x :: xs)) : (n.step x).nesting.Outside xs :=
  fun before y later heq ↦ h (x :: before) y later (heq ▸ rfl)

theorem Outside.left (h : n.Outside (xs ++ ys)) : n.Outside xs := by
  rintro before x later rfl
  exact h before x (later ++ ys) (by simp)

theorem Outside.right (h : n.Outside (xs ++ ys)) : (n.after xs).Outside ys := by
  rintro before x later rfl d hd
  rw [← after_append]
  exact h (xs ++ before) x later (by simp) d hd

/-- A text without `operator` in its macro bodies has no directives in them. -/
theorem outside_scan {gs : List Glyph} {leads : Bool} (hfollow : Glyph.Follow leads gs)
    (hbody : n.macroBody ≠ none → leads = false)
    (hfree : n.operatorFree (Lexeme.scan gs) = true) : n.Outside (Lexeme.scan gs) := by
  induction gs using Lexeme.scan.induct generalizing n leads with
  | case1 =>
    rw [Lexeme.scan]
    exact fun before x later heq ↦ absurd heq (by simp)
  | case2 g gs read =>
    rename_i ih
    rw [Lexeme.scan] at hfree ⊢
    obtain ⟨hplain, hrest⟩ := Bool.and_eq_true_iff.1 hfree
    have hkind : n.macroBody ≠ none → read.kind ≠ .token (.ident "operator") := by
      intro hopen
      simpa [Option.isNone_iff_eq_none, hopen] using hplain
    apply Outside.cons
    · intro d hd
      by_contra hopen
      obtain rfl := hbody hopen
      exact (Lexeme.follow_next hfollow).1 d hd
    · by_cases hclosed : (n.step ⟨read.kind, g.line, read.fault⟩).nesting.macroBody = none
      · obtain ⟨leads', hfollow'⟩ := hfollow.of_suffix (Lexeme.next_suffix g gs)
        exact ih hfollow' (fun hopen ↦ absurd hclosed hopen) hrest
      · -- The lexeme opens a body or stands in one, so the rest goes on within the line.
        have hwithin : Glyph.Follow false read.rest := by
          rw [macroBody_step] at hclosed
          split_ifs at hclosed with hnewline hdefines
          · exact absurd rfl hclosed
          · exact Lexeme.follow_next_macroBody hfollow hdefines
          · obtain rfl := hbody hclosed
            exact (Lexeme.follow_next hfollow).2 hnewline (hkind hclosed)
        exact ih hwithin (fun _ ↦ rfl) hrest

theorem outside_ofText {text : String}
    (hfree : ({} : Nesting).operatorFree (Lexeme.ofText text) = true) :
    ({} : Nesting).Outside (Lexeme.ofText text) :=
  outside_scan (Glyph.follow_read 1 true text.toList) (fun h ↦ absurd rfl h) hfree

/-- The least depth that a closing delimiter may lead to. -/
def least (n : Nesting) : Delimiter → Nat
  | .brace => n.floor
  | _ => 0

theorem get_opening {d e : Delimiter} (hx : x.kind = .opening d)
    (hwrapped : e = .brace → n.wrapped = false) :
    (n.step x).nesting.depths.get e =
      if e = d then n.depths.get e + 1 else n.depths.get e := by
  simp only [step, hx, openDelimiter, raised, Depths.get_set]
  by_cases he : e = d
  · subst he
    cases e <;> simp_all
  · simp [he]

/-- Braces are not counted below zero where they are not below the floor. -/
theorem underflows_of_floor_le (h : n.floor ≤ n.depths.brace) : n.underflows = false := by
  unfold underflows
  by_cases hbrace : n.depths.brace = 0
  · simp [hbrace, Nat.le_zero.1 (hbrace ▸ h)]
  · simp [hbrace]

theorem get_closing {d e : Delimiter} (hx : x.kind = .closing d)
    (hfloor : e = .brace → n.floor ≤ n.depths.brace) :
    (n.step x).nesting.depths.get e =
      if e = d ∧ n.depths.get e ≠ n.least e then n.depths.get e - 1 else n.depths.get e := by
  have hunderflows := fun he ↦ underflows_of_floor_le (hfloor he)
  cases d
  all_goals
    simp only [step, hx, closeDelimiter]
    split_ifs with hleast <;> cases e <;> simp_all [least, Depths.get, Depths.set]

/-- Only a brace that is counted below zero wraps the depths. -/
theorem wrapped_step (n : Nesting) (x : Lexeme) :
    (n.step x).nesting.wrapped =
      (n.wrapped || decide (x.kind = .closing .brace) && n.underflows) := by
  cases hx : x.kind with
  | newline =>
    simp only [step, hx, endLine]
    split <;> simp
  | directive d =>
    cases d <;> simp only [step, hx, directive, alternative, endConditional] <;>
      (repeat' split) <;> simp_all
  | closing d =>
    cases d with
    | brace =>
      simp only [step, hx, closeDelimiter]
      split_ifs <;> simp_all [underflows]
    | _ =>
      simp only [step, hx, closeDelimiter]
      split_ifs <;> simp
  | _ => simp [step, hx, openDelimiter]

theorem get_newline (hx : x.kind = .newline) {e : Delimiter} (he : e ≠ .brace) :
    (n.step x).nesting.depths.get e = n.depths.get e := by
  cases hbody : n.macroBody with
  | none => simp only [step, hx, endLine, hbody]
  | some body =>
    rw [step_newline hx hbody]
    cases e <;> first | rfl | exact absurd rfl he

/-- The depths change at delimiters, directives and newlines only. -/
theorem depths_step_of_other (hopening : ∀ d, x.kind ≠ .opening d)
    (hclosing : ∀ d, x.kind ≠ .closing d) (hnewline : x.kind ≠ .newline)
    (hdirective : ∀ d, x.kind ≠ .directive d) : (n.step x).nesting.depths = n.depths := by
  cases hx : x.kind with
  | opening d => exact absurd hx (hopening d)
  | closing d => exact absurd hx (hclosing d)
  | newline => exact absurd hx hnewline
  | directive d => exact absurd hx (hdirective d)
  | _ => simp only [step, hx]

theorem floor_step (n : Nesting) (x : Lexeme) :
    (n.step x).nesting.floor =
      if x.kind = .newline then 0
      else if x.kind = .directive .macroBody then n.depths.brace
      else n.floor := by
  rw [floor, macroBody_step]
  split_ifs <;> rfl

/-- Braces are counted from the floor on, and were never counted below zero. -/
structure Counted (n : Nesting) : Prop where
  unwrapped : n.wrapped = false
  floor_le : n.floor ≤ n.depths.get .brace

theorem counted_nil : Counted {} := ⟨rfl, Nat.le_refl 0⟩

theorem Counted.step (hx : ∀ d, x.kind = .directive d → n.macroBody = none) (h : n.Counted) :
    (n.step x).nesting.Counted where
  unwrapped := by
    rw [wrapped_step, h.unwrapped, underflows_of_floor_le h.floor_le, Bool.and_false]
    rfl
  floor_le := by
    have hfloor := h.floor_le
    rw [floor_step]
    cases hkind : x.kind with
    | newline => simp
    | directive d =>
      by_cases hdefines : d = .macroBody
      · subst hdefines
        simp [step_macroBody hkind, Depths.get]
      · have hzero : n.floor = 0 := by simp [floor, hx d hkind]
        simp [hdefines, hzero]
    | opening d =>
      simp only [get_opening hkind fun _ ↦ h.unwrapped, reduceCtorEq, if_false]
      split_ifs <;> omega
    | closing d =>
      have hleast : n.least .brace = n.floor := rfl
      simp only [get_closing hkind fun _ ↦ hfloor, reduceCtorEq, if_false]
      split_ifs <;> omega
    | _ => simpa [Nesting.step, hkind] using hfloor

theorem Counted.after (hout : n.Outside xs) (h : n.Counted) : (n.after xs).Counted := by
  induction xs generalizing n with
  | nil => exact h
  | cons x xs ih => exact ih hout.tail (h.step fun d ↦ hout.head)

/-- A body stays open up to the end of its line. -/
theorem macroBody_after {body : MacroBody} (hbody : n.macroBody = some body) (hout : n.Outside xs)
    (hline : ∀ x ∈ xs, x.kind ≠ .newline) :
    (n.after xs).macroBody = some body ∧ ∀ x ∈ xs, ∀ d, x.kind ≠ .directive d := by
  induction xs generalizing n with
  | nil => exact ⟨hbody, by simp⟩
  | cons x xs ih =>
    have hplain (d : Directive) : x.kind ≠ .directive d := by
      intro hx
      exact absurd (hbody.symm.trans (hout.head hx)) (by simp)
    have hstep : (n.step x).nesting.macroBody = some body := by
      rw [macroBody_step, if_neg (hline x List.mem_cons_self), if_neg (hplain _), hbody]
    obtain ⟨hlast, hrest⟩ :=
      ih hstep hout.tail fun y hy ↦ hline y (List.mem_cons_of_mem x hy)
    refine ⟨hlast, ?_⟩
    intro y hy
    cases hy with
    | head => exact hplain
    | tail _ hy => exact hrest y hy

/-- An open body belongs to a definition on the same line. -/
theorem exists_macroBody {before : List Lexeme} {body : MacroBody}
    (hbody : (({} : Nesting).after before).macroBody = some body) :
    ∃ earlier head between, before = earlier ++ head :: between ∧
      head.kind = .directive .macroBody ∧ ∀ x ∈ between, x.kind ≠ .newline := by
  induction before using List.reverseRecOn with
  | nil => exact absurd hbody (by simp [after])
  | append_singleton before x ih =>
    rw [after_append, after, List.foldl_cons, List.foldl_nil, macroBody_step] at hbody
    split_ifs at hbody with hnewline hdefines
    · exact ⟨before, x, [], rfl, hdefines, by simp⟩
    · obtain ⟨earlier, head, between, rfl, hhead, hline⟩ := ih hbody
      refine ⟨earlier, head, between ++ [x], by simp, hhead, ?_⟩
      intro y hy
      rcases List.mem_append.1 hy with hy | hy
      · exact hline y hy
      · rwa [List.mem_singleton.1 hy]

/-- Up to any point of the text, the states that are still held are those that were kept and not
taken up again. -/
theorem mem_held_iff (hout : ({} : Nesting).Outside xs) (k : Nat) :
    k ∈ (({} : Nesting).after xs).held ↔
      .save k ∈ ({} : Nesting).notesOf xs ∧ .restore k ∉ ({} : Nesting).notesOf xs := by
  have hsave := (({} : Nesting).count_save xs k).2
  have hrestore := count_restore (fun before x later hxs hx ↦ hout before x later hxs _ hx) k
  have hnone : ({} : Nesting).held.count k = 0 := rfl
  rw [← List.count_pos_iff, ← List.count_pos_iff, ← List.count_eq_zero]
  split_ifs at hsave <;> omega

theorem mem_held_of_none (hnone : n.macroBody = none) {k : Nat} (hk : k ∈ n.held) :
    ∃ c ∈ n.conditionals, ∃ ended, c.first = some (ended, k) := by
  rw [held, hnone, Option.map_none, Option.toList_none, List.nil_append, List.mem_filterMap] at hk
  obtain ⟨c, hc, hslot⟩ := hk
  obtain ⟨⟨ended, slot⟩, hfirst, rfl⟩ := Option.map_eq_some_iff.1 hslot
  exact ⟨c, hc, ended, hfirst⟩

/-- The token that ends a macro body comes from the end of its line. -/
theorem token_eq_cancel (hx : x.kind ≠ .token .cancel) (htoken : (n.step x).token = some .cancel) :
    x.kind = .newline ∧ ∃ body, n.macroBody = some body := by
  cases hkind : x.kind with
  | newline =>
    refine ⟨rfl, ?_⟩
    rw [step, hkind] at htoken
    cases hbody : n.macroBody with
    | none => simp [endLine, hbody] at htoken
    | some body => exact ⟨body, rfl⟩
  | token t =>
    rw [step, hkind] at htoken
    exact absurd (hkind.trans (congrArg _ (Option.some.inj htoken))) hx
  | closing d =>
    rw [step, hkind] at htoken
    cases d <;> simp only [closeDelimiter] at htoken <;> split_ifs at htoken <;>
      exact absurd htoken (by simp)
  | _ => simp [step, hkind, openDelimiter] at htoken

/-- A closing brace stands for a semicolon or takes one from a positive depth. -/
theorem step_closingBrace (hx : x.kind = .closing .brace) (h : n.Counted) :
    (n.step x).token = some .semicolon ∧ (n.step x).nesting = n ∨
      (n.step x).token = some (.closing .brace) ∧ 0 < n.depths.brace ∧
        (n.step x).nesting.depths.brace + 1 = n.depths.brace := by
  simp only [step, hx, closeDelimiter, underflows_of_floor_le h.floor_le]
  by_cases hleast : n.depths.brace = n.floor
  · rw [if_pos hleast]
    exact .inl ⟨rfl, rfl⟩
  · have hlt : n.floor < n.depths.brace := Nat.lt_of_le_of_ne h.floor_le (Ne.symm hleast)
    have hpos : 0 < n.depths.brace := Nat.zero_lt_of_lt hlt
    rw [if_neg hleast, if_neg Bool.false_ne_true]
    exact .inr ⟨rfl, hpos, Nat.sub_add_cancel hpos⟩

end Nesting

/-- The definition of a macro with a body, which the end of its line ends, among lexemes. -/
structure MacroLine (xs : List Lexeme) where
  before : List Lexeme
  head : Lexeme
  body : List Lexeme
  ending : Lexeme
  later : List Lexeme
  lexemes_eq : xs = before ++ head :: (body ++ ending :: later)
  isHead : head.kind = .directive .macroBody
  isEnding : ending.kind = .newline
  isLine : ∀ x ∈ body, x.kind ≠ .newline

namespace MacroLine

variable {xs : List Lexeme} (m : MacroLine xs)

/-- What is open where the definition is met. -/
def start : Nesting := ({} : Nesting).after m.before

/-- What is open at the end of the body. -/
def last : Nesting := ({} : Nesting).after (m.before ++ m.head :: m.body)

/-- What the end of the line does. -/
def cancelled : Nesting.Effect := m.last.step m.ending

theorem eq_append : xs = (m.before ++ m.head :: m.body) ++ m.ending :: m.later := by
  simpa using m.lexemes_eq

theorem last_eq : m.last = (m.start.step m.head).nesting.after m.body :=
  Nesting.after_append _ m.before (m.head :: m.body)

variable {m}

/-- The body is open up to the end of its line, and no directives are in it. -/
theorem macroBody_last (hout : ({} : Nesting).Outside xs) :
    m.last.macroBody = some ⟨m.start.saves, m.start.depths.brace⟩ ∧
      ∀ x ∈ m.body, ∀ d, x.kind ≠ .directive d := by
  have hbody : m.start.Outside (m.head :: m.body) := (m.eq_append ▸ hout).left.right
  rw [last_eq]
  apply Nesting.macroBody_after _ hbody.tail m.isLine
  rw [Nesting.step_macroBody m.isHead]

theorem cancelled_eq (hout : ({} : Nesting).Outside xs) :
    m.cancelled = ⟨{ m.last with
        depths := { m.last.depths with brace := m.start.depths.brace }
        macroBody := none }, [.restore m.start.saves, .macroEnded], some .cancel⟩ :=
  Nesting.step_newline m.isEnding (macroBody_last hout).1

/-- The state that a body holds is kept once and taken up once. -/
theorem count_slot {text : String} (m : MacroLine (Lexeme.ofText text))
    (hout : ({} : Nesting).Outside (Lexeme.ofText text)) :
    (Stream.notes text).count (.save m.start.saves) = 1 ∧
      (Stream.notes text).count (.restore m.start.saves) = 1 := by
  apply Stream.count_of_restore_mem
  apply Stream.mem_notes_of_step m.eq_append
  change Note.restore m.start.saves ∈ m.cancelled.notes
  rw [cancelled_eq hout]
  exact List.mem_cons_self

/-- The end of the line gives the token of the stream that ends the body. -/
theorem mem_items {text : String} (m : MacroLine (Lexeme.ofText text))
    (hout : ({} : Nesting).Outside (Lexeme.ofText text)) :
    ∃ earlier, ⟨earlier ++ m.cancelled.notes, .cancel, m.ending.line,
      m.cancelled.nesting.depths⟩ ∈ (Stream.ofText text).items := by
  have htoken : m.cancelled.token = some .cancel := by rw [cancelled_eq hout]
  exact Stream.mem_items_of_step m.eq_append htoken

end MacroLine

/-- The token that ends a macro body is that of a definition. -/
theorem exists_macroLine {text : String} {before later : List Lexeme} {x : Lexeme}
    (htext : Lexeme.ofText text = before ++ x :: later)
    (htoken : ((({} : Nesting).after before).step x).token = some .cancel) :
    ∃ m : MacroLine (Lexeme.ofText text), m.before ++ m.head :: m.body = before ∧ m.ending = x := by
  have hmem : x ∈ Lexeme.ofText text := htext ▸ List.mem_append_right _ List.mem_cons_self
  obtain ⟨hnewline, body, hbody⟩ :=
    Nesting.token_eq_cancel (Lexeme.kind_ne_of_mem_scan rfl hmem) htoken
  obtain ⟨earlier, head, between, rfl, hhead, hline⟩ := Nesting.exists_macroBody hbody
  have heq : Lexeme.ofText text = earlier ++ head :: (between ++ x :: later) := by
    simpa using htext
  exact ⟨⟨earlier, head, between, x, later, heq, hhead, hnewline, hline⟩, rfl, rfl⟩

/-- Each macro body of a text holds a state from its start to the end of its line, and the brace
depth is kept from what the body holds. -/
structure Bracketed (text : String) : Prop where
  /-- Where no body is open, only conditionals hold states. -/
  closed {before later : List Lexeme} (htext : Lexeme.ofText text = before ++ later)
    (hnone : (({} : Nesting).after before).macroBody = none) :
    (({} : Nesting).after before).floor = 0 ∧
      ∀ k, .save k ∈ ({} : Nesting).notesOf before → .restore k ∉ ({} : Nesting).notesOf before →
        ∃ c ∈ (({} : Nesting).after before).conditionals, ∃ ended, c.first = some (ended, k)
  /-- An open body holds the state of its start, and its braces stay above those around it. -/
  opened {before later : List Lexeme} (htext : Lexeme.ofText text = before ++ later)
    {body : MacroBody} (hbody : (({} : Nesting).after before).macroBody = some body) :
    .save body.slot ∈ ({} : Nesting).notesOf before ∧
      .restore body.slot ∉ ({} : Nesting).notesOf before ∧
      (({} : Nesting).after before).floor = body.floor ∧
      body.floor ≤ (({} : Nesting).after before).depths.brace
  closingBrace {before later : List Lexeme} {x : Lexeme}
    (htext : Lexeme.ofText text = before ++ x :: later) (hx : x.kind = .closing .brace) :
    let n := ({} : Nesting).after before
    (n.step x).token = some .semicolon ∧ (n.step x).nesting = n ∨
      (n.step x).token = some (.closing .brace) ∧ 0 < n.depths.brace ∧
        (n.step x).nesting.depths.brace + 1 = n.depths.brace
  directive {before later : List Lexeme} {x : Lexeme} {d : Directive}
    (htext : Lexeme.ofText text = before ++ x :: later) (hx : x.kind = .directive d) :
    (({} : Nesting).after before).macroBody = none
  /-- What ends a body takes up the state of its start, which nothing else does. -/
  cancel {before later : List Lexeme} {x : Lexeme}
    (htext : Lexeme.ofText text = before ++ x :: later)
    (htoken : ((({} : Nesting).after before).step x).token = some .cancel) :
    ∃ m : MacroLine (Lexeme.ofText text), m.before ++ m.head :: m.body = before ∧ m.ending = x ∧
      (∃ earlier, ⟨earlier ++ m.cancelled.notes, .cancel, m.ending.line,
        m.cancelled.nesting.depths⟩ ∈ (Stream.ofText text).items) ∧
      m.cancelled.nesting.depths.brace = m.start.depths.brace ∧
      (m.start.step m.head).notes = .save m.start.saves :: m.head.faultNotes ∧
      m.cancelled.notes = [.restore m.start.saves, .macroEnded] ∧
      (Stream.notes text).count (.save m.start.saves) = 1 ∧
      (Stream.notes text).count (.restore m.start.saves) = 1

open Nesting in
/-- Macro bodies are bracketed, unless `operator` is read in one. -/
theorem macroBodies_bracketed {text : String}
    (hfree : ({} : Nesting).operatorFree (Lexeme.ofText text) = true) : Bracketed text := by
  have hout := outside_ofText hfree
  have hheld {before later : List Lexeme} (htext : Lexeme.ofText text = before ++ later) (k : Nat) :=
    mem_held_iff (htext ▸ hout).left k
  have hcounted {before later : List Lexeme} (htext : Lexeme.ofText text = before ++ later) :
      (({} : Nesting).after before).Counted := counted_nil.after (htext ▸ hout).left
  constructor
  case closed =>
    intro before later htext hnone
    refine ⟨by simp [floor, hnone], ?_⟩
    intro k hsave hrestore
    exact mem_held_of_none hnone ((hheld htext k).2 ⟨hsave, hrestore⟩)
  case opened =>
    intro before later htext body hbody
    have hfloor_eq : (({} : Nesting).after before).floor = body.floor := by simp [floor, hbody]
    have hslot := (hheld htext body.slot).1 (by simp [held, hbody])
    exact ⟨hslot.1, hslot.2, hfloor_eq, hfloor_eq ▸ (hcounted htext).floor_le⟩
  case closingBrace =>
    intro before later x htext hx
    exact step_closingBrace hx (hcounted htext)
  case directive =>
    intro before later x d htext hx
    exact hout before x later htext d hx
  case cancel =>
    intro before later x htext htoken
    obtain ⟨m, hbefore, hending⟩ := exists_macroLine htext htoken
    refine ⟨m, hbefore, hending, m.mem_items hout, ?_, ?_, ?_, m.count_slot hout⟩
    · rw [MacroLine.cancelled_eq hout]
    · rw [step_macroBody m.isHead]
    · rw [MacroLine.cancelled_eq hout]

theorem macroBodies_bracketed_branches :
    ({} : Nesting).operatorFree (Lexeme.ofText "\x7b\n#if A\n#define B \x7d \x7b\n#else\n\x7d\n#endif\n") =
        true ∧
      Bracketed "\x7b\n#if A\n#define B \x7d \x7b\n#else\n\x7d\n#endif\n" := by
  have hfree : ({} : Nesting).operatorFree
      (Lexeme.ofText "\x7b\n#if A\n#define B \x7d \x7b\n#else\n\x7d\n#endif\n") = true := by decide +kernel
  exact ⟨hfree, macroBodies_bracketed hfree⟩

/-- The delimiters of a kind that have no partner among some lexemes. -/
structure Unmatched where
  closers : Nat := 0
  openers : Nat := 0
deriving DecidableEq

namespace Unmatched

/-- The delimiters without a partner, with one more lexeme. -/
def next (d : Delimiter) (u : Unmatched) (x : Lexeme) : Unmatched :=
  if x.kind = .opening d then { u with openers := u.openers + 1 }
  else if x.kind = .closing d then
    if u.openers = 0 then { u with closers := u.closers + 1 }
    else { u with openers := u.openers - 1 }
  else u

def ofLexemes (d : Delimiter) (xs : List Lexeme) : Unmatched := xs.foldl (next d) {}

/-- The depth that lexemes lead to from the depth `k`. A closing delimiter does not lead below
zero. -/
def depth (u : Unmatched) (k : Nat) : Nat := k - u.closers + u.openers

theorem depth_eq_iff (u : Unmatched) (k : Nat) : u.depth k = k ↔ u.openers = min u.closers k := by
  rw [depth]
  omega

end Unmatched

namespace Nesting

variable {n : Nesting} {x : Lexeme} {xs : List Lexeme} {d : Delimiter} {k : Nat} {u : Unmatched}

theorem get_step (hd : d ≠ .brace) (hx : ∀ e, x.kind ≠ .directive e)
    (h : n.depths.get d = u.depth k) :
    (n.step x).nesting.depths.get d = (u.next d x).depth k := by
  have hleast : n.least d = 0 := by
    cases d <;> first | rfl | exact absurd rfl hd
  rw [Unmatched.depth] at h ⊢
  rw [Unmatched.next]
  cases hkind : x.kind with
  | directive e => exact absurd hkind (hx e)
  | newline =>
    rw [get_newline hkind hd]
    simpa using h
  | opening e =>
    rw [get_opening hkind fun heq ↦ absurd heq hd]
    by_cases he : d = e
    · simp [he ▸ h, he]
      omega
    · simp [he, Ne.symm he, h]
  | closing e =>
    rw [get_closing hkind fun heq ↦ absurd heq hd]
    by_cases he : d = e
    · simp only [← he, h, hleast, if_true, true_and, reduceCtorEq, if_false]
      split_ifs <;> simp <;> omega
    · simp [he, Ne.symm he, h]
  | _ =>
    rw [depths_step_of_other (by simp [hkind]) (by simp [hkind]) (by simp [hkind]) (by simp [hkind])]
    simpa using h

theorem get_after (hd : d ≠ .brace) (hxs : ∀ x ∈ xs, ∀ e, x.kind ≠ .directive e)
    (h : n.depths.get d = u.depth k) :
    (n.after xs).depths.get d = (xs.foldl (Unmatched.next d) u).depth k := by
  induction xs generalizing n u with
  | nil => exact h
  | cons x xs ih =>
    rw [after_cons, List.foldl_cons]
    apply ih (fun y hy ↦ hxs y (List.mem_cons_of_mem x hy))
    exact get_step hd (hxs x List.mem_cons_self) h

end Nesting

/-- The end of a body leaves the parentheses and brackets of the body open. Their depth is as at the
start exactly if the body opens without closing as many of them as it has closed of those around
it. -/
theorem depth_cancelled {text : String} {d : Delimiter}
    (hfree : ({} : Nesting).operatorFree (Lexeme.ofText text) = true) (hd : d ≠ .brace)
    (m : MacroLine (Lexeme.ofText text)) :
    (∃ earlier, ⟨earlier ++ m.cancelled.notes, .cancel, m.ending.line,
        m.cancelled.nesting.depths⟩ ∈ (Stream.ofText text).items) ∧
      m.cancelled.nesting.depths.brace = m.start.depths.brace ∧
      m.cancelled.nesting.depths.get d =
        (Unmatched.ofLexemes d m.body).depth (m.start.depths.get d) ∧
      (m.cancelled.nesting.depths.get d = m.start.depths.get d ↔
        (Unmatched.ofLexemes d m.body).openers =
          min (Unmatched.ofLexemes d m.body).closers (m.start.depths.get d)) := by
  have hout := Nesting.outside_ofText hfree
  have hdepth : m.cancelled.nesting.depths.get d =
      (Unmatched.ofLexemes d m.body).depth (m.start.depths.get d) := by
    calc
      m.cancelled.nesting.depths.get d = m.last.depths.get d := Nesting.get_newline m.isEnding hd
      _ = ((m.start.step m.head).nesting.after m.body).depths.get d := by rw [m.last_eq]
      _ = (Unmatched.ofLexemes d m.body).depth (m.start.depths.get d) := by
        apply Nesting.get_after hd (MacroLine.macroBody_last hout).2
        rw [Nesting.step_macroBody m.isHead]
        rfl
  refine ⟨m.mem_items hout, ?_, hdepth, ?_⟩
  · rw [MacroLine.cancelled_eq hout]
  · rw [hdepth]
    exact Unmatched.depth_eq_iff _ _

/-- A macro whose body is an opening parenthesis. -/
def openingMacro : MacroLine (Lexeme.ofText "#define A (\nx") where
  before := []
  head := ⟨.directive .macroBody, 1, none⟩
  body := [⟨.opening .paren, 1, none⟩]
  ending := ⟨.newline, 2, none⟩
  later := [⟨.token (.ident "x"), 2, none⟩]
  lexemes_eq := by decide +kernel
  isHead := rfl
  isEnding := rfl
  isLine := by simp

theorem openingMacro_operatorFree :
    ({} : Nesting).operatorFree (Lexeme.ofText "#define A (\nx") = true := by decide +kernel

theorem depth_cancelled_opening :
    ({} : Nesting).operatorFree (Lexeme.ofText "#define A (\nx") = true ∧
      openingMacro.start.depths.paren = 0 ∧ openingMacro.cancelled.nesting.depths.paren = 1 :=
  ⟨openingMacro_operatorFree, rfl,
    (depth_cancelled (d := .paren) openingMacro_operatorFree (by decide) openingMacro).2.2.1⟩

/-- What a body opens may stay open after it. -/
theorem parens_not_restored :
    ¬ ∀ (text : String) (m : MacroLine (Lexeme.ofText text)),
      ({} : Nesting).operatorFree (Lexeme.ofText text) = true →
        m.cancelled.nesting.depths.paren = m.start.depths.paren ∧
          m.cancelled.nesting.depths.bracket = m.start.depths.bracket := by
  intro h
  exact absurd (h _ openingMacro openingMacro_operatorFree).1 (by decide)

end Harvest
