import Harvest.Proofs.Source.Runs

/-!
# Branches of conditionals

The branches of a conditional are read one after the other, each of them from the depths at which
the conditional starts. The first one counts: what follows the conditional is read from the depths
and in the state that the first branch ended with, and a branch that ends at other depths is
reported.

Main statement: `branches_reconciled`, for conditionals with two branches or more. What stands in a
branch is arbitrary, conditionals among it.
-/

namespace Harvest

/-- Whether lexemes close the conditionals that they open and `k` more, and nothing else. No
alternative among them belongs to a conditional around them. -/
def Lexeme.encloses : Nat → List Lexeme → Bool
  | k, [] => k = 0
  | k, x :: xs =>
    match x.kind with
    | .directive .conditional => encloses (k + 1) xs
    | .directive .alternative => k ≠ 0 && encloses k xs
    | .directive .conditionalEnd => k ≠ 0 && encloses (k - 1) xs
    | _ => encloses k xs

/-- A branch of a conditional, with the directive that opens it. -/
structure Branch where
  opener : Lexeme
  body : List Lexeme
  isBody : Lexeme.encloses 0 body = true

def Branch.lexemes (b : Branch) : List Lexeme := b.opener :: b.body

/-- A conditional with two branches or more. -/
structure BranchGroup where
  first : Branch
  second : Branch
  more : List Branch
  ending : Lexeme
  isFirst : first.opener.kind = .directive .conditional
  isLater : ∀ b ∈ second :: more, b.opener.kind = .directive .alternative
  isEnding : ending.kind = .directive .conditionalEnd

namespace BranchGroup

/-- The branches after the first. -/
def later (g : BranchGroup) : List Branch := g.second :: g.more

def lexemes (g : BranchGroup) : List Lexeme :=
  g.first.lexemes ++ (g.later.flatMap Branch.lexemes ++ [g.ending])

end BranchGroup

/-- How a branch went: the line of the directive that opens it, and the depths at its start and at
its end. -/
structure Course where
  line : Nat
  start : Depths
  ended : Depths
deriving DecidableEq

/-- The line of a report that branches end at different depths. -/
def Note.mismatchLine? : Note → Option Nat
  | problem line .branchMismatch _ => some line
  | _ => none

theorem Lexeme.mismatchLine?_faultNotes (x : Lexeme) :
    x.faultNotes.filterMap Note.mismatchLine? = [] := by
  rw [faultNotes]
  cases x.fault with
  | none => rfl
  | some f => cases f <;> rfl

/-- The lines of the directives that open branches which do not end at the depths `ended`. -/
def Course.strayLines (ended : Depths) (courses : List Course) : List Nat :=
  (courses.filter (·.ended ≠ ended)).map Course.line

namespace Nesting

/-- How branches go, from the nesting `n` on. -/
def courses (n : Nesting) : List Branch → List Course
  | [] => []
  | b :: bs =>
    ⟨b.opener.line, (n.step b.opener).nesting.depths, (n.after b.lexemes).depths⟩ ::
      (n.after b.lexemes).courses bs

/-- The notes at the directives that belong to the branches and at the end of their conditional. -/
def ownNotes (n : Nesting) (ending : Lexeme) : List Branch → List Note
  | [] => (n.step ending).notes
  | b :: bs => (n.step b.opener).notes ++ (n.after b.lexemes).ownNotes ending bs

/-- The branches of a conditional that is met at the nesting `n` are reconciled to the first. -/
structure Reconciles (n : Nesting) (g : BranchGroup) : Prop where
  /-- Each later branch starts with the depths that the conditional started with. -/
  starts : ∀ c ∈ (n.after g.first.lexemes).courses g.later, c.start = n.depths
  /-- After the conditional the depths are those at the end of the first branch. -/
  depths : (n.after g.lexemes).depths = (n.after g.first.lexemes).depths
  /-- A state is kept at the end of the first branch. -/
  saved : ((n.after g.first.lexemes).step g.second.opener).notes =
    .save (n.after g.first.lexemes).saves :: g.second.opener.faultNotes
  /-- It is taken up once, and no other state is kept or taken up for the conditional. -/
  states : (n.ownNotes g.ending (g.first :: g.later)).filter Note.isState =
    [.save (n.after g.first.lexemes).saves, .restore (n.after g.first.lexemes).saves]
  /-- The later branches that end at other depths than the first are reported, each at the line of
  its directive. -/
  reports : (n.ownNotes g.ending (g.first :: g.later)).filterMap Note.mismatchLine? =
    Course.strayLines (n.after g.first.lexemes).depths
      ((n.after g.first.lexemes).courses g.later)

variable {n : Nesting} {x : Lexeme} {xs : List Lexeme} {outer : List Conditional}

theorem conditionals_step_of_other (hx : ∀ d, x.kind = .directive d → d = .macroBody ∨ d = .other) :
    (n.step x).nesting.conditionals = n.conditionals := by
  cases hkind : x.kind with
  | directive d =>
    rcases hx d hkind with rfl | rfl
    · rw [step_macroBody hkind]
    · simp only [step, hkind, directive]
  | newline =>
    simp only [step, hkind, endLine]
    split <;> rfl
  | closing d =>
    cases d
    all_goals
      simp only [step, hkind, closeDelimiter]
      split_ifs <;> rfl
  | _ => simp only [step, hkind, openDelimiter]

/-- One lexeme opens or closes at most one conditional, the innermost, and keeps those around. -/
theorem exists_conditionals_step {inner : List Conditional}
    (hopen : n.conditionals = inner ++ outer)
    (hxs : Lexeme.encloses inner.length (x :: xs) = true) :
    ∃ inner', (n.step x).nesting.conditionals = inner' ++ outer ∧
      Lexeme.encloses inner'.length xs = true := by
  rw [Lexeme.encloses] at hxs
  split at hxs
  case h_1 hx =>
    refine ⟨⟨n.depths, none, 0⟩ :: inner, ?_, hxs⟩
    rw [step_conditional hx, hopen]
    rfl
  case h_2 hx =>
    obtain ⟨hinner, hxs⟩ := Bool.and_eq_true_iff.1 hxs
    cases inner with
    | nil => exact absurd hinner (by simp)
    | cons c inner =>
      cases hfirst : c.first with
      | none =>
        refine ⟨⟨c.start, some (n.depths, n.saves), x.line⟩ :: inner, ?_, hxs⟩
        rw [step_firstAlternative hx hopen hfirst]
        rfl
      | some found =>
        refine ⟨⟨c.start, some found, x.line⟩ :: inner, ?_, hxs⟩
        rw [step_alternative hx hopen hfirst]
        rfl
  case h_3 hx =>
    obtain ⟨hinner, hxs⟩ := Bool.and_eq_true_iff.1 hxs
    cases inner with
    | nil => exact absurd hinner (by simp)
    | cons c inner =>
      refine ⟨inner, ?_, hxs⟩
      cases hfirst : c.first with
      | none =>
        rw [step_onlyBranchEnd hx hopen hfirst]
        rfl
      | some found =>
        rw [step_conditionalEnd hx hopen hfirst]
        rfl
  case h_4 hconditional halternative hending =>
    refine ⟨inner, ?_, hxs⟩
    rw [← hopen]
    apply conditionals_step_of_other
    intro d hx
    cases d with
    | macroBody => exact .inl rfl
    | other => exact .inr rfl
    | conditional => exact absurd hx hconditional
    | alternative => exact absurd hx halternative
    | conditionalEnd => exact absurd hx hending

/-- The conditionals around lexemes that close what they open stay as they are. -/
theorem conditionals_after {inner : List Conditional} (hopen : n.conditionals = inner ++ outer)
    (hxs : Lexeme.encloses inner.length xs = true) : (n.after xs).conditionals = outer := by
  induction xs generalizing n inner with
  | nil =>
    have hinner : inner = [] := List.eq_nil_of_length_eq_zero (by simpa [Lexeme.encloses] using hxs)
    rw [after, List.foldl_nil, hopen, hinner, List.nil_append]
  | cons x xs ih =>
    obtain ⟨inner', hopen', hxs'⟩ := exists_conditionals_step hopen hxs
    exact ih hopen' hxs'

theorem conditionals_body (n : Nesting) (b : Branch) :
    (n.after b.lexemes).conditionals = (n.step b.opener).nesting.conditionals := by
  rw [Branch.lexemes, after_cons]
  exact conditionals_after (List.nil_append _).symm b.isBody

section Later

variable {start ended : Depths} {slot line : Nat} {ending : Lexeme} {bs : List Branch}

theorem strayLines_courses_cons (n : Nesting) (ended : Depths) (b : Branch) (bs : List Branch) :
    Course.strayLines ended (n.courses (b :: bs)) =
      (if (n.after b.lexemes).depths ≠ ended then [b.opener.line] else []) ++
        Course.strayLines ended ((n.after b.lexemes).courses bs) := by
  rw [courses, Course.strayLines, List.filter_cons]
  split_ifs <;> simp_all [Course.strayLines]

theorem mismatchLine?_mismatch (n : Nesting) (c : Conditional) (ended : Depths) (message : String) :
    (n.mismatch c ended message).filterMap Note.mismatchLine? =
      if n.depths ≠ ended then [c.line] else [] := by
  rw [mismatch]
  split_ifs <;> simp_all [Note.mismatchLine?]

/-- From the end of a branch after the first, which was opened on `line`, on. -/
theorem later_run (hopen : n.conditionals = ⟨start, some (ended, slot), line⟩ :: outer)
    (hbs : ∀ b ∈ bs, b.opener.kind = .directive .alternative)
    (hending : ending.kind = .directive .conditionalEnd) :
    (∀ c ∈ n.courses bs, c.start = start) ∧
      (n.after (bs.flatMap Branch.lexemes ++ [ending])).depths = ended ∧
      (n.ownNotes ending bs).filter Note.isState = [.restore slot] ∧
      (n.ownNotes ending bs).filterMap Note.mismatchLine? =
        (if n.depths ≠ ended then [line] else []) ++ Course.strayLines ended (n.courses bs) := by
  induction bs generalizing n line with
  | nil =>
    have hstep := step_conditionalEnd hending hopen rfl
    refine ⟨by simp [courses], ?_, ?_, ?_⟩
    · rw [List.flatMap_nil, List.nil_append, after_cons, hstep]
      rfl
    · rw [ownNotes, hstep, List.filter_append, filter_mismatch, List.filter_cons_of_pos rfl,
        ending.filter_faultNotes]
      rfl
    · rw [ownNotes, hstep, List.filterMap_append, mismatchLine?_mismatch,
        List.filterMap_cons_none rfl, ending.mismatchLine?_faultNotes]
      rfl
  | cons b bs ih =>
    have hstep := step_alternative (hbs b List.mem_cons_self) hopen rfl
    have hbody : (n.after b.lexemes).conditionals =
        ⟨start, some (ended, slot), b.opener.line⟩ :: outer := by
      rw [conditionals_body, hstep]
    obtain ⟨hstarts, hended, hstate, hmismatch⟩ :=
      ih hbody fun b' hb' ↦ hbs b' (List.mem_cons_of_mem b hb')
    refine ⟨?_, ?_, ?_, ?_⟩
    · intro c hc
      cases hc with
      | head => rw [hstep]
      | tail _ hc => exact hstarts c hc
    · rw [List.flatMap_cons, List.append_assoc, after_append]
      exact hended
    · rw [ownNotes, hstep, List.filter_append, List.filter_append, filter_mismatch,
        b.opener.filter_faultNotes, hstate]
      rfl
    · rw [ownNotes, hstep, List.filterMap_append, List.filterMap_append, mismatchLine?_mismatch,
        b.opener.mismatchLine?_faultNotes, hmismatch, strayLines_courses_cons, List.append_nil]

end Later

/-- From the directive that opens a conditional to the one that closes it. -/
theorem reconciles (n : Nesting) (g : BranchGroup) : n.Reconciles g := by
  let firstEnd := n.after g.first.lexemes
  have hfirst : n.step g.first.opener = _ := step_conditional g.isFirst
  have hopen : firstEnd.conditionals = ⟨n.depths, none, 0⟩ :: n.conditionals := by
    rw [conditionals_body, hfirst]
  have hsecond := step_firstAlternative (g.isLater _ List.mem_cons_self) hopen rfl
  have hopen' : (firstEnd.after g.second.lexemes).conditionals =
      ⟨n.depths, some (firstEnd.depths, firstEnd.saves), g.second.opener.line⟩ ::
        n.conditionals := by
    rw [conditionals_body, hsecond]
  obtain ⟨hstarts, hended, hstate, hmismatch⟩ :=
    later_run hopen' (fun b hb ↦ g.isLater b (List.mem_cons_of_mem _ hb)) g.isEnding
  have hown : n.ownNotes g.ending (g.first :: g.later) = g.first.opener.faultNotes ++
      (.save firstEnd.saves :: g.second.opener.faultNotes ++
        (firstEnd.after g.second.lexemes).ownNotes g.ending g.more) := by
    change (n.step g.first.opener).notes ++ ((firstEnd.step g.second.opener).notes ++ _) = _
    rw [hfirst, hsecond]
  constructor
  case starts =>
    intro c hc
    cases hc with
    | head => rw [hsecond]
    | tail _ hc => exact hstarts c hc
  case depths =>
    calc
      (n.after g.lexemes).depths
          = (firstEnd.after (g.later.flatMap Branch.lexemes ++ [g.ending])).depths := by
        rw [BranchGroup.lexemes, after_append]
      _ = firstEnd.depths := by
        rw [BranchGroup.later, List.flatMap_cons, List.append_assoc, after_append, hended]
  case saved => rw [hsecond]
  case states =>
    rw [hown, List.filter_append, List.filter_append, List.filter_cons_of_pos rfl,
      Lexeme.filter_faultNotes, Lexeme.filter_faultNotes, hstate]
    rfl
  case reports =>
    rw [hown, List.filterMap_append, List.filterMap_append, List.filterMap_cons_none rfl,
      Lexeme.mismatchLine?_faultNotes, Lexeme.mismatchLine?_faultNotes, hmismatch,
      BranchGroup.later, strayLines_courses_cons]
    rfl

/-- What is noted for the branches is part of what is noted while they are read. -/
theorem ownNotes_sublist (n : Nesting) (ending : Lexeme) (bs : List Branch) :
    (n.ownNotes ending bs).Sublist (n.notesOf (bs.flatMap Branch.lexemes ++ [ending])) := by
  induction bs generalizing n with
  | nil =>
    rw [ownNotes, List.flatMap_nil, List.nil_append, notesOf]
    exact List.sublist_append_left _ _
  | cons b bs ih =>
    rw [ownNotes, List.flatMap_cons, List.append_assoc, notesOf_append]
    apply List.Sublist.append _ (ih _)
    rw [Branch.lexemes, notesOf]
    exact List.sublist_append_left _ _

end Nesting

/-- The branches of a conditional are reconciled to the first: each later one starts with the
depths of the conditional, the first decides how things stand after it, and the others are reported
if they end at other depths. -/
theorem branches_reconciled {text : String} {before rest : List Lexeme} {g : BranchGroup}
    (htext : Lexeme.ofText text = before ++ (g.lexemes ++ rest)) :
    (({} : Nesting).after before).Reconciles g ∧
      (Stream.notes text).count
        (.save ((({} : Nesting).after before).after g.first.lexemes).saves) = 1 ∧
      (Stream.notes text).count
        (.restore ((({} : Nesting).after before).after g.first.lexemes).saves) = 1 := by
  have hgroup := (({} : Nesting).after before).reconciles g
  refine ⟨hgroup, Stream.count_of_restore_mem ?_⟩
  have hstate : .restore ((({} : Nesting).after before).after g.first.lexemes).saves ∈
      ((({} : Nesting).after before).ownNotes g.ending (g.first :: g.later)).filter
        Note.isState := by
    rw [hgroup.states]
    simp
  have hown := (Nesting.ownNotes_sublist _ _ _).subset (List.mem_filter.1 hstate).1
  rw [Stream.notes_eq, htext, Nesting.notesOf_append, Nesting.notesOf_append]
  apply List.mem_append_right
  apply List.mem_append_left
  simpa [BranchGroup.lexemes] using hown

/-- A conditional with a conditional in its first branch, whose second branch ends at depths of its
own. -/
def nestedGroup : BranchGroup where
  first := ⟨⟨.directive .conditional, 1, none⟩,
    [⟨.opening .paren, 2, none⟩, ⟨.newline, 3, none⟩, ⟨.directive .conditional, 3, none⟩,
      ⟨.opening .brace, 4, none⟩, ⟨.newline, 5, none⟩, ⟨.directive .conditionalEnd, 5, none⟩], rfl⟩
  second := ⟨⟨.directive .alternative, 6, none⟩,
    [⟨.opening .bracket, 7, none⟩, ⟨.newline, 8, none⟩], rfl⟩
  more := [⟨⟨.directive .alternative, 8, none⟩,
    [⟨.opening .paren, 9, none⟩, ⟨.opening .brace, 9, none⟩, ⟨.newline, 10, none⟩], rfl⟩]
  ending := ⟨.directive .conditionalEnd, 10, none⟩
  isFirst := rfl
  isLater := by simp
  isEnding := rfl

theorem branches_reconciled_nested :
    Lexeme.ofText "#if A\n(\n#ifdef B\n\x7b\n#endif\n#elif C\n[\n#else\n(\x7b\n#endif\n" =
        [] ++ (nestedGroup.lexemes ++ []) ∧
      (({} : Nesting).after nestedGroup.lexemes).depths = ⟨1, 1, 0⟩ ∧
      (({} : Nesting).ownNotes nestedGroup.ending
        (nestedGroup.first :: nestedGroup.later)).filterMap Note.mismatchLine? = [6] := by
  have htext :
      Lexeme.ofText "#if A\n(\n#ifdef B\n\x7b\n#endif\n#elif C\n[\n#else\n(\x7b\n#endif\n" =
        [] ++ (nestedGroup.lexemes ++ []) := by decide +kernel
  obtain ⟨hgroup, -⟩ := branches_reconciled htext
  exact ⟨htext, hgroup.depths.trans (by decide), hgroup.reports.trans (by decide)⟩

end Harvest
