import Harvest.Source.Stream
import Mathlib.Tactic.SplitIfs

/-!
# Runs over lexemes

What lexemes do one after the other: the nesting they lead to and the notes they give rise to. A
stream is such a run, cut at its tokens.

Some notes keep the state of the reader and some take it up again. Main statements: the states that
are kept are numbered in the order of the text, and none of them is taken up twice.
-/

namespace Harvest

/-- A note about the state of the reader. -/
def Note.isState : Note → Bool
  | save _ | restore _ => true
  | _ => false

/-- The note about what a lexeme left unfinished. -/
def Lexeme.faultNotes (x : Lexeme) : List Note :=
  (x.fault.map fun f ↦ Note.problem x.line f.kind f.message).toList

theorem Lexeme.filter_faultNotes (x : Lexeme) : x.faultNotes.filter Note.isState = [] := by
  rw [faultNotes]
  cases x.fault <;> rfl

namespace Nesting

section Steps

variable {n : Nesting} {x : Lexeme} {c : Conditional} {outer : List Conditional}

theorem step_newline {body : MacroBody} (hx : x.kind = .newline)
    (hbody : n.macroBody = some body) :
    n.step x = ⟨{ n with depths := { n.depths with brace := body.floor }, macroBody := none },
      [.restore body.slot, .macroEnded], some .cancel⟩ := by
  simp only [step, hx, endLine, hbody]

theorem step_macroBody (hx : x.kind = .directive .macroBody) :
    n.step x = ⟨{ n with macroBody := some ⟨n.saves, n.depths.brace⟩, saves := n.saves + 1 },
      .save n.saves :: x.faultNotes, none⟩ := by
  simp only [step, hx, directive]
  rfl

theorem step_conditional (hx : x.kind = .directive .conditional) :
    n.step x = ⟨{ n with conditionals := ⟨n.depths, none, 0⟩ :: n.conditionals }, x.faultNotes,
      none⟩ := by
  simp only [step, hx, directive]
  rfl

/-- The end of the first branch of a conditional that has several. -/
theorem step_firstAlternative (hx : x.kind = .directive .alternative)
    (hopen : n.conditionals = c :: outer) (hfirst : c.first = none) :
    n.step x = ⟨{ n with
        depths := c.start
        conditionals := ⟨c.start, some (n.depths, n.saves), x.line⟩ :: outer
        saves := n.saves + 1 }, .save n.saves :: x.faultNotes, none⟩ := by
  simp only [step, hx, directive, alternative, hopen, hfirst]
  rfl

/-- The complaint about a branch of the conditional that ends at other depths than the first, which
ended at `ended`. -/
def mismatch (n : Nesting) (c : Conditional) (ended : Depths) (message : String) : List Note :=
  if ended = n.depths then [] else [.problem c.line .branchMismatch message]

/-- The end of a later branch, where another one follows. -/
theorem step_alternative {ended : Depths} {slot : Nat} (hx : x.kind = .directive .alternative)
    (hopen : n.conditionals = c :: outer) (hfirst : c.first = some (ended, slot)) :
    n.step x = ⟨{ n with
        depths := c.start
        conditionals := ⟨c.start, some (ended, slot), x.line⟩ :: outer },
      n.mismatch c ended mismatchAtAlternative ++ x.faultNotes, none⟩ := by
  simp only [step, hx, directive, alternative, hopen, hfirst]
  rfl

/-- The end of the last branch, if it is not the only one. -/
theorem step_conditionalEnd {ended : Depths} {slot : Nat}
    (hx : x.kind = .directive .conditionalEnd) (hopen : n.conditionals = c :: outer)
    (hfirst : c.first = some (ended, slot)) :
    n.step x = ⟨{ n with depths := ended, conditionals := outer },
      n.mismatch c ended mismatchAtEnd ++ .restore slot :: x.faultNotes, none⟩ := by
  simp only [step, hx, directive, endConditional, hopen, hfirst, mismatch, List.append_assoc,
    List.singleton_append]
  rfl

/-- The end of a conditional with one branch. -/
theorem step_onlyBranchEnd (hx : x.kind = .directive .conditionalEnd)
    (hopen : n.conditionals = c :: outer) (hfirst : c.first = none) :
    n.step x = ⟨{ n with conditionals := outer }, x.faultNotes, none⟩ := by
  simp only [step, hx, directive, endConditional, hopen, hfirst]
  rfl

/-- A directive that belongs to no conditional. -/
theorem step_unopened {d : Directive} (hx : x.kind = .directive d)
    (hd : d = .alternative ∨ d = .conditionalEnd) (hopen : n.conditionals = []) :
    n.step x = ⟨n, x.faultNotes, none⟩ := by
  rcases hd with rfl | rfl
  · simp only [step, hx, directive, alternative, hopen]
    rfl
  · simp only [step, hx, directive, endConditional, hopen]
    rfl

/-- Only newlines and definitions of macros have an effect on macro bodies. -/
theorem macroBody_step (n : Nesting) (x : Lexeme) :
    (n.step x).nesting.macroBody =
      if x.kind = .newline then none
      else if x.kind = .directive .macroBody then some ⟨n.saves, n.depths.brace⟩
      else n.macroBody := by
  cases hx : x.kind with
  | newline =>
    simp only [step, hx, endLine, if_true]
    split <;> simp [*]
  | directive d =>
    cases d <;> simp only [step, hx, directive, alternative, endConditional] <;>
      (repeat' split) <;> simp_all
  | closing d =>
    cases d <;> simp only [step, hx, closeDelimiter] <;> split_ifs <;> simp_all
  | _ => simp [step, hx, openDelimiter]

theorem filter_mismatch (n : Nesting) (c : Conditional) (ended : Depths) (message : String) :
    (n.mismatch c ended message).filter Note.isState = [] := by
  rw [mismatch]
  split_ifs <;> rfl

end Steps

/-- The slots whose states may still be taken up: that of the open macro body, and those of the first
branches that have ended. -/
def held (n : Nesting) : List Nat :=
  (n.macroBody.map MacroBody.slot).toList ++
    n.conditionals.filterMap fun c ↦ c.first.map Prod.snd

/-- What a lexeme does with the states that are kept. `e` is its effect. -/
inductive Handles (n : Nesting) (x : Lexeme) (e : Effect) : Prop
  | nothing (hnotes : e.notes.filter Note.isState = []) (hsaves : e.nesting.saves = n.saves)
      (hheld : e.nesting.held = n.held)
  | keeps (hnotes : e.notes.filter Note.isState = [.save n.saves])
      (hsaves : e.nesting.saves = n.saves + 1) (hheld : e.nesting.held.Perm (n.saves :: n.held))
  | takesUp (slot : Nat) (hnotes : e.notes.filter Note.isState = [.restore slot])
      (hsaves : e.nesting.saves = n.saves) (hheld : n.held.Perm (slot :: e.nesting.held))
  /-- A macro is defined within the body of another, whose state is lost. -/
  | replaces (body : MacroBody) (hx : x.kind = .directive .macroBody)
      (hbody : n.macroBody = some body) (hnotes : e.notes.filter Note.isState = [.save n.saves])
      (hsaves : e.nesting.saves = n.saves + 1)
      (hheld : (body.slot :: e.nesting.held).Perm (n.saves :: n.held))

theorem handles_newline {n : Nesting} {x : Lexeme} (hx : x.kind = .newline) :
    n.Handles x (n.step x) := by
  cases hbody : n.macroBody with
  | none =>
    have hstep : n.step x = ⟨n, [], none⟩ := by simp only [step, hx, endLine, hbody]
    rw [hstep]
    exact .nothing rfl rfl rfl
  | some body =>
    rw [step_newline hx hbody]
    refine .takesUp body.slot rfl rfl ?_
    simp [held, hbody]

theorem handles_directive {n : Nesting} {x : Lexeme} {d : Directive}
    (hx : x.kind = .directive d) : n.Handles x (n.step x) := by
  have hfault := x.filter_faultNotes
  cases d with
  | conditional =>
    rw [step_conditional hx]
    exact .nothing hfault rfl rfl
  | other =>
    have hstep : n.step x = ⟨n, x.faultNotes, none⟩ := by
      simp only [step, hx, directive]
      rfl
    rw [hstep]
    exact .nothing hfault rfl rfl
  | macroBody =>
    rw [step_macroBody hx]
    have hnotes : (Note.save n.saves :: x.faultNotes).filter Note.isState = [.save n.saves] := by
      rw [List.filter_cons_of_pos rfl, hfault]
    cases hbody : n.macroBody with
    | none => exact .keeps hnotes rfl (by simp [held, hbody])
    | some body => exact .replaces body hx hbody hnotes rfl (by simp [held, hbody, List.Perm.swap])
  | alternative =>
    cases hopen : n.conditionals with
    | nil =>
      rw [step_unopened hx (.inl rfl) hopen]
      exact .nothing hfault rfl rfl
    | cons c outer =>
      cases hfirst : c.first with
      | none =>
        rw [step_firstAlternative hx hopen hfirst]
        refine .keeps ?_ rfl ?_
        · rw [List.filter_cons_of_pos rfl, hfault]
        · simp [held, hopen, hfirst]
      | some found =>
        rw [step_alternative hx hopen hfirst]
        refine .nothing ?_ rfl ?_
        · rw [List.filter_append, filter_mismatch, hfault, List.append_nil]
        · simp [held, hopen, hfirst]
  | conditionalEnd =>
    cases hopen : n.conditionals with
    | nil =>
      rw [step_unopened hx (.inr rfl) hopen]
      exact .nothing hfault rfl rfl
    | cons c outer =>
      cases hfirst : c.first with
      | none =>
        rw [step_onlyBranchEnd hx hopen hfirst]
        refine .nothing hfault rfl ?_
        simp [held, hopen, hfirst]
      | some found =>
        rw [step_conditionalEnd hx hopen hfirst]
        refine .takesUp found.2 ?_ rfl ?_
        · rw [List.filter_append, filter_mismatch, List.filter_cons_of_pos rfl, hfault]
          rfl
        · simp [held, hopen, hfirst]

/-- What one lexeme does with the states that are kept. -/
theorem handles_step (n : Nesting) (x : Lexeme) : n.Handles x (n.step x) := by
  have hfault := x.filter_faultNotes
  cases hx : x.kind with
  | newline => exact handles_newline hx
  | directive d => exact handles_directive hx
  | passed =>
    simp only [step, hx]
    exact .nothing hfault rfl rfl
  | token t =>
    simp only [step, hx]
    exact .nothing hfault rfl rfl
  | opening d =>
    simp only [step, hx]
    exact .nothing rfl rfl rfl
  | closing d =>
    simp only [step, hx]
    cases d
    all_goals
      simp only [closeDelimiter]
      split_ifs <;> exact .nothing rfl rfl rfl
  | comment body =>
    simp only [step, hx]
    refine .nothing ?_ rfl rfl
    rw [List.filter_append]
    change x.faultNotes.filter Note.isState ++ [] = []
    rw [hfault]
    rfl

/-- The slots in which one lexeme keeps a state. -/
theorem count_save_step (n : Nesting) (x : Lexeme) (k : Nat) :
    n.saves ≤ (n.step x).nesting.saves ∧ (n.step x).notes.count (.save k) =
      if n.saves ≤ k ∧ k < (n.step x).nesting.saves then 1 else 0 := by
  have hfilter : ((n.step x).notes.filter Note.isState).count (.save k) =
      (n.step x).notes.count (.save k) := List.count_filter rfl
  rw [← hfilter]
  cases n.handles_step x with
  | nothing hnotes hsaves _ | takesUp _ hnotes hsaves _ =>
    rw [hnotes, hsaves, if_neg (by omega)]
    exact ⟨Nat.le_refl _, rfl⟩
  | keeps hnotes hsaves _ | replaces _ _ _ hnotes hsaves _ =>
    have hslot : (Note.save n.saves == Note.save k) = true ↔ n.saves ≤ k ∧ k < n.saves + 1 := by
      rw [beq_iff_eq, Note.save.injEq]
      omega
    rw [hnotes, hsaves, List.count_singleton]
    simp only [hslot]
    exact ⟨Nat.le_succ _, trivial⟩

/-- A state that one lexeme takes up is not held any more, and one that it keeps is held from then
on. -/
theorem count_restore_step (n : Nesting) (x : Lexeme) (k : Nat) :
    (n.step x).notes.count (.restore k) + (n.step x).nesting.held.count k ≤
        n.held.count k + (n.step x).notes.count (.save k) ∧
      ((x.kind = .directive .macroBody → n.macroBody = none) →
        (n.step x).notes.count (.restore k) + (n.step x).nesting.held.count k =
          n.held.count k + (n.step x).notes.count (.save k)) := by
  have hsave : ((n.step x).notes.filter Note.isState).count (.save k) =
      (n.step x).notes.count (.save k) := List.count_filter rfl
  have hrestore : ((n.step x).notes.filter Note.isState).count (.restore k) =
      (n.step x).notes.count (.restore k) := List.count_filter rfl
  rw [← hsave, ← hrestore]
  cases n.handles_step x with
  | nothing hnotes _ hheld => simp [hnotes, hheld]
  | keeps hnotes _ hheld =>
    have hcount := hheld.count_eq k
    simp only [List.count_cons] at hcount
    simp [hnotes, hcount, List.count_singleton]
  | takesUp slot hnotes _ hheld =>
    have hcount := hheld.count_eq k
    simp only [List.count_cons] at hcount
    simp [hnotes, hcount, List.count_singleton, Nat.add_comm]
  | replaces body hx hbody hnotes _ hheld =>
    have hcount := hheld.count_eq k
    simp only [List.count_cons] at hcount
    refine ⟨?_, fun hout ↦ absurd (hbody.symm.trans (hout hx)) (by simp)⟩
    simp only [hnotes, List.count_singleton, Note.save.injEq, beq_iff_eq, reduceCtorEq] at hcount ⊢
    simp
    omega

/-- The notes that lexemes give rise to, from the nesting `n` on. -/
def notesOf (n : Nesting) : List Lexeme → List Note
  | [] => []
  | x :: xs => (n.step x).notes ++ (n.step x).nesting.notesOf xs

theorem after_cons (n : Nesting) (x : Lexeme) (xs : List Lexeme) :
    n.after (x :: xs) = (n.step x).nesting.after xs := rfl

theorem after_append (n : Nesting) (xs ys : List Lexeme) :
    n.after (xs ++ ys) = (n.after xs).after ys := List.foldl_append

theorem notesOf_append (n : Nesting) (xs ys : List Lexeme) :
    n.notesOf (xs ++ ys) = n.notesOf xs ++ (n.after xs).notesOf ys := by
  induction xs generalizing n with
  | nil => rfl
  | cons x xs ih =>
    rw [List.cons_append, notesOf, notesOf, ih, List.append_assoc]
    rfl

/-- The states are kept in slots that are numbered in the order of the text. -/
theorem count_save (n : Nesting) (xs : List Lexeme) (k : Nat) :
    n.saves ≤ (n.after xs).saves ∧ (n.notesOf xs).count (.save k) =
      if n.saves ≤ k ∧ k < (n.after xs).saves then 1 else 0 := by
  induction xs generalizing n with
  | nil => exact ⟨Nat.le_refl _, (if_neg (by simp [after])).symm⟩
  | cons x xs ih =>
    obtain ⟨hle, hcount⟩ := n.count_save_step x k
    obtain ⟨hle', hcount'⟩ := ih (n.step x).nesting
    rw [after_cons, notesOf, List.count_append, hcount, hcount']
    refine ⟨Nat.le_trans hle hle', ?_⟩
    split_ifs <;> omega

/-- No state is taken up that was not kept, and none is taken up twice. -/
theorem count_restore_le (n : Nesting) (xs : List Lexeme) (k : Nat) :
    (n.notesOf xs).count (.restore k) + (n.after xs).held.count k ≤
      n.held.count k + (n.notesOf xs).count (.save k) := by
  induction xs generalizing n with
  | nil => simp [notesOf, after]
  | cons x xs ih =>
    have hstep := (n.count_restore_step x k).1
    have hrest := ih (n.step x).nesting
    rw [after_cons, notesOf, List.count_append, List.count_append]
    omega

/-- Every state that was kept was taken up or is still held, unless a macro was defined within the
body of another. -/
theorem count_restore {n : Nesting} {xs : List Lexeme}
    (hout : ∀ before x later, xs = before ++ x :: later → x.kind = .directive .macroBody →
      (n.after before).macroBody = none) (k : Nat) :
    (n.notesOf xs).count (.restore k) + (n.after xs).held.count k =
      n.held.count k + (n.notesOf xs).count (.save k) := by
  induction xs generalizing n with
  | nil => simp [notesOf, after]
  | cons x xs ih =>
    have hstep := (n.count_restore_step x k).2 (hout [] x xs rfl)
    have hrest := @ih (n.step x).nesting fun before y later hxs ↦
      hout (x :: before) y later (hxs ▸ rfl)
    rw [after_cons, notesOf, List.count_append, List.count_append]
    omega

/-- The items of a run are cut where lexemes end; what was noted since the last token comes with the
next one. -/
theorem exists_items_append (n : Nesting) (notes : List Note) (line : Nat) (xs ys : List Lexeme) :
    ∃ is notes' line', n.items notes line (xs ++ ys) = is ++ (n.after xs).items notes' line' ys ∧
      is.flatMap Item.notes ++ notes' = notes ++ n.notesOf xs := by
  induction xs generalizing n notes line with
  | nil => exact ⟨[], notes, line, rfl, by simp [notesOf]⟩
  | cons x xs ih =>
    rw [List.cons_append, items]
    cases htoken : (n.step x).token with
    | none =>
      obtain ⟨is, notes', line', hitems, hnotes⟩ :=
        ih (n.step x).nesting (notes ++ (n.step x).notes) x.line
      refine ⟨is, notes', line', hitems, ?_⟩
      rw [hnotes, notesOf, List.append_assoc]
    | some t =>
      obtain ⟨is, notes', line', hitems, hnotes⟩ := ih (n.step x).nesting [] x.line
      refine ⟨_ :: is, notes', line', congrArg (List.cons _) hitems, ?_⟩
      rw [List.flatMap_cons, List.append_assoc, hnotes, notesOf, List.nil_append, List.append_assoc]

/-- The items hold all that was noted. -/
theorem flatMap_notes_items (n : Nesting) (notes : List Note) (line : Nat) (xs : List Lexeme) :
    (n.items notes line xs).flatMap Item.notes = notes ++ n.notesOf xs := by
  obtain ⟨is, notes', line', hitems, hnotes⟩ := exists_items_append n notes line xs []
  rw [List.append_nil] at hitems
  rw [hitems, List.flatMap_append, items, List.flatMap_singleton, hnotes]

end Nesting

/-- The lexemes of a text. -/
def Lexeme.ofText (text : String) : List Lexeme := scan (Glyph.ofText text)

namespace Stream

/-- What is noted in a text up to its end. -/
def notes (text : String) : List Note := (ofText text).items.flatMap Item.notes

theorem notes_eq (text : String) : notes text = ({} : Nesting).notesOf (Lexeme.ofText text) :=
  Nesting.flatMap_notes_items {} [] 1 (Lexeme.ofText text)

/-- The token of a lexeme is an item of the stream. -/
theorem mem_items_of_step {text : String} {before later : List Lexeme} {x : Lexeme} {t : Token}
    (htext : Lexeme.ofText text = before ++ x :: later)
    (htoken : ((({} : Nesting).after before).step x).token = some t) :
    ∃ earlier, ⟨earlier ++ ((({} : Nesting).after before).step x).notes, t, x.line,
      ((({} : Nesting).after before).step x).nesting.depths⟩ ∈ (ofText text).items := by
  obtain ⟨is, notes', line', hitems, -⟩ :=
    Nesting.exists_items_append {} [] 1 before (x :: later)
  have hstream : (ofText text).items =
      is ++ (({} : Nesting).after before).items notes' line' (x :: later) := by
    rw [← hitems, ← htext]
    rfl
  rw [hstream, Nesting.items, htoken]
  exact ⟨notes', List.mem_append_right is List.mem_cons_self⟩

theorem mem_notes_of_step {text : String} {before later : List Lexeme} {x : Lexeme} {note : Note}
    (htext : Lexeme.ofText text = before ++ x :: later)
    (hnote : note ∈ ((({} : Nesting).after before).step x).notes) : note ∈ notes text := by
  rw [notes_eq, htext, Nesting.notesOf_append]
  exact List.mem_append_right _ (List.mem_append_left _ hnote)

/-- A state that is taken up in a text is kept once and taken up once. -/
theorem count_of_restore_mem {text : String} {slot : Nat} (h : .restore slot ∈ notes text) :
    (notes text).count (.save slot) = 1 ∧ (notes text).count (.restore slot) = 1 := by
  have hpos : 0 < (notes text).count (.restore slot) := List.count_pos_iff.2 h
  rw [notes_eq] at hpos ⊢
  have hsave := (({} : Nesting).count_save (Lexeme.ofText text) slot).2
  have hrestore := ({} : Nesting).count_restore_le (Lexeme.ofText text) slot
  have hnone : ({} : Nesting).held.count slot = 0 := rfl
  split_ifs at hsave <;> omega

end Stream

end Harvest
