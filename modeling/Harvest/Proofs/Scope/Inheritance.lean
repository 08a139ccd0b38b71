import Mathlib.Data.Nat.Basic
import Mathlib.Order.Bounds.Defs
import Mathlib.Order.Interval.Set.Defs
import Harvest.Proofs.Scope.Formation
import Harvest.Proofs.Scope.Guards

/-!
# Inherited support

A call without a qualifier belongs to the innermost enclosing scope that supports localization,
itself or through a base class. Base classes may lead in cycles, and they are searched from one
enclosing scope after the other; a base class that was searched further inside is not searched
again. What was searched is closed under base classes and holds none with support, so that nothing
is missed.

Main statement: the search ends, guarded by nothing but the base classes and files that it has
visited. It gives the context of the innermost enclosing scope with support, if there is one.
Otherwise the call is in the scope where it is written, and the lack of support is reported once for
each definition.
-/

namespace Harvest

namespace Forest

variable {f : Forest} {t : Nat} {r : ScopeRef} {base : Name} {fresh : List Name}

/-- A base class of a scope, direct or not, as names are looked up from the file `t`. -/
inductive Inherits (f : Forest) (t : Nat) (r : ScopeRef) : Name → Prop
  | direct {base : Name} (h : base ∈ f.basesOf r) : Inherits f t r base
  | indirect {base next : Name} {x : ScopeRef} (h : Inherits f t r base)
      (hx : f.findName? t base = some x) (hnext : next ∈ f.basesOf x) : Inherits f t r next

/-- The scope at the first `k` segments of `place` supports localization, or a base class of it
does. -/
def Supported (f : Forest) (t : Nat) (place : Name) (k : Nat) : Prop :=
  ∃ r, f.find? t (place.below k) = some r ∧
    (f.supports r ∨ ∃ base x, f.Inherits t r base ∧ f.findName? t base = some x ∧ f.supports x)

/-- What the scope at the first `k` segments of `place` gives to a call: its own definition, or else
that of a base class, and the text of the context as long as none is settled. -/
def Gives (f : Forest) (t : Nat) (place : Name) (k : Nat) (found : ScopeRef × String) : Prop :=
  ∃ r, f.find? t (place.below k) = some r ∧
    if f.supports r then found = (f.definition r, Name.join (place.below k))
    else ∃ base x, f.Inherits t r base ∧ f.findName? t base = some x ∧ f.supports x ∧
      found = (f.definition x, base.render)

/-- The base classes of the scope that a name stands for. -/
def basesVia (f : Forest) (t : Nat) (base : Name) : List Name :=
  ((f.findName? t base).map f.basesOf).getD []

theorem ancestors_eq (f : Forest) (t : Nat) (fresh : List Name) (r : ScopeRef) :
    f.ancestors t fresh r = preorder id (f.basesVia t) fresh (f.basesOf r) := rfl

theorem mem_basesVia_iff {next : Name} :
    next ∈ f.basesVia t base ↔ ∃ x, f.findName? t base = some x ∧ next ∈ f.basesOf x := by
  unfold basesVia
  cases f.findName? t base with
  | none => simp
  | some x => simp

theorem mem_allBases_of_mem_basesVia {next : Name} (h : next ∈ f.basesVia t base) :
    next ∈ f.allBases := by
  obtain ⟨x, -, hnext⟩ := mem_basesVia_iff.1 h
  exact mem_allBases_of_mem hnext

theorem supporting?_eq_some_iff {d : ScopeRef} :
    f.supporting? t base = some d ↔
      ∃ x, f.findName? t base = some x ∧ f.supports x ∧ f.definition x = d := by
  unfold supporting?
  cases f.findName? t base with
  | none => simp
  | some x => simp

theorem inherits_iff :
    f.Inherits t r base ↔ ReachedFrom (f.basesVia t) (f.basesOf r) base := by
  constructor
  · intro h
    induction h with
    | direct h => exact ⟨_, h, .refl⟩
    | indirect _ hx hnext ih => exact ih.after (mem_basesVia_iff.2 ⟨_, hx, hnext⟩)
  · rintro ⟨first, hfirst, hreaches⟩
    induction hreaches with
    | refl => exact .direct hfirst
    | tail _ hlast ih =>
      obtain ⟨x, hx, hnext⟩ := mem_basesVia_iff.1 hlast
      exact ih.indirect hx hnext

theorem Inherits.mem_allBases (h : f.Inherits t r base) : base ∈ f.allBases := by
  cases h with
  | direct h => exact mem_allBases_of_mem h
  | indirect _ _ hnext => exact mem_allBases_of_mem hnext

/-- The base classes outside of `fresh` were searched in vain: neither they nor their base classes
support localization. -/
def Exhausted (f : Forest) (t : Nat) (fresh : List Name) : Prop :=
  ∀ base ∈ f.allBases, base ∉ fresh →
    f.supporting? t base = none ∧ ∀ next ∈ f.basesVia t base, next ∉ fresh

theorem exhausted_allBases (f : Forest) (t : Nat) : f.Exhausted t f.allBases :=
  fun _ hbase hnot ↦ (hnot hbase).elim

/-- What was searched before hides nothing else. -/
theorem Exhausted.mem_ancestors (h : f.Exhausted t fresh) (hbase : f.Inherits t r base)
    (hfresh : base ∈ fresh) : base ∈ f.ancestors t fresh r := by
  have hdone : ∀ base, base ∈ f.allBases ∧ base ∉ fresh →
      ∀ next ∈ f.basesVia t base, next ∈ f.allBases ∧ next ∉ fresh := by
    rintro base ⟨hall, hnot⟩ next hnext
    exact ⟨mem_allBases_of_mem_basesVia hnext, (h base hall hnot).2 next hnext⟩
  rw [ancestors_eq]
  apply mem_preorder_of_reachedFrom hdone
  · intro base hreached hleft
    by_contra hnot
    exact hleft ⟨(inherits_iff.2 hreached).mem_allBases, hnot⟩
  · exact fun _ _ _ _ hkey ↦ hkey
  · exact inherits_iff.1 hbase
  · exact fun hdone ↦ hdone.2 hfresh

theorem inherits_of_mem_ancestors (h : base ∈ f.ancestors t fresh r) : f.Inherits t r base :=
  inherits_iff.2 (reachedFrom_of_mem_preorder h)

/-- After a search in vain, no base class of the scope supports localization. -/
theorem Exhausted.supporting?_eq_none (h : f.Exhausted t fresh)
    (hvain : ∀ base ∈ f.ancestors t fresh r, f.supporting? t base = none)
    (hbase : f.Inherits t r base) : f.supporting? t base = none := by
  by_cases hfresh : base ∈ fresh
  · exact hvain base (h.mem_ancestors hbase hfresh)
  · exact (h base hbase.mem_allBases hfresh).1

/-- What a search in vain has visited joins what was searched before. -/
theorem Exhausted.filter (h : f.Exhausted t fresh)
    (hvain : ∀ base ∈ f.ancestors t fresh r, f.supporting? t base = none) :
    f.Exhausted t (fresh.filter (· ∉ f.ancestors t fresh r)) := by
  intro base hall hnot
  by_cases hreached : base ∈ f.ancestors t fresh r
  · refine ⟨hvain base hreached, fun next hnext hleft ↦ ?_⟩
    obtain ⟨hfresh, hmissed⟩ := List.mem_filter.1 hleft
    obtain ⟨x, hx, hnext⟩ := mem_basesVia_iff.1 hnext
    have hinherits := (inherits_of_mem_ancestors hreached).indirect hx hnext
    exact of_decide_eq_true hmissed (h.mem_ancestors hinherits hfresh)
  · have hold : base ∉ fresh := fun hfresh ↦
      hnot (List.mem_filter.2 ⟨hfresh, decide_eq_true hreached⟩)
    refine ⟨(h base hall hold).1, fun next hnext hleft ↦ ?_⟩
    exact (h base hall hold).2 next hnext (List.mem_filter.1 hleft).1

/-- The answer is given by the innermost of the first `k` enclosing scopes with support. -/
def Innermost (f : Forest) (t : Nat) (place : Name) (k : Nat) : Option (ScopeRef × String) → Prop
  | none => ∀ i ∈ Set.Icc 1 k, ¬f.Supported t place i
  | some found => ∃ i ∈ Set.Icc 1 k, f.Gives t place i found ∧
      ∀ j ∈ Set.Ioc i k, ¬f.Supported t place j

variable {place : Name} {k : Nat}

theorem Innermost.succ {answer : Option (ScopeRef × String)} (h : f.Innermost t place k answer)
    (hnot : ¬f.Supported t place (k + 1)) : f.Innermost t place (k + 1) answer := by
  have hlast : ∀ {j}, j ≤ k + 1 → (j ≤ k → ¬f.Supported t place j) → ¬f.Supported t place j := by
    intro j hj hbefore
    rcases Nat.le_succ_iff.1 hj with hj | rfl
    · exact hbefore hj
    · exact hnot
  cases answer with
  | none => exact fun i hi ↦ hlast hi.2 fun hle ↦ h i ⟨hi.1, hle⟩
  | some found =>
    obtain ⟨i, hi, hgives, habove⟩ := h
    refine ⟨i, ⟨hi.1, Nat.le_succ_of_le hi.2⟩, hgives, fun j hj ↦ ?_⟩
    exact hlast hj.2 fun hle ↦ habove j ⟨hj.1, hle⟩

theorem innermost_of_gives {found : ScopeRef × String} (h : f.Gives t place (k + 1) found) :
    f.Innermost t place (k + 1) (some found) := by
  refine ⟨k + 1, ⟨Nat.le_add_left 1 k, Nat.le_refl _⟩, h, fun j hj ↦ ?_⟩
  exact (Nat.not_lt.2 hj.2 hj.1).elim

theorem Gives.supported {found : ScopeRef × String} (h : f.Gives t place k found) :
    f.Supported t place k := by
  obtain ⟨r, hr, hgives⟩ := h
  by_cases hsupports : f.supports r
  · exact ⟨r, hr, .inl hsupports⟩
  · rw [if_neg hsupports] at hgives
    obtain ⟨base, x, hbase, hx, hlends, -⟩ := hgives
    exact ⟨r, hr, .inr ⟨base, x, hbase, hx, hlends⟩⟩

theorem innermost_innermost? (h : f.Exhausted t fresh) (place : Name) (k : Nat) :
    f.Innermost t place k (f.innermost? t place k fresh) := by
  induction k generalizing fresh with
  | zero => exact fun i hi ↦ (Nat.not_succ_le_zero 0 (Nat.le_trans hi.1 hi.2)).elim
  | succ k ih =>
    unfold innermost?
    cases hr : f.find? t (place.below (k + 1)) with
    | none =>
      apply (ih h).succ
      rintro ⟨r, hr', -⟩
      rw [hr] at hr'
      cases hr'
    | some r =>
      dsimp only
      by_cases hsupports : f.supports r
      · rw [if_pos hsupports]
        exact innermost_of_gives ⟨r, hr, by rw [if_pos hsupports]⟩
      · rw [if_neg hsupports]
        cases hfound : (f.ancestors t fresh r).findSome? fun base ↦
            (f.supporting? t base).map fun d ↦ (d, base.render) with
        | some found =>
          obtain ⟨base, hbase, hlends⟩ := List.exists_of_findSome?_eq_some hfound
          obtain ⟨d, hd, rfl⟩ := Option.map_eq_some_iff.1 hlends
          obtain ⟨x, hx, hsupport, rfl⟩ := supporting?_eq_some_iff.1 hd
          apply innermost_of_gives
          refine ⟨r, hr, ?_⟩
          rw [if_neg hsupports]
          exact ⟨base, x, inherits_of_mem_ancestors hbase, hx, hsupport, rfl⟩
        | none =>
          have hvain : ∀ base ∈ f.ancestors t fresh r, f.supporting? t base = none := by
            intro base hbase
            exact Option.map_eq_none_iff.1 (List.findSome?_eq_none_iff.1 hfound base hbase)
          apply (ih (h.filter hvain)).succ
          rintro ⟨x, hx, hsupport⟩
          obtain rfl : r = x := Option.some.inj (hr.symm.trans hx)
          rcases hsupport with hsupport | ⟨base, y, hbase, hy, hlends⟩
          · exact hsupports hsupport
          · have hnone := h.supporting?_eq_none hvain hbase
            rw [supporting?_eq_some_iff.2 ⟨y, hy, hlends, rfl⟩] at hnone
            cases hnone

end Forest

namespace Guarded

/-- The first scope at a path, as seen from the file `t`. -/
def scopeAt (f : Forest) (t fuel : Nat) (path : List String) : Option (Option ScopeRef) := do
  let trees ← files f t fuel
  return trees.findSome? fun t ↦ f.walk t path

/-- The first base class with support on the stack or reached from there, and the base classes that
were visited on the way. -/
def lender (f : Forest) (t : Nat) :
    Nat → List Name → List Name → Option (Option (ScopeRef × String) × List Name)
  | 0, _, _ => none
  | _ + 1, visited, [] => some (none, visited)
  | fuel + 1, visited, base :: rest =>
    if base ∈ visited then lender f t fuel visited rest
    else do
      match ← scopeAt f t fuel (base.below base.length) with
      | none => lender f t fuel (base :: visited) rest
      | some r =>
        if f.supports r then return (some (f.definition r, base.render), base :: visited)
        else lender f t fuel (base :: visited) (f.basesOf r ++ rest)

/-- What the innermost of the first `k` enclosing scopes with support gives. -/
def innermost (f : Forest) (t fuel : Nat) (place : Name) :
    Nat → List Name → Option (Option (ScopeRef × String))
  | 0, _ => some none
  | k + 1, visited => do
    match ← scopeAt f t fuel (place.below (k + 1)) with
    | none => innermost f t fuel place k visited
    | some r =>
      if f.supports r then return some (f.definition r, Name.join (place.below (k + 1)))
      else
        match ← lender f t fuel visited (f.basesOf r) with
        | (some found, _) => return some found
        | (none, visited) => innermost f t fuel place k visited

/-- The context of a call without a qualifier at `place`. -/
def unqualifiedContext (f : Forest) (t : Nat) (place : Name) (fuel : Nat) :
    Option (Context × Forest) := do
  match ← innermost f t fuel place place.length [] with
  | some (definition, text) =>
    let (text, f) := f.settleQualification definition text
    return (⟨text, false⟩, f)
  | none =>
    match ← scopeAt f t fuel (place.below place.length) with
    | none => return (⟨place.render, false⟩, f)
    | some r =>
      let (unreported, f) := f.complainOnce (f.definition r)
      return (⟨place.render, unreported⟩, f)

variable {f : Forest} {t : Nat} {fresh visited : List Name}

theorem scopeAt_eq (f : Forest) (t : Nat) :
    EnoughFuel fun fuel ↦ ∀ path, scopeAt f t fuel path = some (f.find? t path) := by
  apply (files_eq f t).imp
  intro fuel hfuel path
  rw [scopeAt, hfuel]
  rfl

/-- A base class that was not visited either has support or makes way for its own base classes. -/
theorem lender_cons {fuel : Nat} (hscope : ∀ path, scopeAt f t fuel path = some (f.find? t path))
    {base : Name} (hbase : base ∉ visited) (rest : List Name) :
    lender f t (fuel + 1) visited (base :: rest) =
      match f.supporting? t base with
      | some d => some (some (d, base.render), base :: visited)
      | none => lender f t fuel (base :: visited) (f.basesVia t base ++ rest) := by
  rw [lender, if_neg hbase, hscope, Forest.supporting?, Forest.basesVia, Forest.findName?]
  cases f.find? t (base.below base.length) with
  | none => rfl
  | some r =>
    by_cases hsupports : f.supports r
    · simp [hsupports]
    · simp [hsupports]

/-- With enough fuel, the visited base classes guard the search like those that are fresh. -/
theorem lender_eq {stack : List Name} (hstack : ∀ base ∈ stack, base ∈ f.allBases)
    (hfresh : ∀ base ∈ f.allBases, base ∈ fresh ↔ base ∉ visited) :
    let reached := preorder id (f.basesVia t) fresh stack
    let found := reached.findSome? fun base ↦
      (f.supporting? t base).map fun d ↦ (d, base.render)
    ∃ after, (found = none → ∀ base ∈ f.allBases,
        base ∈ fresh.filter (· ∉ reached) ↔ base ∉ after) ∧
      EnoughFuel fun fuel ↦ lender f t fuel visited stack = some (found, after) := by
  induction fresh, stack using preorder_induction id (f.basesVia t) generalizing visited with
  | nil fresh =>
    refine ⟨visited, fun _ base hbase ↦ ?_, .of_succ (.of_forall fun _ ↦ rfl)⟩
    simpa using hfresh base hbase
  | enter fresh node rest hmem ih =>
    have hvisited : node ∉ visited := (hfresh node (hstack node List.mem_cons_self)).1 hmem
    have hrest : ∀ base ∈ f.basesVia t node ++ rest, base ∈ f.allBases := by
      intro base hbase
      rcases List.mem_append.1 hbase with hbase | hbase
      · exact Forest.mem_allBases_of_mem_basesVia hbase
      · exact hstack base (List.mem_cons_of_mem node hbase)
    have hfresh' : ∀ base ∈ f.allBases, base ∈ without node fresh ↔ base ∉ node :: visited := by
      intro base hbase
      simp [without, hfresh base hbase, and_comm]
    obtain ⟨after, hafter, hmore⟩ := ih hrest hfresh'
    rw [preorder_cons, if_pos hmem]
    dsimp only [id] at hafter hmore ⊢
    rw [List.findSome?_cons]
    cases hd : f.supporting? t node with
    | some d =>
      refine ⟨node :: visited, ?_, .of_succ ((scopeAt_eq f t).imp fun fuel hscope ↦ ?_)⟩
      · intro hnone
        cases hnone
      · rw [lender_cons hscope hvisited, hd]
        rfl
    | none =>
      refine ⟨after, fun hnone base hbase ↦ ?_, .of_succ (((scopeAt_eq f t).and hmore).imp ?_)⟩
      · rw [← hafter hnone base hbase]
        simp [without, and_comm]
      · rintro fuel ⟨hscope, hmore⟩
        rw [lender_cons hscope hvisited, hd]
        exact hmore
  | pass fresh node rest hmem ih =>
    have hvisited : node ∈ visited := by
      by_contra h
      exact hmem ((hfresh node (hstack node List.mem_cons_self)).2 h)
    obtain ⟨after, hafter, hmore⟩ :=
      ih (fun base hbase ↦ hstack base (List.mem_cons_of_mem node hbase)) hfresh
    rw [preorder_cons, if_neg hmem]
    refine ⟨after, hafter, .of_succ (hmore.imp fun fuel hfuel ↦ ?_)⟩
    rw [lender, if_pos hvisited, hfuel]

theorem innermost_eq (hfresh : ∀ base ∈ f.allBases, base ∈ fresh ↔ base ∉ visited) (place : Name)
    (k : Nat) :
    EnoughFuel fun fuel ↦
      innermost f t fuel place k visited = some (f.innermost? t place k fresh) := by
  induction k generalizing fresh visited with
  | zero => exact .of_forall fun _ ↦ rfl
  | succ k ih =>
    unfold innermost Forest.innermost?
    cases hr : f.find? t (place.below (k + 1)) with
    | none =>
      apply ((scopeAt_eq f t).and (ih hfresh)).imp
      rintro fuel ⟨hscope, hmore⟩
      rw [hscope, hr]
      exact hmore
    | some r =>
      dsimp only
      by_cases hsupports : f.supports r
      · apply (scopeAt_eq f t).imp
        intro fuel hscope
        simp [hscope, hr, hsupports]
      · obtain ⟨after, hafter, hlender⟩ :=
          lender_eq (t := t) (fun _ hbase ↦ Forest.mem_allBases_of_mem (r := r) hbase) hfresh
        rw [← Forest.ancestors_eq] at hafter hlender
        rw [if_neg hsupports]
        cases hfound : (f.ancestors t fresh r).findSome? fun base ↦
            (f.supporting? t base).map fun d ↦ (d, base.render) with
        | some found =>
          apply ((scopeAt_eq f t).and hlender).imp
          rintro fuel ⟨hscope, hlender⟩
          simp [hscope, hr, hsupports, hlender, hfound]
        | none =>
          apply (((scopeAt_eq f t).and hlender).and (ih (hafter hfound))).imp
          rintro fuel ⟨⟨hscope, hlender⟩, hmore⟩
          simp [hscope, hr, hsupports, hlender, hfound, hmore]

/-- The search for the context of a call ends. -/
theorem unqualifiedContext_eq (f : Forest) (t : Nat) (place : Name) :
    EnoughFuel fun fuel ↦
      unqualifiedContext f t place fuel = some (f.unqualifiedContext t place) := by
  have hall : ∀ base ∈ f.allBases, base ∈ f.allBases ↔ base ∉ ([] : List Name) :=
    fun base hbase ↦ iff_of_true hbase List.not_mem_nil
  apply ((scopeAt_eq f t).and (innermost_eq hall place place.length)).imp
  rintro fuel ⟨hscope, hinnermost⟩
  unfold unqualifiedContext Forest.unqualifiedContext
  rw [hinnermost, Forest.findName?]
  cases f.innermost? t place place.length f.allBases with
  | some found => rfl
  | none =>
    simp only [hscope, Option.bind_eq_bind, Option.bind_some]
    cases f.find? t (place.below place.length) with
    | none => rfl
    | some r => rfl

end Guarded

namespace Forest

variable {f g : Forest} {t : Nat} {place : Name} {r d : ScopeRef}

/-- The second forest is what a call leaves, without a qualifier or with one. -/
inductive Answered : Forest → Forest → Prop
  | unqualified (f : Forest) (t : Nat) (place : Name) :
      Answered f (f.unqualifiedContext t place).2
  | qualified (f : Forest) (t : Nat) (place : Name) (written : String) :
      Answered f (f.qualifiedContext t place written).2

theorem complained_modifyScope {change : Scope → Scope}
    (hchange : ∀ s, s.complained → (change s).complained) (h : (f.scope d).complained)
    (r : ScopeRef) : ((f.modifyScope r change).scope d).complained := by
  rw [scope_modifyScope]
  split_ifs with hd
  · exact hchange _ (hd.1 ▸ h)
  · exact h

theorem complained_complainOnce_self (hd : f.Has d) :
    ((f.complainOnce d).2.scope d).complained := by
  rw [complainOnce, scope_modifyScope, if_pos ⟨rfl, hd⟩]

theorem Touches.complained (htouches : Touches f g) (h : (f.scope d).complained) :
    (g.scope d).complained := by
  cases htouches with
  | record findings =>
    rw [record_eq, scope_mapAliases]
    exact h
  | settle r text =>
    unfold settleQualification
    split
    · exact h
    · apply complained_modifyScope _ h r
      exact fun _ hs ↦ hs
  | complain r => exact complained_modifyScope (fun _ _ ↦ rfl) h r

/-- What was reported once counts as reported after every call. -/
theorem complained_of_answered (hcalls : Relation.ReflTransGen Answered f g)
    (h : (f.scope d).complained) : (g.scope d).complained := by
  have htouched : ∀ {f g : Forest}, Relation.ReflTransGen Touches f g →
      (f.scope d).complained → (g.scope d).complained := by
    intro f g htouches h
    induction htouches with
    | refl => exact h
    | tail _ htouch ih => exact htouch.complained ih
  induction hcalls with
  | refl => exact h
  | tail _ hcall ih =>
    cases hcall with
    | unqualified t place => exact htouched (touches_unqualifiedContext _ t place) ih
    | qualified t place written => exact htouched (touches_qualifiedContext _ t place written) ih

theorem not_lacksSupport_of_complained (hr : f.findName? t place = some r)
    (h : (f.scope (f.definition r)).complained) :
    (f.unqualifiedContext t place).1.lacksSupport = false := by
  unfold unqualifiedContext
  cases f.innermost? t place place.length f.allBases with
  | some found => rfl
  | none => simp [hr, complainOnce, h]

/-- The context that a call gets is that of the calls after it. -/
theorem qualification_settleQualification (hd : f.Has d) (text : String) :
    ((f.settleQualification d text).2.scope d).qualification =
      some (f.settleQualification d text).1 := by
  unfold settleQualification
  cases hsettled : (f.scope d).qualification with
  | some settled => exact hsettled
  | none =>
    dsimp only
    rw [scope_modifyScope, if_pos ⟨rfl, hd⟩]

/-- A call without a qualifier gets the context of the innermost enclosing scope that supports
localization, itself or through a base class. If there is none, it gets the scope where it is
written, whose lack of support is reported unless a call was reported for the same definition. -/
theorem unqualifiedContext_innermost (f : Forest) (t : Nat) (place : Name) :
    let answer := f.unqualifiedContext t place
    let supported := {k | k ∈ Set.Icc 1 place.length ∧ f.Supported t place k}
    (Guarded.EnoughFuel fun fuel ↦ Guarded.unqualifiedContext f t place fuel = some answer) ∧
    (∀ k, IsGreatest supported k → ∃ d text, f.Gives t place k (d, text) ∧
      answer.1 = ⟨(f.scope d).qualification.getD text, false⟩ ∧
      (f.Has d → (answer.2.scope d).qualification = some answer.1.text)) ∧
    (supported = ∅ → answer.1.text = place.render ∧
      (answer.1.lacksSupport ↔
        ∃ r, f.findName? t place = some r ∧ ¬(f.scope (f.definition r)).complained) ∧
      ∀ r, f.findName? t place = some r → f.Has (f.definition r) →
        ∀ g, Relation.ReflTransGen Answered answer.2 g →
          ∀ u place' x, g.findName? u place' = some x → g.definition x = f.definition r →
            (g.unqualifiedContext u place').1.lacksSupport = false) := by
  intro answer supported
  refine ⟨Guarded.unqualifiedContext_eq f t place, ?_⟩
  have hinnermost := innermost_innermost? (f.exhausted_allBases t) place place.length
  have hanswer : answer = f.unqualifiedContext t place := rfl
  unfold unqualifiedContext at hanswer
  cases hfound : f.innermost? t place place.length f.allBases with
  | some found =>
    rw [hfound] at hinnermost hanswer
    obtain ⟨i, hi, hgives, habove⟩ := hinnermost
    have hsupported : i ∈ supported := ⟨hi, hgives.supported⟩
    refine ⟨fun k hk ↦ ⟨found.1, found.2, ?_, ?_, ?_⟩, fun hempty ↦ ?_⟩
    · have hle : k ≤ i := by
        by_contra hlt
        exact habove k ⟨Nat.not_le.1 hlt, hk.1.1.2⟩ hk.1.2
      obtain rfl : k = i := Nat.le_antisymm hle (hk.2 hsupported)
      exact hgives
    · rw [hanswer, ← settleQualification_fst]
    · intro hd
      rw [hanswer]
      exact qualification_settleQualification hd found.2
    · rw [hempty] at hsupported
      cases hsupported
  | none =>
    rw [hfound] at hinnermost hanswer
    refine ⟨fun k hk ↦ (hinnermost k hk.1.1 hk.1.2).elim, fun _ ↦ ?_⟩
    cases hr : f.findName? t place with
    | none =>
      rw [hr] at hanswer
      simp [hanswer]
    | some r =>
      rw [hr] at hanswer
      have hreported : answer.1 = ⟨place.render, !(f.scope (f.definition r)).complained⟩ := by
        rw [hanswer]
        rfl
      refine ⟨by rw [hreported], by simp [hreported], ?_⟩
      rintro r' hr' hhas g hcalls u place' x hx hdefinition
      obtain rfl : r = r' := Option.some.inj hr'
      apply not_lacksSupport_of_complained hx
      rw [hdefinition]
      apply complained_of_answered hcalls
      rw [hanswer]
      exact complained_complainOnce_self hhas

/-- The class `A` inside of `N` has the base class `B`. In the included file, `B` and `C` are base
classes of each other. `N` has `C` and `D` as base classes, and only `D` supports localization. -/
def family : Forest :=
  ⟨#[{ fileId := 0
       scopes := #[
        { definition := ⟨0, 0⟩, children := [("N", 1)] },
        { definition := ⟨0, 1⟩, children := [("A", 2)], bases := [⟨["", "C"]⟩, ⟨["", "D"]⟩] },
        { definition := ⟨0, 2⟩, bases := [⟨["", "B"]⟩] }]
       includes := [(1, 1)] },
     { fileId := 1
       scopes := #[
        { definition := ⟨1, 0⟩, children := [("B", 1), ("C", 2), ("D", 3)] },
        { definition := ⟨1, 1⟩, bases := [⟨["", "C"]⟩] },
        { definition := ⟨1, 2⟩, bases := [⟨["", "B"]⟩] },
        { definition := ⟨1, 3⟩, supportsTr := true }] }]⟩

/-- A call in `A` gets the context of `D`, though `C` was searched in vain before. -/
theorem unqualifiedContext_innermost_family :
    let place : Name := ⟨["", "N", "A"]⟩
    IsGreatest {k | k ∈ Set.Icc 1 place.length ∧ family.Supported 0 place k} 2 ∧
      (family.unqualifiedContext 0 place).1 = ⟨"D", false⟩ ∧
      ∃ d text, family.Gives 0 place 2 (d, text) ∧
        (family.unqualifiedContext 0 place).1 =
          ⟨(family.scope d).qualification.getD text, false⟩ := by
  intro place
  have hA : family.find? 0 (place.below 3) = some ⟨0, 2⟩ := by decide +kernel
  have hB : family.findName? 0 ⟨["", "B"]⟩ = some ⟨1, 1⟩ := by decide +kernel
  have hC : family.findName? 0 ⟨["", "C"]⟩ = some ⟨1, 2⟩ := by decide +kernel
  have hD : family.findName? 0 ⟨["", "D"]⟩ = some ⟨1, 3⟩ := by decide +kernel
  -- From `A`, base classes lead around in a cycle without support.
  have hinherits : ∀ base, family.Inherits 0 ⟨0, 2⟩ base →
      base = ⟨["", "B"]⟩ ∨ base = ⟨["", "C"]⟩ := by
    intro base h
    induction h with
    | direct h => exact .inl (by simpa [basesOf, scope, tree, definition, family] using h)
    | indirect _ hx hnext ih =>
      rcases ih with rfl | rfl
      · obtain rfl := Option.some.inj (hB.symm.trans hx)
        exact .inr (by simpa [basesOf, scope, tree, definition, family] using hnext)
      · obtain rfl := Option.some.inj (hC.symm.trans hx)
        exact .inl (by simpa [basesOf, scope, tree, definition, family] using hnext)
  have hnot : ¬family.Supported 0 place 3 := by
    rintro ⟨r, hr, hsupport⟩
    obtain rfl := Option.some.inj (hA.symm.trans hr)
    rcases hsupport with hsupport | ⟨base, x, hbase, hx, hlends⟩
    · exact Bool.false_ne_true hsupport
    · rcases hinherits base hbase with rfl | rfl
      · obtain rfl := Option.some.inj (hB.symm.trans hx)
        exact Bool.false_ne_true hlends
      · obtain rfl := Option.some.inj (hC.symm.trans hx)
        exact Bool.false_ne_true hlends
  have hsupported : family.Supported 0 place 2 := by
    refine ⟨⟨0, 1⟩, by decide +kernel, .inr ⟨⟨["", "D"]⟩, ⟨1, 3⟩, .direct ?_, hD, rfl⟩⟩
    simp [basesOf, scope, tree, definition, family]
  have hgreatest : IsGreatest {k | k ∈ Set.Icc 1 place.length ∧ family.Supported 0 place k} 2 := by
    refine ⟨⟨⟨by decide, by decide⟩, hsupported⟩, ?_⟩
    rintro k ⟨hk, hsupport⟩
    by_contra hlt
    obtain rfl : k = 3 := Nat.le_antisymm hk.2 (Nat.not_le.1 hlt)
    exact hnot hsupport
  obtain ⟨d, text, hgives, hanswer, -⟩ :=
    (unqualifiedContext_innermost family 0 place).2.1 2 hgreatest
  exact ⟨hgreatest, by decide +kernel, d, text, hgives, hanswer⟩

end Forest

end Harvest
