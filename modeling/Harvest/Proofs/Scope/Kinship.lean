import Harvest.Proofs.Scope.Lore

/-!
# Kindred trees

The trees of one file in two forests are kindred if they look alike and are told the same by the
files that they include, in which no topic has two answers. How many trees the forests have, which
numbers they bear and in which order they are looked at may differ. Every question about a name or
about a context has the same answer on both sides, and every change keeps the trees kindred.
-/

namespace Harvest

namespace Forest

variable {V : Lore} {f g f' g' : Forest} {t t' u v : Nat} {r r' d d' : ScopeRef}
  {path q : List String} {segment : String}

/-- The file `t` is being read: no file includes it, and the files that it includes have nothing
left to settle. -/
structure Current (f : Forest) (t : Nat) : Prop where
  formed : f.WellFormed
  lt : t < f.trees.size
  ids : ∀ u < f.trees.size, f.fileId u = u
  apart : ∀ u, t ∉ f.included u
  root : f.definition ⟨t, 0⟩ = ⟨t, 0⟩
  settled : ∀ u ∈ f.included t, f.Settled u

namespace Current

theorem ownIds (h : f.Current t) : f.OwnIds t := by
  apply OwnIds.of_trees (fun t _ ↦ h.formed.includes t)
  intro u hu v hv heq
  rwa [h.ids u hu, h.ids v hv] at heq

theorem ne_of_sees (h : f.Current t) (hu : u ≠ t) (hsees : f.Sees u v) : v ≠ t := by
  rcases hsees.cases_tail with rfl | ⟨w, -, hv⟩
  · exact hu
  · rintro rfl
    exact h.apart w hv

theorem ne_of_included (h : f.Current t) (hu : u ∈ f.included v) : u ≠ t := by
  rintro rfl
  exact h.apart v hu

/-- The other trees in which names are looked up. -/
theorem mem_tail_iff (h : f.Current t) : u ∈ (f.order t).tail ↔ u ≠ t ∧ f.Sees t u := by
  rw [mem_tail_order_iff h.ownIds]
  constructor
  · rintro ⟨v, hv, hsees⟩
    exact ⟨h.ne_of_sees (h.ne_of_included hv) hsees, .head hv hsees⟩
  · rintro ⟨hne, hsees⟩
    rcases hsees.cases_head with rfl | hrest
    · exact (hne rfl).elim
    · exact hrest

/-- What is done on behalf of the file changes nothing of what it is told. -/
theorem spares (h : f.Current t) (hspares : f.Spares t g) (hformed : g.WellFormed)
    (hroot : g.definition ⟨t, 0⟩ = ⟨t, 0⟩) : g.Current t ∧ g.Told t = f.Told t := by
  have hkept : ∀ u ∈ f.included t, g.Teaches u = f.Teaches u ∧ g.Settled u := by
    intro u hu
    apply teaches_of_keeps _ h.formed (h.settled u hu)
    intro v hv
    exact hspares.keeps v (h.ne_of_sees (h.ne_of_included hu) hv)
  have hincluded := hspares.files.included_eq
  constructor
  · refine ⟨hformed, hspares.files.size ▸ h.lt, fun u hu ↦ ?_, fun u hu ↦ ?_, hroot, fun u hu ↦ ?_⟩
    · exact (hspares.files.fileId u).trans (h.ids u (hspares.files.size ▸ hu))
    · rw [hincluded] at hu
      exact h.apart u hu
    · rw [hincluded] at hu
      exact (hkept u hu).2
  · funext topic a
    simp only [Told, hincluded]
    apply propext
    apply exists_congr
    intro u
    apply and_congr_right
    intro hu
    rw [(hkept u hu).1]

end Current

/-- The trees have the same scopes, which have definitions of their own at the same places. -/
structure Alike (f : Forest) (t : Nat) (f' : Forest) (t' : Nat) : Prop where
  size : (f'.tree t').scopes.size = (f.tree t).scopes.size
  scope : ∀ s, f'.scope ⟨t', s⟩ = { f.scope ⟨t, s⟩ with definition := f'.definition ⟨t', s⟩ }
  own : ∀ s, f'.definition ⟨t', s⟩ = ⟨t', s⟩ ↔ f.definition ⟨t, s⟩ = ⟨t, s⟩

/-- The trees `t` and `t'` of one file in two forests look alike and are told the same, which is part
of `V`. -/
structure Kin (V : Lore) (f : Forest) (t : Nat) (f' : Forest) (t' : Nat) : Prop where
  left : f.Current t
  right : f'.Current t'
  alike : Alike f t f' t'
  told : f'.Told t' = f.Told t
  known : ∀ topic a, f.Told t topic a → V topic a

theorem Kin.spares (h : Kin V f t f' t') (hspares : f.Spares t g) (hspares' : f'.Spares t' g')
    (hformed : g.WellFormed) (hformed' : g'.WellFormed) (hroot : g.definition ⟨t, 0⟩ = ⟨t, 0⟩)
    (halike : Alike g t g' t') : Kin V g t g' t' := by
  obtain ⟨hleft, htold⟩ := h.left.spares hspares hformed hroot
  obtain ⟨hright, htold'⟩ := h.right.spares hspares' hformed' ((halike.own 0).2 hroot)
  refine ⟨hleft, hright, halike, htold'.trans (h.told.trans htold.symm), ?_⟩
  rw [htold]
  exact h.known

theorem Alike.congr (h : Alike f t f' t') (hg : (g.tree t).scopes = (f.tree t).scopes)
    (hg' : (g'.tree t').scopes = (f'.tree t').scopes) : Alike g t g' t' := by
  have hscope : ∀ s, g.scope ⟨t, s⟩ = f.scope ⟨t, s⟩ := by
    intro s
    rw [Forest.scope, hg, Forest.scope]
  have hscope' : ∀ s, g'.scope ⟨t', s⟩ = f'.scope ⟨t', s⟩ := by
    intro s
    rw [Forest.scope, hg', Forest.scope]
  refine ⟨by rw [hg, hg', h.size], fun s ↦ ?_, fun s ↦ ?_⟩
  · rw [definition, hscope, hscope', ← definition]
    exact h.scope s
  · rw [definition, definition, hscope, hscope']
    exact h.own s

/-- One change of a scope on both sides. -/
theorem Alike.modifyScope (h : Alike f t f' t') (s : Nat) {change : Scope → Scope}
    (hlocal : Scope.Local change) :
    Alike (f.modifyScope ⟨t, s⟩ change) t (f'.modifyScope ⟨t', s⟩ change) t' := by
  have hdefinition : ∀ (k : Forest) r x, (k.modifyScope r change).definition x = k.definition x :=
    fun k r x ↦ field_modifyScope hlocal.definition_eq k r x
  have hhas : f'.Has ⟨t', s⟩ ↔ f.Has ⟨t, s⟩ := by rw [Has, Has, h.size]
  refine ⟨?_, fun x ↦ ?_, fun x ↦ ?_⟩
  · have hsize := scopes_modifyScope f ⟨t, s⟩ change
    have hsize' := scopes_modifyScope f' ⟨t', s⟩ change
    dsimp only at hsize hsize'
    rw [hsize, hsize', Array.size_modify, Array.size_modify, h.size]
  · rw [hdefinition, scope_modifyScope, scope_modifyScope]
    simp only [ScopeRef.mk.injEq, true_and, hhas]
    split_ifs with hx
    · rw [h.scope, hlocal, hx.1]
    · exact h.scope x
  · rw [hdefinition, hdefinition]
    exact h.own x

theorem Alike.walk (h : Alike f t f' t') (path : List String) :
    f'.walk t' path = (f.walk t path).map fun r ↦ ⟨t', r.scope⟩ := by
  induction path using List.reverseRecOn with
  | nil => rfl
  | append_singleton path segment ih =>
    rw [walk_concat, walk_concat, ih]
    cases hr : f.walk t path with
    | none => rfl
    | some r =>
      obtain rfl := tree_of_walk hr
      rw [Option.map_some, Option.bind_some, Option.bind_some, Option.map_map, h.scope]
      rfl

/-- The scopes at a path are that of the tree itself and those of the other trees. -/
theorem scopesAt_order (f : Forest) (t : Nat) (path : List String) :
    f.scopesAt (f.order t) path = (f.walk t path).toList ++ f.scopesAt (f.order t).tail path := by
  change f.scopesAt (t :: (f.order t).tail) path = _
  rw [scopesAt, List.filterMap_cons]
  cases f.walk t path <;> rfl

/-- A definition outside of its own tree is one that the file is told of. -/
theorem Current.told_definition (h : f.Current t) (hr : f.walk t path = some r)
    (hforeign : f.definition r ≠ r) :
    (f.definition r).tree ≠ t ∧ f.Told t (.scope path) (f.describe path (f.definition r)) := by
  have hd := h.formed.definition t path r hr
  have hne : (f.definition r).tree ≠ t := by
    intro htree
    have hwalk := hd.walk
    rw [htree, hr] at hwalk
    exact hforeign (Option.some.inj hwalk).symm
  have hpath : path ≠ [] := by
    rintro rfl
    rw [walk_nil] at hr
    rw [← Option.some.inj hr] at hforeign
    exact hforeign h.root
  refine ⟨hne, (told_iff h.ownIds).2 ⟨_, h.mem_tail_iff.2 ⟨hne, hd.sees⟩, ?_⟩⟩
  rw [answer?, Topic.path, hd.walk, Option.bind_some, answerAt?, if_neg hpath]

/-- The two scopes have the same number in the trees `t` and `t'`, or neither is in its one. -/
def Twins (t t' : Nat) (d d' : ScopeRef) : Prop :=
  (∃ s, d = ⟨t, s⟩ ∧ d' = ⟨t', s⟩) ∨ d.tree ≠ t ∧ d'.tree ≠ t'

theorem describe_of_self (hd : f.definition d = d) :
    f.describe path d = .scope (f.scope d).supportsTr ((f.scope d).contextAt path)
      (f.scope d).bases.eraseDups := by
  have hbases : ((f.scope d).bases ++ (f.scope d).bases).eraseDups = (f.scope d).bases.eraseDups := by
    have hgone : (f.scope d).bases.removeAll (f.scope d).bases = [] := by
      apply List.filter_eq_nil_iff.2
      intro n hn
      simpa using hn
    rw [List.eraseDups_append, hgone, List.eraseDups_nil, List.append_nil]
  rw [describe, supports, basesOf, hd, hbases]

namespace Kin

/-- The other trees give the same answers on both sides. -/
theorem answers (h : Kin V f t f' t') :
    (∀ u ∈ (f.order t).tail, ∀ topic a, f.answer? u topic = some a → V topic a) ∧
      ∀ topic a, (∃ u ∈ (f.order t).tail, f.answer? u topic = some a) ↔
        ∃ u ∈ (f'.order t').tail, f'.answer? u topic = some a := by
  refine ⟨fun u hu topic a ha ↦ h.known topic a ((told_iff h.left.ownIds).2 ⟨u, hu, ha⟩), ?_⟩
  intro topic a
  rw [← told_iff h.left.ownIds, ← told_iff h.right.ownIds, h.told]

variable (hV : V.Agrees)

include hV

/-- Scopes of the two trees at one path are like each other. -/
theorem describe_walk (h : Kin V f t f' t') (hr : f.walk t path = some r) :
    f'.describe path ⟨t', r.scope⟩ = f.describe path r ∧
      Twins t t' (f.definition r) (f'.definition ⟨t', r.scope⟩) := by
  obtain ⟨tree, s⟩ := r
  obtain rfl : tree = t := tree_of_walk hr
  have hr' : f'.walk t' path = some ⟨t', s⟩ := by
    rw [h.alike.walk, hr]
    rfl
  have hscope := h.alike.scope s
  dsimp only
  by_cases hself : f.definition ⟨tree, s⟩ = ⟨tree, s⟩
  · have hself' := (h.alike.own s).2 hself
    rw [describe_of_self hself, describe_of_self hself', hself, hself', hscope]
    exact ⟨rfl, .inl ⟨s, rfl, rfl⟩⟩
  · obtain ⟨hne, htold⟩ := h.left.told_definition hr hself
    obtain ⟨hne', htold'⟩ := h.right.told_definition hr' (mt (h.alike.own s).1 hself)
    rw [h.told] at htold'
    have hsame := hV _ _ _ (h.known _ _ htold') (h.known _ _ htold)
    rw [describe_of_self (h.left.formed.definition _ _ _ hr).self,
      describe_of_self (h.right.formed.definition _ _ _ hr').self] at hsame
    injection hsame with hsupports hcontext hbases
    have hown : (f'.scope ⟨t', s⟩).bases = (f.scope ⟨tree, s⟩).bases := by rw [hscope]
    refine ⟨?_, .inr ⟨hne, hne'⟩⟩
    rw [describe, describe, supports, supports, basesOf, basesOf, hsupports, hcontext, hown,
      eraseDups_append_congr rfl hbases]

/-- What is found at a path on one side is found on the other. -/
theorem find?_cases (h : Kin V f t f' t') (path : List String) :
    f.find? t path = none ∧ f'.find? t' path = none ∨
      ∃ r r', f.find? t path = some r ∧ f'.find? t' path = some r' ∧
        f'.describe path r' = f.describe path r ∧ Twins t t' (f.definition r) (f'.definition r') := by
  rw [find?_eq, find?_eq]
  cases hr : f.walk t path with
  | some r =>
    obtain ⟨hdescribe, htwins⟩ := h.describe_walk hV hr
    rw [h.alike.walk, hr]
    exact .inr ⟨r, ⟨t', r.scope⟩, rfl, rfl, hdescribe, htwins⟩
  | none =>
    have hpath : path ≠ [] := by
      rintro rfl
      cases hr
    obtain ⟨hknown, hsame⟩ := h.answers
    have hfound := findSome?_walk_of_answers hV hknown hsame hpath
    rw [h.alike.walk, hr, Option.map_none, Option.none_or, Option.none_or]
    cases hx : (f.order t).tail.findSome? fun u ↦ f.walk u path with
    | none =>
      rw [hx, Option.map_none, Option.map_eq_none_iff] at hfound
      exact .inl ⟨rfl, hfound⟩
    | some x =>
      rw [hx, Option.map_some] at hfound
      obtain ⟨x', hx', hdescribe⟩ := Option.map_eq_some_iff.1 hfound
      refine .inr ⟨x, x', rfl, hx', hdescribe, .inr ⟨?_, ?_⟩⟩
      · obtain ⟨u, hu, hwalk⟩ := List.exists_of_findSome?_eq_some hx
        exact h.left.ne_of_sees (h.left.mem_tail_iff.1 hu).1
          (h.left.formed.definition u path x hwalk).sees
      · obtain ⟨u, hu, hwalk⟩ := List.exists_of_findSome?_eq_some hx'
        exact h.right.ne_of_sees (h.right.mem_tail_iff.1 hu).1
          (h.right.formed.definition u path x' hwalk).sees

/-! ### Contexts -/

/-- The base classes that are found under a name. -/
theorem bases_findName? (h : Kin V f t f' t') (base : Name) :
    (((f'.findName? t' base).map f'.basesOf).getD []).eraseDups =
      (((f.findName? t base).map f.basesOf).getD []).eraseDups := by
  rw [findName?, findName?]
  rcases h.find?_cases hV (base.below base.length) with
    ⟨hnone, hnone'⟩ | ⟨r, r', hr, hr', hdescribe, -⟩
  · rw [hnone, hnone']
    rfl
  · injection hdescribe with _ _ hbases
    rw [hr, hr']
    exact hbases

/-- The base classes of a scope are met in the same order, if the ones that can be met are fresh on
both sides or on none. -/
theorem ancestors (h : Kin V f t f' t') {fresh fresh' : List Name} (hr : f.find? t path = some r)
    (hbases : (f'.basesOf r').eraseDups = (f.basesOf r).eraseDups)
    (hfresh : ∀ n, (∃ path r, f.find? t path = some r ∧ n ∈ f.basesOf r) →
      (n ∈ fresh' ↔ n ∈ fresh)) :
    f'.ancestors t' fresh' r' = f.ancestors t fresh r := by
  have hfound : ∀ base, ∀ n ∈ ((f.findName? t base).map f.basesOf).getD [],
      ∃ path r, f.find? t path = some r ∧ n ∈ f.basesOf r := by
    intro base n hn
    cases hx : f.findName? t base with
    | none =>
      rw [hx] at hn
      cases hn
    | some x =>
      rw [hx] at hn
      exact ⟨_, x, hx, hn⟩
  calc f'.ancestors t' fresh' r'
      = preorder id (fun base ↦ ((f.findName? t base).map f.basesOf).getD []) fresh' (f.basesOf r) :=
        preorder_eraseDups_congr (h.bases_findName? hV)
          (by rw [eraseDups_filter, eraseDups_filter, hbases])
    _ = f.ancestors t fresh r :=
        preorder_fresh_congr (fun base _ ↦ hfound base) hfresh fun n hn ↦ ⟨path, r, hr, hn⟩

end Kin

/-- What gives a call its context on one side gives it the same context on the other. -/
inductive Concur (f : Forest) (t : Nat) (f' : Forest) (t' : Nat) :
    Option (ScopeRef × String) → Option (ScopeRef × String) → Prop
  | none : Concur f t f' t' none none
  | some {d d' : ScopeRef} {path : List String} (htwins : Twins t t' d d')
      (hcontext : (f'.scope d').contextAt path = (f.scope d).contextAt path) :
      Concur f t f' t' (some (d, Name.join path)) (some (d', Name.join path))

theorem Concur.findSome? {look look' : Name → Option (ScopeRef × String)}
    (h : ∀ n, Concur f t f' t' (look n) (look' n)) (ns : List Name) :
    Concur f t f' t' (ns.findSome? look) (ns.findSome? look') := by
  induction ns with
  | nil => exact .none
  | cons n ns ih =>
    have hn := h n
    rw [List.findSome?_cons, List.findSome?_cons]
    generalize look n = found, look' n = found' at hn
    cases hn with
    | none => exact ih
    | some htwins hcontext => exact .some htwins hcontext

namespace Kin

variable (hV : V.Agrees)

include hV

theorem supporting? (h : Kin V f t f' t') (base : Name) :
    Concur f t f' t' ((f.supporting? t base).map fun d ↦ (d, base.render))
      ((f'.supporting? t' base).map fun d ↦ (d, base.render)) := by
  unfold Forest.supporting? findName?
  rcases h.find?_cases hV (base.below base.length) with
    ⟨hnone, hnone'⟩ | ⟨r, r', hr, hr', hdescribe, htwins⟩
  · rw [hnone, hnone']
    exact .none
  · injection hdescribe with hsupports hcontext _
    rw [hr, hr']
    dsimp only
    rw [hsupports, base.render_eq]
    split_ifs
    · exact .some htwins hcontext
    · exact .none

theorem innermost? (h : Kin V f t f' t') (place : Name) (k : Nat) {fresh fresh' : List Name}
    (hfresh : ∀ n, (∃ path r, f.find? t path = some r ∧ n ∈ f.basesOf r) →
      (n ∈ fresh' ↔ n ∈ fresh)) :
    Concur f t f' t' (f.innermost? t place k fresh) (f'.innermost? t' place k fresh') := by
  induction k generalizing fresh fresh' with
  | zero => exact .none
  | succ k ih =>
    rw [Forest.innermost?, Forest.innermost?]
    rcases h.find?_cases hV (place.below (k + 1)) with
      ⟨hnone, hnone'⟩ | ⟨r, r', hr, hr', hdescribe, htwins⟩
    · rw [hnone, hnone']
      exact ih hfresh
    · injection hdescribe with hsupports hcontext hbases
      have hancestors := h.ancestors hV hr hbases hfresh
      have hconcur := Concur.findSome? (h.supporting? hV) (f.ancestors t fresh r)
      rw [hr, hr']
      dsimp only
      rw [hsupports, hancestors]
      split_ifs
      · exact .some htwins hcontext
      · generalize f.ancestors t fresh r = reached at hconcur
        generalize (reached.findSome? fun base ↦ (f.supporting? t base).map fun d ↦ (d, base.render)) =
          found, (reached.findSome? fun base ↦
            (f'.supporting? t' base).map fun d ↦ (d, base.render)) = found' at hconcur
        cases hconcur with
        | some htwins hcontext => exact .some htwins hcontext
        | none =>
          apply ih
          intro n hn
          simp only [List.mem_filter, hfresh n hn]

end Kin

theorem tree_settleQualification_of_ne (hu : u ≠ d.tree) (text : String) :
    (f.settleQualification d text).2.tree u = f.tree u := by
  unfold settleQualification
  split
  · rfl
  · exact tree_modifyScope_of_ne _ hu

namespace Alike

theorem settle (h : Alike f t f' t') (htwins : Twins t t' d d') (text : String) :
    Alike (f.settleQualification d text).2 t (f'.settleQualification d' text).2 t' := by
  rcases htwins with ⟨s, rfl, rfl⟩ | ⟨hne, hne'⟩
  · have hsame : (f'.scope ⟨t', s⟩).qualification = (f.scope ⟨t, s⟩).qualification := by
      rw [h.scope]
    unfold settleQualification
    rw [hsame]
    split
    · exact h
    · exact h.modifyScope s fun _ _ ↦ rfl
  · exact h.congr (congrArg _ (tree_settleQualification_of_ne hne.symm text))
      (congrArg _ (tree_settleQualification_of_ne hne'.symm text))

theorem complain (h : Alike f t f' t') (htwins : Twins t t' d d') :
    Alike (f.complainOnce d).2 t (f'.complainOnce d').2 t' := by
  rcases htwins with ⟨s, rfl, rfl⟩ | ⟨hne, hne'⟩
  · exact h.modifyScope s fun _ _ ↦ rfl
  · exact h.congr (congrArg _ (tree_modifyScope_of_ne _ hne.symm))
      (congrArg _ (tree_modifyScope_of_ne _ hne'.symm))

end Alike

/-- A call is answered: the trees stay kindred if they stay alike. -/
theorem Kin.touched (h : Kin V f t f' t') (hspares : f.Spares t g) (hspares' : f'.Spares t' g')
    (hshape : f.SameShape g) (hshape' : f'.SameShape g') (halike : Alike g t g' t') :
    Kin V g t g' t' :=
  h.spares hspares hspares' (h.left.formed.congr hshape) (h.right.formed.congr hshape')
    ((hshape.definition _).trans h.left.root) halike

namespace Kin

variable (hV : V.Agrees)

include hV

theorem mem_allBases_iff (h : Kin V f t f' t') {n : Name} (hr : f.find? t path = some r)
    (hn : n ∈ f.basesOf r) : n ∈ f'.allBases ↔ n ∈ f.allBases := by
  refine iff_of_true ?_ (mem_allBases_of_mem hn)
  rcases h.find?_cases hV path with ⟨hnone, -⟩ | ⟨x, x', hx, -, hdescribe, -⟩
  · rw [hr] at hnone
    cases hnone
  · rw [hr] at hx
    obtain rfl := Option.some.inj hx
    injection hdescribe with _ _ hbases
    apply mem_allBases_of_mem (r := x')
    rwa [← List.mem_eraseDups, hbases, List.mem_eraseDups]

theorem unqualifiedContext (h : Kin V f t f' t') (place : Name) :
    (f'.unqualifiedContext t' place).1.text = (f.unqualifiedContext t place).1.text ∧
      Kin V (f.unqualifiedContext t place).2 t (f'.unqualifiedContext t' place).2 t' := by
  have hconcur : Concur f t f' t' (f.innermost? t place place.length f.allBases)
      (f'.innermost? t' place place.length f'.allBases) :=
    h.innermost? hV place place.length fun n ⟨_, _, hr, hn⟩ ↦ h.mem_allBases_iff hV hr hn
  suffices hanswers : (f'.unqualifiedContext t' place).1.text = (f.unqualifiedContext t place).1.text ∧
      Alike (f.unqualifiedContext t place).2 t (f'.unqualifiedContext t' place).2 t' by
    refine ⟨hanswers.1, h.touched ?_ ?_ ?_ ?_ hanswers.2⟩
    · exact h.left.formed.spares_unqualifiedContext t place
    · exact h.right.formed.spares_unqualifiedContext t' place
    · exact f.sameShape_unqualifiedContext t place
    · exact f'.sameShape_unqualifiedContext t' place
  unfold Forest.unqualifiedContext
  generalize f.innermost? t place place.length f.allBases = found,
    f'.innermost? t' place place.length f'.allBases = found' at hconcur
  cases hconcur with
  | @some d d' path htwins hcontext =>
    refine ⟨?_, h.alike.settle htwins _⟩
    dsimp only
    rw [settleQualification_fst, settleQualification_fst]
    exact hcontext
  | none =>
    dsimp only [findName?]
    rcases h.find?_cases hV (place.below place.length) with
      ⟨hnone, hnone'⟩ | ⟨r, r', hr, hr', -, htwins⟩
    · rw [hnone, hnone']
      exact ⟨rfl, h.alike⟩
    · rw [hr, hr']
      exact ⟨rfl, h.alike.complain htwins⟩

end Kin

/-! ### Names -/

/-- Findings about aliases of the tree `t`, given by the numbers of their scopes and their names. -/
def embed (t : Nat) (l : List ((Nat × String) × Option Name)) : Findings :=
  l.map fun x ↦ (⟨⟨t, x.1.1⟩, x.1.2⟩, x.2)

theorem lookup_embed (t s : Nat) (name : String) (l : List ((Nat × String) × Option Name)) :
    (embed t l).lookup ⟨⟨t, s⟩, name⟩ = l.lookup (s, name) := by
  induction l with
  | nil => rfl
  | cons x l ih =>
    obtain ⟨⟨s', name'⟩, target⟩ := x
    have hkey : ((⟨⟨t, s⟩, name⟩ : AliasSite) == ⟨⟨t, s'⟩, name'⟩) = ((s, name) == (s', name')) := by
      rw [Bool.eq_iff_iff, beq_iff_eq, beq_iff_eq]
      simp
    rw [embed, List.map_cons, List.lookup_cons, List.lookup_cons, hkey, ← embed, ih]

theorem Alike.record (h : Alike f t f' t') (l : List ((Nat × String) × Option Name)) :
    Alike (f.record (embed t l)) t (f'.record (embed t' l)) t' := by
  rw [record_eq, record_eq]
  refine ⟨?_, fun s ↦ ?_, fun s ↦ ?_⟩
  · rw [size_scopes_mapAliases, size_scopes_mapAliases, h.size]
  · rw [definition, scope_mapAliases, scope_mapAliases]
    simp only [lookup_embed]
    rw [h.scope]
    rfl
  · rw [definition, definition, scope_mapAliases, scope_mapAliases]
    exact h.own s

end Forest

namespace Qualify

open Forest (Kin Current embed lookup_embed)

variable {V : Lore} {f f' : Forest} {t t' : Nat} {idle idle' : List AliasSite}

/-- The two searches find the same, and find out the same about the aliases of the trees `t` and
`t'`, and nothing about other aliases. -/
def kindred (t t' : Nat) : Link (StateM Findings) (StateM Findings) where
  Holds x y := ∀ l, ∃ b l', x.run (embed t l) = (b, embed t l') ∧ y.run (embed t' l) = (b, embed t' l')
  pure b l := ⟨b, l, rfl, rfl⟩
  bind {_ _ x y k k'} hx hk l := by
    obtain ⟨b, m, hx, hy⟩ := hx l
    obtain ⟨c, n, hk, hk'⟩ := hk b m
    refine ⟨c, n, ?_, ?_⟩
    · rw [StateT.run_bind, hx]
      exact hk
    · rw [StateT.run_bind, hy]
      exact hk'

/-- In the other trees nothing is found out. -/
theorem run_first_own (h : f.Current t) (trees : List Nat) (idle : List AliasSite) (here : Name)
    (segment : String) (path : List String) (findings : Findings) :
    (first (own f (target f trees idle) here segment) (f.scopesAt (f.order t).tail path)).run
        findings =
      ((f.scopesAt (f.order t).tail path).findSome? (fun r ↦ f.offer? r here segment), findings) := by
  have hread : reading.Holds
      (first (own f (target f trees idle) here segment) (f.scopesAt (f.order t).tail path))
      (first (own f (fun _ site ↦ pure (f.targetAt? site)) here segment)
        (f.scopesAt (f.order t).tail path)) := by
    apply reading.first
    intro r hr
    obtain ⟨u, hu, hwalk⟩ := List.mem_filterMap.1 hr
    obtain ⟨v, hv, hsees⟩ := (Forest.mem_tail_order_iff h.ownIds).1 hu
    unfold own
    dsimp only
    split_ifs with _ halias
    · exact reading.pure _
    · have hsettled : ∀ findings, f.settled? ⟨r, segment⟩ findings =
          some (f.targetAt? ⟨r, segment⟩) :=
        (h.settled v hv).settled? ((Forest.tree_of_walk hwalk).symm ▸ hsees) halias
      intro findings
      rw [run_target, hsettled]
      rfl
    · exact reading.pure none
  rw [hread findings, run_first]
  simp only [Forest.run_own]

section Kindred

variable (hV : V.Agrees) (h : Kin V f t f' t')

include hV h

theorem eraseDups_usingsAt (here : Name) :
    (usingsAt f' (f'.order t') here).eraseDups = (usingsAt f (f.order t) here).eraseDups := by
  obtain ⟨hknown, hsame⟩ := h.answers
  have hothers := Forest.usings_of_answers hV hknown hsame (here.below here.length)
  rw [usingsAt, usingsAt, Forest.scopesAt_order, Forest.scopesAt_order, List.flatMap_append,
    List.flatMap_append]
  refine eraseDups_append_congr ?_ hothers
  rw [h.alike.walk]
  cases hr : f.walk t (here.below here.length) with
  | none => rfl
  | some r =>
    obtain rfl := Forest.tree_of_walk hr
    simp only [Option.map_some, Option.toList_some, List.flatMap_cons, List.flatMap_nil,
      h.alike.scope]

theorem usingOrder_eq (here : Name) :
    usingOrder f' (f'.order t') here = usingOrder f (f.order t) here := by
  have hmem : ∀ {n}, (∃ here, n ∈ usingsAt f (f.order t) here) →
      (n ∈ allUsings f' (f'.order t') ↔ n ∈ allUsings f (f.order t)) := by
    rintro n ⟨here, hn⟩
    have hn' : n ∈ usingsAt f' (f'.order t') here := by
      rwa [← List.mem_eraseDups, eraseDups_usingsAt hV h, List.mem_eraseDups]
    exact iff_of_true (mem_allUsings hn') (mem_allUsings hn)
  calc usingOrder f' (f'.order t') here
      = preorder id (usingsAt f (f.order t)) (allUsings f' (f'.order t'))
          (usingsAt f (f.order t) here) :=
        preorder_eraseDups_congr (eraseDups_usingsAt hV h)
          (by rw [eraseDups_filter, eraseDups_filter, eraseDups_usingsAt hV h])
    _ = usingOrder f (f.order t) here :=
        preorder_fresh_congr (fun here _ n hn ↦ ⟨here, hn⟩) (fun n ↦ hmem) fun n hn ↦ ⟨here, hn⟩

/-- The included trees offer the same for a segment. -/
theorem kindred_others (here : Name) (segment : String) :
    (kindred t t').Holds
      (first (own f (target f (f.order t) idle) here segment)
        (f.scopesAt (f.order t).tail (here.below here.length)))
      (first (own f' (target f' (f'.order t') idle') here segment)
        (f'.scopesAt (f'.order t').tail (here.below here.length))) := by
  obtain ⟨hknown, hsame⟩ := h.answers
  have hmeaning := Forest.findSome?_meaning?_of_answers hV hknown hsame (here.below here.length)
    segment
  have hoffers : (f'.scopesAt (f'.order t').tail (here.below here.length)).findSome?
        (fun r ↦ f'.offer? r here segment) =
      (f.scopesAt (f.order t).tail (here.below here.length)).findSome?
        fun r ↦ f.offer? r here segment := by
    simp only [Forest.offer?_eq]
    exact (List.map_findSome? ..).symm.trans
      ((congrArg _ hmeaning).trans (List.map_findSome? ..))
  intro l
  refine ⟨_, l, run_first_own h.left _ _ _ _ _ _, ?_⟩
  rw [run_first_own h.right, hoffers]

theorem kindred_one
    (hidle : ∀ here s name, (kindred t t').Holds (target f (f.order t) idle here ⟨⟨t, s⟩, name⟩)
      (target f' (f'.order t') idle' here ⟨⟨t', s⟩, name⟩)) (here : Name) (segment : String) :
    (kindred t t').Holds (f.finder (f.order t) idle here segment)
      (f'.finder (f'.order t') idle' here segment) := by
  unfold Forest.finder one
  rw [usingOrder_eq hV h]
  apply (kindred t t').first
  intro here _
  unfold ownAt
  rw [Forest.scopesAt_order, Forest.scopesAt_order, h.alike.walk]
  cases hr : f.walk t (here.below here.length) with
  | none => exact kindred_others hV h here segment
  | some r =>
    obtain ⟨tree, s⟩ := r
    obtain rfl : tree = t := Forest.tree_of_walk hr
    refine (kindred tree t').bind ?_ fun found ↦ ?_
    · have hchild : (f'.scope ⟨t', s⟩).child? segment = (f.scope ⟨tree, s⟩).child? segment := by
        rw [h.alike.scope]
        rfl
      have halias : (f'.scope ⟨t', s⟩).alias? segment = (f.scope ⟨tree, s⟩).alias? segment := by
        rw [h.alike.scope]
        rfl
      unfold own
      dsimp only
      rw [hchild, halias]
      split_ifs
      · exact (kindred tree t').pure _
      · exact hidle here s segment
      · exact (kindred tree t').pure none
    · cases found with
      | none => exact kindred_others hV h here segment
      | some n => exact (kindred tree t').pure (some n)

theorem kindred_target (hidle : ∀ s name, ⟨⟨t', s⟩, name⟩ ∈ idle' ↔ ⟨⟨t, s⟩, name⟩ ∈ idle)
    (here : Name) (s : Nat) (name : String) :
    (kindred t t').Holds (target f (f.order t) idle here ⟨⟨t, s⟩, name⟩)
      (target f' (f'.order t') idle' here ⟨⟨t', s⟩, name⟩) := by
  induction hlength : idle.length using Nat.strongRecOn generalizing idle idle' here s name with
  | ind length ih =>
    have halias : f'.aliasAt? ⟨⟨t', s⟩, name⟩ = f.aliasAt? ⟨⟨t, s⟩, name⟩ := by
      rw [Forest.aliasAt?, h.alike.scope]
      rfl
    intro l
    rw [run_target, run_target, Forest.settled?_eq, Forest.settled?_eq, Forest.writtenAt,
      Forest.writtenAt, halias, lookup_embed, lookup_embed]
    cases ((f.aliasAt? ⟨⟨t, s⟩, name⟩).bind Alias.resolution).or (l.lookup (s, name)) with
    | some target => exact ⟨target, l, rfl, rfl⟩
    | none =>
      dsimp only
      by_cases hmem : ⟨⟨t, s⟩, name⟩ ∈ idle
      · rw [if_pos hmem, if_pos ((hidle s name).2 hmem)]
        have hshorter : (without ⟨⟨t, s⟩, name⟩ idle).length < length :=
          hlength ▸ length_without_lt hmem
        have hwithout : ∀ s' name', ⟨⟨t', s'⟩, name'⟩ ∈ without ⟨⟨t', s⟩, name⟩ idle' ↔
            ⟨⟨t, s'⟩, name'⟩ ∈ without ⟨⟨t, s⟩, name⟩ idle := by
          intro s' name'
          simp [without, hidle]
        obtain ⟨b, m, hx, hy⟩ := (kindred t t').name
          (kindred_one hV h fun here' s' name' ↦ ih _ hshorter hwithout here' s' name' rfl) here
          here.length (((f.aliasAt? ⟨⟨t, s⟩, name⟩).map fun a ↦ a.written.segments).getD []) false l
        rw [hx, hy]
        exact ⟨b.toOption, ((s, name), b.toOption) :: m, rfl, rfl⟩
      · rw [if_neg hmem, if_neg (mt (hidle s name).1 hmem)]
        exact ⟨none, l, rfl, rfl⟩

end Kindred

end Qualify

namespace Forest

variable {V : Lore} {f f' : Forest} {t t' : Nat} {r : ScopeRef} {path q : List String}
  {segment : String}

/-- Names mean the same on both sides. -/
theorem Kin.qualify (hV : V.Agrees) (h : Kin V f t f' t') (here : Name) (count : Nat)
    (segments : List String) (declaration : Bool) :
    (f'.qualify t' here count segments declaration).1 =
        (f.qualify t here count segments declaration).1 ∧
      Kin V (f.qualify t here count segments declaration).2 t
        (f'.qualify t' here count segments declaration).2 t' := by
  have hidle : ∀ s name, ⟨⟨t', s⟩, name⟩ ∈ f'.idleAliases ↔ ⟨⟨t, s⟩, name⟩ ∈ f.idleAliases := by
    intro s name
    rw [mem_idleAliases_iff, mem_idleAliases_iff, h.alike.scope]
  obtain ⟨b, l, hx, hy⟩ := (Qualify.kindred t t').name
    (Qualify.kindred_one hV h (Qualify.kindred_target hV h hidle)) here count segments declaration []
  have hsearch : f.search t here count segments declaration = (b, embed t l) := hx
  have hsearch' : f'.search t' here count segments declaration = (b, embed t' l) := hy
  have halike : Alike (f.qualify t here count segments declaration).2 t
      (f'.qualify t' here count segments declaration).2 t' := by
    rw [qualify_eq, qualify_eq, hsearch, hsearch']
    exact h.alike.record l
  refine ⟨?_, h.touched (f.spares_qualify t here count segments declaration)
    (f'.spares_qualify t' here count segments declaration)
    (f.sameShape_qualify t here count segments declaration)
    (f'.sameShape_qualify t' here count segments declaration) halike⟩
  rw [qualify_eq, qualify_eq, hsearch, hsearch']

theorem supportsTr_settleQualification (f : Forest) (d x : ScopeRef) (text : String) :
    ((f.settleQualification d text).2.scope x).supportsTr = (f.scope x).supportsTr := by
  have hkeeps : ∀ s : Scope, Scope.supportsTr { s with qualification := some text } = s.supportsTr :=
    fun _ ↦ rfl
  unfold settleQualification
  split
  · rfl
  · exact field_modifyScope hkeeps f d x

theorem Kin.qualifiedContext (hV : V.Agrees) (h : Kin V f t f' t') (place : Name)
    (written : String) :
    (f'.qualifiedContext t' place written).1.text = (f.qualifiedContext t place written).1.text ∧
      Kin V (f.qualifiedContext t place written).2 t
        (f'.qualifiedContext t' place written).2 t' := by
  suffices hanswers : (f'.qualifiedContext t' place written).1.text =
        (f.qualifiedContext t place written).1.text ∧
      Alike (f.qualifiedContext t place written).2 t
        (f'.qualifiedContext t' place written).2 t' by
    refine ⟨hanswers.1, h.touched ?_ ?_ ?_ ?_ hanswers.2⟩
    · exact h.left.formed.spares_qualifiedContext t place written
    · exact h.right.formed.spares_qualifiedContext t' place written
    · exact f.sameShape_qualifiedContext t place written
    · exact f'.sameShape_qualifiedContext t' place written
  obtain ⟨hanswer, hkin⟩ := h.qualify hV place place.length (Name.ofWritten written).segments false
  unfold Forest.qualifiedContext qualifyWritten
  generalize f.qualify t place place.length (Name.ofWritten written).segments false = x,
    f'.qualify t' place place.length (Name.ofWritten written).segments false = x' at hanswer hkin
  obtain ⟨outcome, g⟩ := x
  obtain ⟨outcome', g'⟩ := x'
  obtain rfl : outcome' = outcome := hanswer
  dsimp only at hkin ⊢
  cases outcome' with
  | error rest => exact ⟨rfl, hkin.alike⟩
  | ok owner =>
    dsimp only [findName?]
    rcases hkin.find?_cases hV (owner.below owner.length) with
      ⟨hnone, hnone'⟩ | ⟨r, r', hr, hr', hdescribe, htwins⟩
    · rw [hnone, hnone']
      exact ⟨rfl, hkin.alike⟩
    · injection hdescribe with hsupports hcontext _
      have hsettled := hkin.alike.settle htwins owner.render
      have htext : (g'.settleQualification (g'.definition r') owner.render).1 =
          (g.settleQualification (g.definition r) owner.render).1 := by
        rw [owner.render_eq, settleQualification_fst, settleQualification_fst]
        exact hcontext
      rw [supports, supports] at hsupports
      rw [hr, hr']
      dsimp only
      rw [supportsTr_settleQualification, supportsTr_settleQualification, hsupports]
      split_ifs
      · exact ⟨htext, hsettled⟩
      · exact ⟨htext, hsettled.complain htwins⟩

theorem size_addChild (hr : f.Has r) (definition : Option ScopeRef) :
    ((f.addChild r segment definition).1.tree r.tree).scopes.size =
      (f.tree r.tree).scopes.size + 1 := by
  unfold Forest.addChild
  dsimp only
  rw [scopes_modifyScope, Array.size_modify, tree_modifyTree, if_pos ⟨rfl, hr.tree_lt⟩,
    Array.size_push]

section AddChild

variable {definition definition' : Option ScopeRef}

/-- A new scope on both sides that has its definition in another tree, or itself for it. -/
theorem Alike.addChild {s : Nat} (h : Alike f t f' t') (hr : f.Has ⟨t, s⟩)
    (hforeign : ∀ d ∈ definition, d.tree ≠ t) (hforeign' : ∀ d ∈ definition', d.tree ≠ t')
    (hsome : definition'.isSome = definition.isSome) :
    Alike (f.addChild ⟨t, s⟩ segment definition).1 t (f'.addChild ⟨t', s⟩ segment definition').1
      t' := by
  have hr' : f'.Has ⟨t', s⟩ := by
    rw [Has, h.size]
    exact hr
  have hfresh : ∀ (k : Forest) (u x : Nat), ⟨u, x⟩ = k.fresh u ↔ x = (k.tree u).scopes.size :=
    fun k u x ↦ by simp [fresh]
  refine ⟨?_, fun x ↦ ?_, fun x ↦ ?_⟩
  · have hsize : ((f.addChild ⟨t, s⟩ segment definition).1.tree t).scopes.size =
        (f.tree t).scopes.size + 1 := size_addChild hr definition
    have hsize' : ((f'.addChild ⟨t', s⟩ segment definition').1.tree t').scopes.size =
        (f'.tree t').scopes.size + 1 := size_addChild hr' definition'
    rw [hsize, hsize', h.size]
  · rw [Forest.definition, scope_addChild hr, scope_addChild hr']
    simp only [hfresh, h.size, ScopeRef.mk.injEq, true_and]
    split_ifs with hnew hparent
    · rfl
    · rw [h.scope, fresh, fresh, h.size]
    · exact h.scope x
  · by_cases hnew : x = (f.tree t).scopes.size
    · have hx : ⟨t, x⟩ = f.fresh t := (hfresh f t x).2 hnew
      have hx' : ⟨t', x⟩ = f'.fresh t' := (hfresh f' t' x).2 (hnew.trans h.size.symm)
      have hdefinition : (f.addChild ⟨t, s⟩ segment definition).1.definition (f.fresh t) =
          definition.getD (f.fresh t) := WellFormed.definition_fresh hr
      have hdefinition' : (f'.addChild ⟨t', s⟩ segment definition').1.definition (f'.fresh t') =
          definition'.getD (f'.fresh t') := WellFormed.definition_fresh hr'
      rw [hx, hx', hdefinition, hdefinition']
      cases definition with
      | none =>
        cases definition' with
        | none => exact iff_of_true rfl rfl
        | some d' => cases hsome
      | some d =>
        cases definition' with
        | none => cases hsome
        | some d' =>
          refine iff_of_false ?_ ?_
          · rintro rfl
            exact hforeign' _ rfl rfl
          · rintro rfl
            exact hforeign _ rfl rfl
    · rw [WellFormed.definition_addChild_of_ne hr (mt (hfresh f t x).1 hnew),
        WellFormed.definition_addChild_of_ne hr' (mt (hfresh f' t' x).1 (h.size ▸ hnew))]
      exact h.own x

end AddChild

/-- A scope that is missing in the tree itself can share the definition of what is found at its
path. -/
theorem Current.shared (h : f.Current t) (hnone : f.walk t path = none) (share : Bool) {d : ScopeRef}
    (hd : d ∈ if share then (f.find? t path).map f.definition else none) :
    f.Defines t path d ∧ d.tree ≠ t := by
  split_ifs at hd
  · obtain ⟨r, hr, rfl⟩ := Option.map_eq_some_iff.1 hd
    refine ⟨h.formed.defines_of_find? hr, ?_⟩
    rw [find?_eq, hnone, Option.none_or] at hr
    obtain ⟨u, hu, hwalk⟩ := List.exists_of_findSome?_eq_some hr
    exact h.ne_of_sees (h.mem_tail_iff.1 hu).1 (h.formed.definition u path r hwalk).sees
  · cases hd

namespace Kin

variable (hV : V.Agrees)

include hV

theorem isSome_find? (h : Kin V f t f' t') (path : List String) :
    (f'.find? t' path).isSome = (f.find? t path).isSome := by
  rcases h.find?_cases hV path with ⟨hx, hx'⟩ | ⟨x, x', hx, hx', -, -⟩
  · rw [hx, hx']
  · rw [hx, hx']
    rfl

/-- A scope is added on both sides, with the definition of what is found at its path if that is
shared. -/
theorem addChild (h : Kin V f t f' t') {s : Nat} (hq : f.walk t q = some ⟨t, s⟩)
    (hchild : (f.scope ⟨t, s⟩).child? segment = none) (share : Bool) :
    Kin V
      (f.addChild ⟨t, s⟩ segment
        (if share then (f.find? t (q ++ [segment])).map f.definition else none)).1 t
      (f'.addChild ⟨t', s⟩ segment
        (if share then (f'.find? t' (q ++ [segment])).map f'.definition else none)).1 t' := by
  have hq' : f'.walk t' q = some ⟨t', s⟩ := by
    rw [h.alike.walk, hq]
    rfl
  have hchild' : (f'.scope ⟨t', s⟩).child? segment = none := by
    rw [h.alike.scope]
    exact hchild
  have hnone : f.walk t (q ++ [segment]) = none := by
    rw [walk_concat, hq, Option.bind_some, hchild]
    rfl
  have hnone' : f'.walk t' (q ++ [segment]) = none := by
    rw [h.alike.walk, hnone]
    rfl
  have hsome : (if share then (f'.find? t' (q ++ [segment])).map f'.definition else none).isSome =
      (if share then (f.find? t (q ++ [segment])).map f.definition else none).isSome := by
    split_ifs
    · rw [Option.isSome_map, Option.isSome_map]
      exact h.isSome_find? hV (q ++ [segment])
    · rfl
  have hshared := fun {d} ↦ h.left.shared hnone share (d := d)
  have hshared' := fun {d} ↦ h.right.shared hnone' share (d := d)
  generalize (if share then (f.find? t (q ++ [segment])).map f.definition else none) = definition,
    (if share then (f'.find? t' (q ++ [segment])).map f'.definition else none) = definition'
    at hsome hshared hshared'
  have hr := h.left.formed.has_of_walk h.left.lt hq
  refine h.spares ?_ ?_ ?_ ?_ ?_ ?_
  · exact .of_others (sameFiles_addChild ..) fun u hu ↦ tree_addChild_of_ne hu
  · exact .of_others (sameFiles_addChild ..) fun u hu ↦ tree_addChild_of_ne hu
  · exact h.left.formed.addChild h.left.lt hq hchild fun d hd ↦ (hshared hd).1
  · exact h.right.formed.addChild h.right.lt hq' hchild' fun d hd ↦ (hshared' hd).1
  · rw [WellFormed.definition_addChild_of_ne hr (h.left.formed.root t h.left.lt).ne_fresh,
      h.left.root]
  · exact h.alike.addChild hr (fun d hd ↦ (hshared hd).2) (fun d hd ↦ (hshared' hd).2) hsome

/-- Opening the scopes along a path, from the scope at its beginning `q` on. -/
theorem openFrom (h : Kin V f t f' t') (first : String) (share : Bool) {s : Nat}
    {rest : List String} (hq : f.walk t q = some ⟨t, s⟩) :
    Kin V (f.openFrom t ⟨first :: (q ++ rest)⟩ share ⟨t, s⟩ (q.length + 1) rest).1 t
        (f'.openFrom t' ⟨first :: (q ++ rest)⟩ share ⟨t', s⟩ (q.length + 1) rest).1 t' ∧
      ∃ s', (f.openFrom t ⟨first :: (q ++ rest)⟩ share ⟨t, s⟩ (q.length + 1) rest).2 = ⟨t, s'⟩ ∧
        (f'.openFrom t' ⟨first :: (q ++ rest)⟩ share ⟨t', s⟩ (q.length + 1) rest).2 = ⟨t', s'⟩ := by
  induction rest generalizing f f' q s with
  | nil => exact ⟨h, s, rfl, rfl⟩
  | cons segment rest ih =>
    have hpath : q ++ segment :: rest = q ++ [segment] ++ rest := by simp
    have hlength : q.length + 1 + 1 = (q ++ [segment]).length + 1 := by simp
    have hsame : (f'.scope ⟨t', s⟩).child? segment = (f.scope ⟨t, s⟩).child? segment := by
      rw [h.alike.scope]
      rfl
    rw [Forest.openFrom, Forest.openFrom, hpath, hlength, hsame]
    cases hchild : (f.scope ⟨t, s⟩).child? segment with
    | some child =>
      apply ih h
      rw [walk_concat, hq, Option.bind_some, hchild]
      rfl
    | none =>
      dsimp only
      rw [Name.below_of_append]
      have hadded := h.addChild hV hq hchild (share || !rest.isEmpty)
      have hwalk := (h.left.formed.walk_of_addChild h.left.lt hq hchild
        (if share || !rest.isEmpty then (f.find? t (q ++ [segment])).map f.definition else none) t
        (q ++ [segment])).trans (if_pos ⟨rfl, rfl⟩)
      rw [addChild_snd, addChild_snd, fresh, fresh, h.alike.size]
      exact ih hadded hwalk

theorem openScope (h : Kin V f t f' t') (place : Name) (share : Bool) :
    Kin V (f.openScope t place share).1 t (f'.openScope t' place share).1 t' ∧
      ∃ s, (f.openScope t place share).2 = ⟨t, s⟩ ∧ (f'.openScope t' place share).2 = ⟨t', s⟩ := by
  obtain ⟨segments⟩ := place
  cases segments with
  | nil => exact ⟨h, 0, rfl, rfl⟩
  | cons first rest => exact h.openFrom hV first share (walk_nil f t)

theorem enter (h : Kin V f t f' t') (place : Name) :
    Kin V (f.enter t place) t (f'.enter t' place) t' := by
  have hsome : (f'.findName? t' place).isSome = (f.findName? t place).isSome :=
    h.isSome_find? hV (place.below place.length)
  unfold Forest.enter
  rw [hsome]
  split_ifs
  · exact h
  · exact (h.openScope hV place false).1

theorem modifyAt (h : Kin V f t f' t') (place : Name) {change : Scope → Scope}
    (hlocal : Scope.Local change) (hchildren : Scope.KeepsChildren change) :
    Kin V (f.modifyAt t place change) t (f'.modifyAt t' place change) t' := by
  obtain ⟨hopened, s, hs, hs'⟩ := h.openScope hV place true
  unfold Forest.modifyAt
  dsimp only
  rw [hs, hs']
  generalize (f.openScope t place true).1 = g, (f'.openScope t' place true).1 = g' at hopened
  have hshape := g.sameShape_modifyScope ⟨t, s⟩ hlocal hchildren
  have hshape' := g'.sameShape_modifyScope ⟨t', s⟩ hlocal hchildren
  refine hopened.touched ?_ ?_ hshape hshape' (hopened.alike.modifyScope s hlocal)
  · exact .of_others hshape.files fun u hu ↦ tree_modifyScope_of_ne change hu
  · exact .of_others hshape'.files fun u hu ↦ tree_modifyScope_of_ne change hu

end Kin

end Forest

end Harvest
