import Harvest.Parser.State
import Harvest.Proofs.Traversal
import Mathlib.Data.List.Induction
import Mathlib.Tactic.ByContra
import Mathlib.Tactic.SplitIfs

/-!
# Changes of a scope forest

What changing one scope and adding one scope do to the forest: which scopes there are, what is in
them, where paths lead, and in which order the trees are looked at. A change of a scope that keeps
its children moves no path, and a new scope changes where one path leads.
-/

namespace Harvest

/-- A change of a scope that neither looks at its definition nor changes it. -/
def Scope.Local (change : Scope → Scope) : Prop :=
  ∀ s r, change { s with definition := r } = { change s with definition := r }

theorem Scope.Local.definition_eq {change : Scope → Scope} (h : Scope.Local change) (s : Scope) :
    (change s).definition = s.definition := by
  have hself := h s s.definition
  rw [hself]

/-- A change of a scope that adds and drops no child. -/
def Scope.KeepsChildren (change : Scope → Scope) : Prop := ∀ s, (change s).children = s.children

/-- The path along the first segments of a scope's name. -/
theorem Name.below_of_append (first : String) (p q : List String) :
    (⟨first :: (p ++ q)⟩ : Name).below (p.length + 1) = p := by
  simp [Name.below, Name.length]

namespace Forest

variable {f : Forest} {r x : ScopeRef} {t u : Nat}

/-- The forest has this scope. -/
def Has (f : Forest) (r : ScopeRef) : Prop := r.scope < (f.tree r.tree).scopes.size

instance (f : Forest) (r : ScopeRef) : Decidable (f.Has r) := inferInstanceAs (Decidable (_ < _))

/-- The two forests have the same files, which include the same files. -/
structure SameFiles (f g : Forest) : Prop where
  size : g.trees.size = f.trees.size
  fileId : ∀ t, (g.tree t).fileId = (f.tree t).fileId
  includes : ∀ t, (g.tree t).includes = (f.tree t).includes

theorem SameFiles.refl (f : Forest) : f.SameFiles f := ⟨rfl, fun _ ↦ rfl, fun _ ↦ rfl⟩

theorem SameFiles.trans {g h : Forest} (hfg : f.SameFiles g) (hgh : g.SameFiles h) :
    f.SameFiles h :=
  ⟨hgh.size.trans hfg.size, fun t ↦ (hgh.fileId t).trans (hfg.fileId t),
    fun t ↦ (hgh.includes t).trans (hfg.includes t)⟩

theorem SameFiles.symm {g : Forest} (h : f.SameFiles g) : g.SameFiles f :=
  ⟨h.size.symm, fun t ↦ (h.fileId t).symm, fun t ↦ (h.includes t).symm⟩

theorem tree_modifyTree (f : Forest) (t u : Nat) (change : ScopeTree → ScopeTree) :
    (f.modifyTree t change).tree u =
      if u = t ∧ t < f.trees.size then change (f.tree t) else f.tree u := by
  simp only [tree, modifyTree, Array.getD_eq_getD_getElem?, Array.getElem?_modify]
  by_cases hu : t = u
  · subst hu
    by_cases ht : t < f.trees.size
    · simp [ht]
    · simp [ht]
  · simp [hu, Ne.symm hu]

theorem tree_of_size_le (h : f.trees.size ≤ t) : f.tree t = { fileId := 0, scopes := #[] } := by
  simp [tree, Array.getD_eq_getD_getElem?, h]

/-- The id of every included file is among the keys of the look-up. -/
theorem fileId_mem_includedIds (hu : u ∈ f.included t) : f.fileId u ∈ f.includedIds := by
  have ht : t < f.trees.size := by
    by_contra ht
    rw [included, tree_of_size_le (Nat.le_of_not_lt ht)] at hu
    exact List.not_mem_nil hu
  exact List.mem_flatMap.2 ⟨t, List.mem_range.2 ht, List.mem_map_of_mem hu⟩

theorem tree_plant (f : Forest) (id : Nat) :
    (f.plant id).tree f.trees.size =
      { fileId := id, scopes := #[{ definition := ⟨f.trees.size, 0⟩ }] } := by
  simp [tree, plant, Array.getD_eq_getD_getElem?]

theorem tree_plant_of_ne (f : Forest) (id : Nat) (hu : u ≠ f.trees.size) :
    (f.plant id).tree u = f.tree u := by
  simp [tree, plant, Array.getD_eq_getD_getElem?, Array.getElem?_push, hu]

theorem Has.tree_lt (h : f.Has r) : r.tree < f.trees.size := by
  by_contra hge
  rw [Has, tree_of_size_le (Nat.le_of_not_lt hge)] at h
  exact Nat.not_lt_zero _ h

theorem scope_of_not_has (f : Forest) (hr : ¬f.Has r) : f.scope r = { definition := r } := by
  rw [Has, Nat.not_lt] at hr
  simp [scope, Array.getD_eq_getD_getElem?, hr]

theorem mem_allBases_iff {base : Name} :
    base ∈ f.allBases ↔ ∃ r, f.Has r ∧ base ∈ (f.scope r).bases := by
  simp only [allBases, List.mem_flatMap, Array.mem_toList_iff, Array.mem_iff_getElem]
  constructor
  · rintro ⟨_, ⟨t, ht, rfl⟩, _, ⟨s, hs, rfl⟩, hbase⟩
    have htree : f.tree t = f.trees[t] := by simp [tree, Array.getD_eq_getD_getElem?, ht]
    rw [← htree] at hs
    refine ⟨⟨t, s⟩, hs, ?_⟩
    simpa [scope, htree, Array.getD_eq_getD_getElem?, htree ▸ hs] using hbase
  · rintro ⟨⟨t, s⟩, hhas, hbase⟩
    have ht : t < f.trees.size := hhas.tree_lt
    have htree : f.tree t = f.trees[t] := by simp [tree, Array.getD_eq_getD_getElem?, ht]
    have hs : s < f.trees[t].scopes.size := htree ▸ hhas
    refine ⟨_, ⟨t, ht, rfl⟩, _, ⟨s, hs, rfl⟩, ?_⟩
    simpa [scope, htree, Array.getD_eq_getD_getElem?, hs] using hbase

theorem mem_allBases_of_mem {r : ScopeRef} {base : Name} (h : base ∈ f.basesOf r) :
    base ∈ f.allBases := by
  have hscope : ∀ x, base ∈ (f.scope x).bases → base ∈ f.allBases := by
    intro x hx
    apply mem_allBases_iff.2
    refine ⟨x, ?_, hx⟩
    by_contra hhas
    rw [scope_of_not_has f hhas] at hx
    cases hx
  rcases List.mem_append.1 h with h | h
  · exact hscope r h
  · exact hscope (f.definition r) h

theorem tree_modifyScope_of_ne (change : Scope → Scope) (hu : u ≠ r.tree) :
    (f.modifyScope r change).tree u = f.tree u := by
  rw [modifyScope, tree_modifyTree, if_neg fun h ↦ hu h.1]

theorem scopes_modifyScope (f : Forest) (r : ScopeRef) (change : Scope → Scope) :
    ((f.modifyScope r change).tree r.tree).scopes =
      (f.tree r.tree).scopes.modify r.scope change := by
  rw [modifyScope, tree_modifyTree]
  by_cases ht : r.tree < f.trees.size
  · rw [if_pos ⟨rfl, ht⟩]
  · rw [if_neg fun h ↦ ht h.2, tree_of_size_le (Nat.le_of_not_lt ht)]
    simp

theorem scope_modifyScope (f : Forest) (r x : ScopeRef) (change : Scope → Scope) :
    (f.modifyScope r change).scope x =
      if x = r ∧ f.Has r then change (f.scope r) else f.scope x := by
  by_cases hx : x.tree = r.tree
  · simp only [scope, hx, scopes_modifyScope, Array.getD_eq_getD_getElem?, Array.getElem?_modify]
    by_cases hs : r.scope = x.scope
    · have hxr : x = r := by cases x; cases r; simp_all
      subst hxr
      by_cases hhas : x.scope < (f.tree x.tree).scopes.size
      · simp [hhas, Has]
      · simp [hhas, Has]
    · have hxr : x ≠ r := fun h ↦ hs (h ▸ rfl)
      simp [hs, hxr]
  · have hxr : x ≠ r := fun h ↦ hx (h ▸ rfl)
    rw [if_neg fun h ↦ hxr h.1, scope, tree_modifyScope_of_ne change hx, ← scope]

/-- What a change of a scope keeps is the same as before at every scope. -/
theorem field_modifyScope {α : Type} {field : Scope → α} {change : Scope → Scope}
    (hkeeps : ∀ s, field (change s) = field s) (f : Forest) (r x : ScopeRef) :
    field ((f.modifyScope r change).scope x) = field (f.scope x) := by
  rw [scope_modifyScope]
  split_ifs with hx
  · rw [hkeeps, hx.1]
  · rfl

theorem has_modifyScope (change : Scope → Scope) : (f.modifyScope r change).Has x ↔ f.Has x := by
  by_cases hx : x.tree = r.tree
  · rw [Has, hx, scopes_modifyScope, Array.size_modify, Has, hx]
  · rw [Has, tree_modifyScope_of_ne change hx, Has]

theorem sameFiles_modifyTree (f : Forest) (t : Nat) {change : ScopeTree → ScopeTree}
    (hfile : ∀ s, (change s).fileId = s.fileId)
    (hincludes : ∀ s, (change s).includes = s.includes) :
    f.SameFiles (f.modifyTree t change) := by
  refine ⟨by simp [modifyTree], fun u ↦ ?_, fun u ↦ ?_⟩
  all_goals
    rw [tree_modifyTree]
    split_ifs with h
  · rw [hfile, h.1]
  · rfl
  · rw [hincludes, h.1]
  · rfl

theorem sameFiles_modifyScope (f : Forest) (r : ScopeRef) (change : Scope → Scope) :
    f.SameFiles (f.modifyScope r change) :=
  sameFiles_modifyTree f r.tree (fun _ ↦ rfl) fun _ ↦ rfl

/-- The order of look-up depends on the files and their includes only. -/
theorem SameFiles.order_eq {g : Forest} (h : f.SameFiles g) (t : Nat) : g.order t = f.order t := by
  have hid : g.fileId = f.fileId := funext h.fileId
  have hincluded : g.included = f.included := by
    funext t
    unfold included
    rw [h.includes]
  unfold order includedIds
  rw [hid, hincluded, h.size]

/-- The forests differ only in the trees in which the names of the file `t` are looked up. -/
structure ChangesWithin (f : Forest) (t : Nat) (g : Forest) : Prop where
  files : f.SameFiles g
  trees : ∀ u, u ∉ f.order t → g.tree u = f.tree u

theorem ChangesWithin.refl (f : Forest) (t : Nat) : f.ChangesWithin t f :=
  ⟨.refl f, fun _ _ ↦ rfl⟩

theorem ChangesWithin.trans {g h : Forest} (hfg : f.ChangesWithin t g) (hgh : g.ChangesWithin t h) :
    f.ChangesWithin t h := by
  refine ⟨hfg.files.trans hgh.files, fun u hu ↦ ?_⟩
  rw [hgh.trees u (hfg.files.order_eq t ▸ hu), hfg.trees u hu]

theorem changesWithin_modifyScope (change : Scope → Scope) (hr : r.tree ∈ f.order t) :
    f.ChangesWithin t (f.modifyScope r change) :=
  ⟨sameFiles_modifyScope f r change, fun _ hu ↦ tree_modifyScope_of_ne change fun h ↦ hu (h ▸ hr)⟩

theorem descend_append (f : Forest) (r : ScopeRef) (p q : List String) :
    f.descend r (p ++ q) = (f.descend r p).bind fun s ↦ f.descend s q := by
  induction p generalizing r with
  | nil => rfl
  | cons segment p ih =>
    simp only [List.cons_append, descend]
    cases (f.scope r).child? segment with
    | none => rfl
    | some child => exact ih _

theorem walk_nil (f : Forest) (t : Nat) : f.walk t [] = some ⟨t, 0⟩ := rfl

theorem walk_concat (f : Forest) (t : Nat) (p : List String) (segment : String) :
    f.walk t (p ++ [segment]) =
      (f.walk t p).bind fun s ↦ ((f.scope s).child? segment).map fun child ↦ ⟨s.tree, child⟩ := by
  rw [walk, descend_append]
  congr 1
  funext s
  simp only [descend]
  cases (f.scope s).child? segment <;> rfl

theorem tree_of_walk {p : List String} (h : f.walk t p = some r) : r.tree = t := by
  induction p using List.reverseRecOn generalizing r with
  | nil => rw [← Option.some.inj h]
  | append_singleton p segment ih =>
    rw [walk_concat] at h
    obtain ⟨s, hs, hchild⟩ := Option.bind_eq_some_iff.1 h
    obtain ⟨child, -, rfl⟩ := Option.map_eq_some_iff.1 hchild
    exact @ih s hs

/-- A path that leads to a scope leads through scopes. -/
theorem isSome_walk_of_append {p q : List String} (h : (f.walk t (p ++ q)).isSome) :
    (f.walk t p).isSome := by
  rw [walk, descend_append] at h
  exact Option.isSome_of_isSome_bind h

/-- Paths in a tree depend on the children of its scopes only. -/
theorem walk_congr {g : Forest}
    (h : ∀ x : ScopeRef, x.tree = t → (g.scope x).children = (f.scope x).children)
    (p : List String) : g.walk t p = f.walk t p := by
  induction p using List.reverseRecOn with
  | nil => rfl
  | append_singleton p segment ih =>
    rw [walk_concat, walk_concat, ih]
    cases hp : f.walk t p with
    | none => rfl
    | some x => simp only [Option.bind_some, Scope.child?, h x (tree_of_walk hp)]

theorem findSome?_walk_congr {g : Forest} {us : List Nat} {p : List String}
    (h : ∀ u ∈ us, g.walk u p = f.walk u p) :
    us.findSome? (fun u ↦ g.walk u p) = us.findSome? fun u ↦ f.walk u p := by
  induction us with
  | nil => rfl
  | cons u us ih =>
    rw [List.findSome?_cons, List.findSome?_cons, h u List.mem_cons_self,
      ih fun v hv ↦ h v (List.mem_cons_of_mem u hv)]

theorem find?_eq (f : Forest) (t : Nat) (p : List String) :
    f.find? t p = (f.walk t p).or ((f.order t).tail.findSome? fun u ↦ f.walk u p) := by
  change List.findSome? _ (t :: (f.order t).tail) = _
  rw [List.findSome?_cons]
  cases f.walk t p <;> rfl

theorem find?_of_walk {p : List String} (h : f.walk t p = some r) : f.find? t p = some r := by
  rw [find?_eq, h]
  rfl

theorem find?_congr {g : Forest} (hfiles : f.SameFiles g)
    (h : ∀ x, (g.scope x).children = (f.scope x).children) (t : Nat) (p : List String) :
    g.find? t p = f.find? t p := by
  rw [find?, hfiles.order_eq]
  exact findSome?_walk_congr fun u _ ↦ walk_congr (fun x _ ↦ h x) p

section AddChild

variable {segment : String} {definition : Option ScopeRef}

/-- The scope that would be added next to a tree. -/
def fresh (f : Forest) (t : Nat) : ScopeRef := ⟨t, (f.tree t).scopes.size⟩

theorem not_has_fresh (f : Forest) (t : Nat) : ¬ f.Has (f.fresh t) := Nat.lt_irrefl _

theorem Has.ne_fresh (h : f.Has x) : x ≠ f.fresh t := by
  rintro rfl
  exact f.not_has_fresh t h

theorem addChild_snd (f : Forest) (r : ScopeRef) (segment : String) (definition : Option ScopeRef) :
    (f.addChild r segment definition).2 = f.fresh r.tree := rfl

theorem tree_addChild_of_ne (hu : u ≠ r.tree) :
    (f.addChild r segment definition).1.tree u = f.tree u := by
  rw [addChild, tree_modifyScope_of_ne _ hu, tree_modifyTree, if_neg fun h ↦ hu h.1]

/-- The forest with a new scope that is nobody's child yet. -/
def push (f : Forest) (t : Nat) (s : Scope) : Forest :=
  f.modifyTree t fun tree ↦ { tree with scopes := tree.scopes.push s }

theorem sameFiles_addChild (f : Forest) (r : ScopeRef) (segment : String)
    (definition : Option ScopeRef) : f.SameFiles (f.addChild r segment definition).1 := by
  have hpush : f.SameFiles (f.push r.tree { definition := definition.getD (f.fresh r.tree) }) :=
    sameFiles_modifyTree f r.tree (fun _ ↦ rfl) fun _ ↦ rfl
  exact hpush.trans (sameFiles_modifyScope _ _ _)

theorem scope_push (ht : t < f.trees.size) (s : Scope) :
    (f.push t s).scope x = if x = f.fresh t then s else f.scope x := by
  by_cases hx : x.tree = t
  · simp only [scope, push, tree_modifyTree, hx, ht, and_self, if_true,
      Array.getD_eq_getD_getElem?, Array.getElem?_push]
    by_cases hs : x.scope = (f.tree t).scopes.size
    · have hfresh : x = f.fresh t := by cases x; simp_all [fresh]
      rw [if_pos hs, if_pos hfresh]
      rfl
    · have hfresh : x ≠ f.fresh t := fun h ↦ hs (by rw [h]; rfl)
      simp [hs, hfresh]
  · have hfresh : x ≠ f.fresh t := fun h ↦ hx (by rw [h]; rfl)
    rw [if_neg hfresh, scope, push, tree_modifyTree, if_neg fun h ↦ hx h.1, ← scope]

theorem has_push (ht : t < f.trees.size) (s : Scope) :
    (f.push t s).Has x ↔ f.Has x ∨ x = f.fresh t := by
  by_cases hx : x.tree = t
  · subst hx
    simp only [Has, push, tree_modifyTree, ht, and_self, if_true, Array.size_push]
    have hfresh : x = f.fresh x.tree ↔ x.scope = (f.tree x.tree).scopes.size := by
      cases x
      simp [fresh]
    rw [hfresh]
    omega
  · have hfresh : x ≠ f.fresh t := fun h ↦ hx (by rw [h]; rfl)
    simp only [Has, push, tree_modifyTree, hx, false_and, if_false, hfresh, or_false]

theorem has_addChild (hr : f.Has r) :
    (f.addChild r segment definition).1.Has x ↔ f.Has x ∨ x = f.fresh r.tree :=
  (has_modifyScope _).trans (has_push hr.tree_lt _)

theorem scope_addChild (hr : f.Has r) :
    (f.addChild r segment definition).1.scope x =
      if x = f.fresh r.tree then { definition := definition.getD (f.fresh r.tree) }
      else if x = r then
        { f.scope r with children := (f.scope r).children ++ [(segment, (f.fresh r.tree).scope)] }
      else f.scope x := by
  have hne : r ≠ f.fresh r.tree := hr.ne_fresh
  change ((f.push r.tree _).modifyScope r _).scope x = _
  rw [scope_modifyScope, scope_push hr.tree_lt, scope_push hr.tree_lt, if_neg hne]
  have hhas : (f.push r.tree { definition := definition.getD (f.fresh r.tree) }).Has r :=
    (has_push hr.tree_lt _).2 (.inl hr)
  by_cases hx : x = r
  · subst hx
    rw [if_pos ⟨rfl, hhas⟩, if_neg hne, if_pos rfl]
    rfl
  · rw [if_neg fun h ↦ hx h.1, if_neg hx]
    rfl

/-- Apart from its children, an old scope is as it was. -/
theorem scope_addChild_of_has (hr : f.Has r) (hx : f.Has x) (segment : String)
    (definition : Option ScopeRef) :
    ∃ children, (f.addChild r segment definition).1.scope x = { f.scope x with children } := by
  rw [scope_addChild hr, if_neg hx.ne_fresh]
  by_cases hxr : x = r
  · exact ⟨_, by rw [if_pos hxr, hxr]⟩
  · exact ⟨_, if_neg hxr⟩

/-- A new scope changes where one path leads, if no other path leads to its parent. -/
theorem walk_addChild {q : List String} (hq : f.walk t q = some r)
    (honly : ∀ p, f.walk t p = some r → p = q) (hhas : ∀ p x, f.walk t p = some x → f.Has x)
    (hchild : (f.scope r).child? segment = none) (definition : Option ScopeRef) (p : List String) :
    (f.addChild r segment definition).1.walk t p =
      if p = q ++ [segment] then some (f.fresh t) else f.walk t p := by
  have hr : f.Has r := hhas q r hq
  have htree : r.tree = t := tree_of_walk hq
  have habsent : f.walk t (q ++ [segment]) = none := by
    rw [walk_concat, hq, Option.bind_some, hchild]
    rfl
  induction p using List.reverseRecOn with
  | nil => rw [if_neg (by simp)]; rfl
  | append_singleton p s ih =>
    rw [walk_concat, ih, walk_concat f t p s]
    by_cases hp : p = q ++ [segment]
    · -- Below the new scope there is nothing, neither before nor after.
      subst hp
      rw [if_pos rfl, if_neg (by simp), habsent, Option.bind_some, scope_addChild hr, htree,
        if_pos rfl]
      rfl
    · rw [if_neg hp]
      cases hx : f.walk t p with
      | none =>
        have hne : p ++ [s] ≠ q ++ [segment] := by
          intro h
          obtain ⟨rfl, -⟩ := List.append_inj' h rfl
          rw [hq] at hx
          cases hx
        rw [if_neg hne, Option.bind_none, Option.bind_none]
      | some x =>
        rw [Option.bind_some, Option.bind_some, scope_addChild hr, if_neg (hhas p x hx).ne_fresh]
        by_cases hxr : x = r
        · subst hxr
          obtain rfl := honly p hx
          rw [if_pos rfl, Scope.child?, List.lookup_append]
          by_cases hs : s = segment
          · subst hs
            rw [if_pos rfl]
            rw [Scope.child?] at hchild
            rw [hchild, htree]
            simp [fresh]
          · rw [if_neg fun h ↦ hs (by simpa using h)]
            have hlookup : List.lookup s [(segment, (f.fresh x.tree).scope)] = none := by
              rw [List.lookup_cons, beq_false_of_ne hs, List.lookup_nil]
            rw [hlookup, Option.or_none, Scope.child?]
        · rw [if_neg hxr, if_neg fun h ↦ ?_]
          obtain ⟨rfl, -⟩ := List.append_inj' h rfl
          exact hxr (Option.some.inj (hx.symm.trans hq))

end AddChild

section AddInclude

variable {h : Nat}

theorem size_addInclude (f : Forest) (t u : Nat) :
    (f.addInclude t u).trees.size = f.trees.size := Array.size_modify

theorem size_addIncludes (f : Forest) (t : Nat) (us : List Nat) :
    (us.foldl (fun f u ↦ f.addInclude t u) f).trees.size = f.trees.size := by
  induction us generalizing f with
  | nil => rfl
  | cons u us ih => exact (ih _).trans (f.size_addInclude t u)

theorem tree_addInclude (ht : t < f.trees.size) (u : Nat) :
    (f.addInclude t h).tree u = if u = t then
      { f.tree t with includes := insertAbsent (f.tree h).fileId h (f.tree t).includes }
      else f.tree u := by
  rw [addInclude, tree_modifyTree]
  simp [ht]

theorem scopes_addInclude (ht : t < f.trees.size) (u : Nat) :
    ((f.addInclude t h).tree u).scopes = (f.tree u).scopes := by
  rw [tree_addInclude ht]
  split_ifs with hu
  · rw [hu]
  · rfl

theorem scope_addInclude (ht : t < f.trees.size) (x : ScopeRef) :
    (f.addInclude t h).scope x = f.scope x := by
  rw [scope, scopes_addInclude ht, scope]

theorem has_addInclude (ht : t < f.trees.size) {x : ScopeRef} :
    (f.addInclude t h).Has x ↔ f.Has x := by
  rw [Has, scopes_addInclude ht, Has]

theorem definition_addInclude (ht : t < f.trees.size) (x : ScopeRef) :
    (f.addInclude t h).definition x = f.definition x := by
  rw [definition, scope_addInclude ht, definition]

theorem walk_addInclude (ht : t < f.trees.size) (u : Nat) (p : List String) :
    (f.addInclude t h).walk u p = f.walk u p :=
  walk_congr (fun x _ ↦ by rw [scope_addInclude ht]) p

end AddInclude

end Forest

end Harvest
