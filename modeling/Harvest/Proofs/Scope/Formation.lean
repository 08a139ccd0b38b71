import Harvest.Proofs.Include.Groups
import Harvest.Proofs.Scope.Aliases
import Mathlib.Logic.Relation

/-!
# Well-formed forests

In a well-formed forest every tree hangs together: each scope but the global one is the child of one
scope, under one name, and sits at one path. What defines a scope sits at the same path, in the same
tree or in one that is included, and defines itself. Everything that a parser does to a forest keeps
it well formed.
-/

namespace Harvest.Forest

variable {f g : Forest} {r x : ScopeRef} {t u : Nat} {p q : List String} {segment : String}

/-- The second file is the first, or the first includes it, directly or not. -/
def Sees (f : Forest) : Nat → Nat → Prop := Relation.ReflTransGen fun t u ↦ u ∈ f.included t

/-- The scope can define the one at a path of the file `t`: it sits at the same path, in that file
or in one that it includes, and defines itself. -/
structure Defines (f : Forest) (t : Nat) (path : List String) (d : ScopeRef) : Prop where
  sees : f.Sees t d.tree
  walk : f.walk d.tree path = some d
  self : f.definition d = d

structure WellFormed (f : Forest) : Prop where
  root : ∀ t < f.trees.size, f.Has ⟨t, 0⟩
  child : ∀ r, ∀ c ∈ (f.scope r).children, r.scope < c.2 ∧ f.Has ⟨r.tree, c.2⟩
  parent : ∀ r, f.Has r → r.scope ≠ 0 →
    ∃! c : Nat × String, (c.2, r.scope) ∈ (f.scope ⟨r.tree, c.1⟩).children
  names : ∀ r, ((f.scope r).children.map Prod.fst).Nodup
  includes : ∀ t, ∀ u ∈ f.included t, u < f.trees.size
  definition : ∀ t path r, f.walk t path = some r → f.Defines t path (f.definition r)

theorem sees_of_included (h : ∀ t, f.included t ⊆ g.included t) (hsees : f.Sees t u) :
    g.Sees t u := by
  apply Relation.ReflTransGen.mono _ _ _ hsees
  intro t u hu
  exact h t hu

/-- Names of a file are looked up in files that it sees. -/
theorem sees_of_mem_order (h : u ∈ f.order t) : f.Sees t u := by
  rcases List.mem_cons.1 h with rfl | h
  · exact .refl
  · refine mem_preorder _ _ (V := f.Sees t) ?_ ?_ u h
    · intro x hx y hy
      exact hx.tail hy
    · intro x hx
      exact .single hx

theorem mem_children_of_child? {child : Nat} (h : (f.scope r).child? segment = some child) :
    (segment, child) ∈ (f.scope r).children := by
  obtain ⟨before, after, heq, -⟩ := List.lookup_eq_some_iff.1 h
  rw [heq]
  exact List.mem_append_right _ List.mem_cons_self

theorem not_mem_of_child?_eq_none (h : (f.scope r).child? segment = none) :
    segment ∉ (f.scope r).children.map Prod.fst := by
  intro hmem
  obtain ⟨c, hc, rfl⟩ := List.mem_map.1 hmem
  have hne := List.lookup_eq_none_iff.1 h c hc
  simp at hne

namespace WellFormed

theorem child?_of_mem (h : f.WellFormed) {child : Nat}
    (hmem : (segment, child) ∈ (f.scope r).children) :
    (f.scope r).child? segment = some child := by
  obtain ⟨before, after, heq⟩ := List.append_of_mem hmem
  have hnames := h.names r
  rw [heq, List.map_append, List.map_cons] at hnames
  refine List.lookup_eq_some_iff.2 ⟨before, after, heq, fun c hc ↦ ?_⟩
  have hne := (List.nodup_append.1 hnames).2.2 c.1 (List.mem_map_of_mem hc) segment
    List.mem_cons_self
  simpa using Ne.symm hne

/-- The last step of a path. -/
theorem exists_of_walk_concat (h : f.walk t (p ++ [segment]) = some r) :
    ∃ x, f.walk t p = some x ∧ x.tree = r.tree ∧
      (segment, r.scope) ∈ (f.scope ⟨r.tree, x.scope⟩).children := by
  rw [walk_concat] at h
  obtain ⟨x, hx, hchild⟩ := Option.bind_eq_some_iff.1 h
  obtain ⟨child, hlookup, rfl⟩ := Option.map_eq_some_iff.1 hchild
  exact ⟨x, hx, rfl, mem_children_of_child? hlookup⟩

theorem has_of_walk (h : f.WellFormed) (ht : t < f.trees.size) (hp : f.walk t p = some r) :
    f.Has r := by
  induction p using List.reverseRecOn with
  | nil =>
    rw [← Option.some.inj hp]
    exact h.root t ht
  | append_singleton p segment ih =>
    obtain ⟨x, -, -, hchild⟩ := exists_of_walk_concat hp
    exact (h.child _ _ hchild).2

/-- No two paths lead to one scope. -/
theorem eq_of_walk (h : f.WellFormed) (hp : f.walk t p = some r) (hq : f.walk t q = some r) :
    p = q := by
  induction p using List.reverseRecOn generalizing q r with
  | nil =>
    have hroot := Option.some.inj hp
    induction q using List.reverseRecOn with
    | nil => rfl
    | append_singleton q segment ih =>
      obtain ⟨x, -, -, hchild⟩ := exists_of_walk_concat hq
      have hlt := (h.child _ _ hchild).1
      rw [← hroot] at hlt
      exact (Nat.not_lt_zero _ hlt).elim
  | append_singleton p segment ih =>
    obtain ⟨x, hx, hxtree, hchild⟩ := exists_of_walk_concat hp
    obtain ⟨hlt, hhas⟩ := h.child _ _ hchild
    induction q using List.reverseRecOn with
    | nil =>
      rw [← Option.some.inj hq] at hlt
      exact (Nat.not_lt_zero _ hlt).elim
    | append_singleton q other _ =>
      obtain ⟨y, hy, hytree, hchild'⟩ := exists_of_walk_concat hq
      have hinner : r.scope ≠ 0 := Nat.ne_of_gt (Nat.zero_lt_of_lt hlt)
      have heq : (x.scope, segment) = (y.scope, other) :=
        (h.parent r hhas hinner).unique hchild hchild'
      obtain ⟨hscope, rfl⟩ := Prod.mk.inj heq
      have hxy : x = y := by
        cases x
        cases y
        simp_all
      rw [ih hx (hxy ▸ hy)]

/-- Every scope sits at a path. -/
theorem exists_walk (h : f.WellFormed) (hr : f.Has r) : ∃ p, f.walk r.tree p = some r := by
  obtain ⟨t, s⟩ := r
  induction s using Nat.strongRecOn with
  | ind s ih =>
    by_cases hs : s = 0
    · subst hs
      exact ⟨[], rfl⟩
    · obtain ⟨⟨parent, segment⟩, hmem, -⟩ := h.parent ⟨t, s⟩ hr hs
      have hparent : f.Has ⟨t, parent⟩ := by
        by_contra hnot
        dsimp only at hmem
        rw [f.scope_of_not_has hnot] at hmem
        exact List.not_mem_nil hmem
      obtain ⟨p, hp⟩ := ih parent (h.child _ _ hmem).1 hparent
      refine ⟨p ++ [segment], ?_⟩
      rw [walk_concat, hp, Option.bind_some, h.child?_of_mem hmem]
      rfl

theorem existsUnique_walk (h : f.WellFormed) (hr : f.Has r) :
    ∃! p, f.walk r.tree p = some r := by
  obtain ⟨p, hp⟩ := h.exists_walk hr
  exact ⟨p, hp, fun q hq ↦ h.eq_of_walk hq hp⟩

end WellFormed

/-- The forests have the same scopes at the same paths, with the same definitions. -/
structure SameShape (f g : Forest) : Prop where
  files : f.SameFiles g
  has : ∀ x, g.Has x ↔ f.Has x
  children : ∀ x, (g.scope x).children = (f.scope x).children
  definition : ∀ x, g.definition x = f.definition x

theorem SameShape.refl (f : Forest) : f.SameShape f :=
  ⟨.refl f, fun _ ↦ .rfl, fun _ ↦ rfl, fun _ ↦ rfl⟩

theorem SameShape.trans {k : Forest} (hfg : f.SameShape g) (hgk : g.SameShape k) :
    f.SameShape k where
  files := hfg.files.trans hgk.files
  has x := (hgk.has x).trans (hfg.has x)
  children x := (hgk.children x).trans (hfg.children x)
  definition x := (hgk.definition x).trans (hfg.definition x)

theorem sameShape_modifyScope (f : Forest) (r : ScopeRef) {change : Scope → Scope}
    (hlocal : Scope.Local change) (hchildren : Scope.KeepsChildren change) :
    f.SameShape (f.modifyScope r change) where
  files := sameFiles_modifyScope f r change
  has _ := has_modifyScope change
  children := field_modifyScope hchildren f r
  definition := field_modifyScope hlocal.definition_eq f r

theorem sameShape_record (f : Forest) (findings : Findings) : f.SameShape (f.record findings) := by
  rw [record_eq]
  refine ⟨sameFiles_mapAliases _, fun x ↦ ?_, fun x ↦ ?_, fun x ↦ ?_⟩
  · rw [Has, size_scopes_mapAliases, Has]
  · rw [scope_mapAliases, Scope.mapAliases]
  · rw [Forest.definition, scope_mapAliases, Scope.mapAliases, Forest.definition]

theorem sameShape_qualify (f : Forest) (t : Nat) (here : Name) (count : Nat)
    (segments : List String) (declaration : Bool) :
    f.SameShape (f.qualify t here count segments declaration).2 := by
  unfold qualify
  exact f.sameShape_record _

theorem settleQualification_fst (f : Forest) (d : ScopeRef) (text : String) :
    (f.settleQualification d text).1 = (f.scope d).qualification.getD text := by
  unfold settleQualification
  cases (f.scope d).qualification with
  | some settled => rfl
  | none => rfl

theorem sameShape_settleQualification (f : Forest) (r : ScopeRef) (text : String) :
    f.SameShape (f.settleQualification r text).2 := by
  unfold settleQualification
  split
  · exact .refl f
  · exact f.sameShape_modifyScope r (fun _ _ ↦ rfl) fun _ ↦ rfl

theorem sameShape_complainOnce (f : Forest) (r : ScopeRef) :
    f.SameShape (f.complainOnce r).2 :=
  f.sameShape_modifyScope r (fun _ _ ↦ rfl) fun _ ↦ rfl

/-- One of the changes by which a call is answered. -/
inductive Touches : Forest → Forest → Prop
  | record (f : Forest) (findings : Findings) : Touches f (f.record findings)
  | settle (f : Forest) (r : ScopeRef) (text : String) :
      Touches f (f.settleQualification r text).2
  | complain (f : Forest) (r : ScopeRef) : Touches f (f.complainOnce r).2

theorem touches_unqualifiedContext (f : Forest) (t : Nat) (place : Name) :
    Relation.ReflTransGen Touches f (f.unqualifiedContext t place).2 := by
  unfold unqualifiedContext
  split
  · exact .single (.settle f _ _)
  · split
    · exact .refl
    · exact .single (.complain f _)

theorem touches_qualifiedContext (f : Forest) (t : Nat) (place : Name) (written : String) :
    Relation.ReflTransGen Touches f (f.qualifiedContext t place written).2 := by
  have hqualify : Touches f
      (f.qualify t place place.length (Name.ofWritten written).segments false).2 := .record f _
  unfold qualifiedContext qualifyWritten
  generalize f.qualify t place place.length (Name.ofWritten written).segments false = outcome
    at hqualify
  obtain ⟨outcome, g⟩ := outcome
  cases outcome with
  | error rest => exact .single hqualify
  | ok owner =>
    dsimp only
    cases g.findName? t owner with
    | none => exact .single hqualify
    | some r =>
      have hsettle := Relation.ReflTransGen.tail (.single hqualify)
        (Touches.settle g (g.definition r) owner.render)
      dsimp only
      split
      · exact hsettle
      · exact hsettle.tail (.complain _ (g.definition r))

theorem sameShape_of_touches (h : Relation.ReflTransGen Touches f g) : f.SameShape g := by
  induction h with
  | refl => exact .refl f
  | tail _ htouches ih =>
    apply ih.trans
    cases htouches with
    | record findings => exact sameShape_record _ findings
    | settle r text => exact sameShape_settleQualification _ r text
    | complain r => exact sameShape_complainOnce _ r

theorem sameShape_unqualifiedContext (f : Forest) (t : Nat) (place : Name) :
    f.SameShape (f.unqualifiedContext t place).2 :=
  sameShape_of_touches (f.touches_unqualifiedContext t place)

theorem sameShape_qualifiedContext (f : Forest) (t : Nat) (place : Name) (written : String) :
    f.SameShape (f.qualifiedContext t place written).2 :=
  sameShape_of_touches (f.touches_qualifiedContext t place written)

theorem SameFiles.included_eq (h : f.SameFiles g) (t : Nat) : g.included t = f.included t := by
  rw [included, h.includes, included]

theorem SameFiles.sees (h : f.SameFiles g) (hsees : f.Sees t u) : g.Sees t u := by
  apply sees_of_included _ hsees
  intro t
  rw [h.included_eq]
  exact List.Subset.refl _

theorem WellFormed.congr (h : f.WellFormed) (hshape : f.SameShape g) : g.WellFormed := by
  have hwalk : ∀ t p, g.walk t p = f.walk t p :=
    fun t p ↦ walk_congr (fun x _ ↦ hshape.children x) p
  refine ⟨fun t ht ↦ ?_, fun r c hc ↦ ?_, fun r hr hne ↦ ?_, fun r ↦ ?_, fun t u hu ↦ ?_,
    fun t p r hp ↦ ?_⟩
  · rw [hshape.has]
    exact h.root t (hshape.files.size ▸ ht)
  · rw [hshape.children] at hc
    rw [hshape.has]
    exact h.child r c hc
  · simp only [hshape.children]
    exact h.parent r ((hshape.has r).1 hr) hne
  · rw [hshape.children]
    exact h.names r
  · rw [hshape.files.included_eq] at hu
    rw [hshape.files.size]
    exact h.includes t u hu
  · rw [hwalk] at hp
    obtain ⟨hsees, hat, hself⟩ := h.definition t p r hp
    rw [hshape.definition]
    exact ⟨hshape.files.sees hsees, (hwalk _ _).trans hat, (hshape.definition _).trans hself⟩

/-! ### New scopes -/

/-- The forest and the scope that come of opening a path in the tree `t`. If `share` holds, the scope
has the definition of what was found at the path, or defines itself. -/
structure Opens (f : Forest) (t : Nat) (path : List String) (share : Bool)
    (opened : Forest × ScopeRef) : Prop where
  formed : opened.1.WellFormed
  files : f.SameFiles opened.1
  walk : opened.1.walk t path = some opened.2
  others : ∀ u ≠ t, opened.1.tree u = f.tree u
  definition : share →
    opened.1.definition opened.2 = ((f.find? t path).map f.definition).getD opened.2

namespace WellFormed

section AddChild

variable {definition : Option ScopeRef}

theorem walk_of_addChild (h : f.WellFormed) (ht : t < f.trees.size) (hq : f.walk t q = some r)
    (hchild : (f.scope r).child? segment = none) (definition : Option ScopeRef) (u : Nat)
    (p : List String) :
    (f.addChild r segment definition).1.walk u p =
      if u = t ∧ p = q ++ [segment] then some (f.fresh t) else f.walk u p := by
  by_cases hu : u = t
  · subst hu
    have hnew := walk_addChild hq (fun p hp ↦ h.eq_of_walk hp hq) (fun p x hp ↦ h.has_of_walk ht hp)
      hchild definition p
    simpa using hnew
  · rw [if_neg fun heq ↦ hu heq.1]
    apply walk_congr
    intro x hx
    have hne : x.tree ≠ r.tree := by
      rw [hx, tree_of_walk hq]
      exact hu
    rw [scope, tree_addChild_of_ne hne, ← scope]

/-- Among the scopes that there were, the children are the old ones. -/
theorem mem_children_addChild (hr : f.Has r) {c : String × Nat}
    (hc : ⟨x.tree, c.2⟩ ≠ f.fresh r.tree) :
    c ∈ ((f.addChild r segment definition).1.scope x).children ↔ c ∈ (f.scope x).children := by
  rw [scope_addChild hr]
  by_cases hfresh : x = f.fresh r.tree
  · rw [if_pos hfresh, hfresh, f.scope_of_not_has (f.not_has_fresh r.tree)]
  · rw [if_neg hfresh]
    by_cases hx : x = r
    · subst hx
      rw [if_pos rfl, List.mem_append, List.mem_singleton]
      refine ⟨fun hmem ↦ hmem.resolve_right ?_, .inl⟩
      rintro rfl
      exact hc rfl
    · rw [if_neg hx]

theorem child_addChild (h : f.WellFormed) (hr : f.Has r) {c : String × Nat}
    (hc : c ∈ ((f.addChild r segment definition).1.scope x).children) :
    x.scope < c.2 ∧ (f.addChild r segment definition).1.Has ⟨x.tree, c.2⟩ := by
  rw [has_addChild hr]
  by_cases hnew : ⟨x.tree, c.2⟩ = f.fresh r.tree
  · -- Only the parent of the new scope can have it.
    rw [scope_addChild hr] at hc
    split_ifs at hc with hfresh hx
    · exact (List.not_mem_nil hc).elim
    · subst hx
      rw [hnew, show c.2 = (f.fresh x.tree).scope from congrArg ScopeRef.scope hnew]
      exact ⟨hr, .inr rfl⟩
    · obtain ⟨hlt, hhas⟩ := h.child x c hc
      exact ⟨hlt, .inl hhas⟩
  · rw [mem_children_addChild hr hnew] at hc
    obtain ⟨hlt, hhas⟩ := h.child x c hc
    exact ⟨hlt, .inl hhas⟩

theorem parent_addChild (h : f.WellFormed) (hr : f.Has r)
    (hx : (f.addChild r segment definition).1.Has x) (hne : x.scope ≠ 0) :
    ∃! c : Nat × String,
      (c.2, x.scope) ∈ ((f.addChild r segment definition).1.scope ⟨x.tree, c.1⟩).children := by
  by_cases hfresh : x = f.fresh r.tree
  · subst hfresh
    refine ⟨(r.scope, segment), ?_, ?_⟩
    · dsimp only [fresh]
      rw [scope_addChild hr, if_neg hr.ne_fresh, if_pos rfl]
      exact List.mem_append_right _ (List.mem_singleton_self _)
    · intro c hc
      rw [scope_addChild hr] at hc
      split_ifs at hc with hself hparent
      · exact (List.not_mem_nil hc).elim
      · rcases List.mem_append.1 hc with hc | hc
        · exact (f.not_has_fresh r.tree (h.child _ _ hc).2).elim
        · rw [← hparent, ← (Prod.mk.inj (List.mem_singleton.1 hc)).1]
      · exact (f.not_has_fresh r.tree (h.child _ _ hc).2).elim
  · have hold : f.Has x := ((has_addChild hr).1 hx).resolve_right hfresh
    have hsame : ∀ c : Nat × String,
        (c.2, x.scope) ∈ ((f.addChild r segment definition).1.scope ⟨x.tree, c.1⟩).children ↔
          (c.2, x.scope) ∈ (f.scope ⟨x.tree, c.1⟩).children :=
      fun c ↦ mem_children_addChild hr hfresh
    simp only [hsame]
    exact h.parent x hold hne

theorem names_addChild (h : f.WellFormed) (hr : f.Has r)
    (hchild : (f.scope r).child? segment = none) (x : ScopeRef) :
    (((f.addChild r segment definition).1.scope x).children.map Prod.fst).Nodup := by
  rw [scope_addChild hr]
  split_ifs with hfresh hx
  · exact .nil
  · rw [List.map_append, List.map_singleton]
    refine List.nodup_append.2 ⟨h.names r, List.pairwise_singleton _ _, ?_⟩
    rintro name hname _ hsegment rfl
    rw [List.mem_singleton.1 hsegment] at hname
    exact not_mem_of_child?_eq_none hchild hname
  · exact h.names x

theorem definition_addChild_of_ne (hr : f.Has r) (hx : x ≠ f.fresh r.tree) :
    (f.addChild r segment definition).1.definition x = f.definition x := by
  rw [Forest.definition, scope_addChild hr, if_neg hx]
  split_ifs with hxr
  · rw [hxr, Forest.definition]
  · rfl

theorem defines_addChild (h : f.WellFormed) (ht : t < f.trees.size) (hq : f.walk t q = some r)
    (hchild : (f.scope r).child? segment = none) {d : ScopeRef} (hd : f.Defines u p d) :
    (f.addChild r segment definition).1.Defines u p d := by
  have hne : d ≠ f.fresh r.tree := by
    rintro rfl
    apply f.not_has_fresh r.tree
    exact h.has_of_walk (tree_of_walk hq ▸ ht) hd.walk
  refine ⟨(sameFiles_addChild f r segment definition).sees hd.sees, ?_, ?_⟩
  · rw [h.walk_of_addChild ht hq hchild, if_neg _, hd.walk]
    rintro ⟨htree, rfl⟩
    have hwalk := hd.walk
    rw [htree, walk_concat, hq, Option.bind_some, hchild] at hwalk
    cases hwalk
  · rw [definition_addChild_of_ne (h.has_of_walk ht hq) hne, hd.self]

theorem definition_addChild (h : f.WellFormed) (ht : t < f.trees.size) (hq : f.walk t q = some r)
    (hchild : (f.scope r).child? segment = none)
    (hdefines : ∀ d ∈ definition, f.Defines t (q ++ [segment]) d)
    (hp : (f.addChild r segment definition).1.walk u p = some x) :
    (f.addChild r segment definition).1.Defines u p
      ((f.addChild r segment definition).1.definition x) := by
  have hr := h.has_of_walk ht hq
  have hwalk := h.walk_of_addChild ht hq hchild definition u p
  rw [hp] at hwalk
  split_ifs at hwalk with hnew
  · obtain ⟨rfl, rfl⟩ := hnew
    obtain rfl := Option.some.inj hwalk
    have hdefinition : (f.addChild r segment definition).1.definition (f.fresh u) =
        definition.getD (f.fresh u) := by
      rw [Forest.definition, scope_addChild hr, tree_of_walk hq, if_pos rfl]
    rw [hdefinition]
    cases definition with
    | none => exact ⟨.refl, hp, hdefinition⟩
    | some d => exact h.defines_addChild ht hq hchild (hdefines d rfl)
  · have hne : x ≠ f.fresh r.tree := by
      rintro rfl
      apply f.not_has_fresh r.tree
      have htree := tree_of_walk hwalk.symm
      rw [← htree] at hwalk
      exact h.has_of_walk (tree_of_walk hq ▸ ht) hwalk.symm
    rw [definition_addChild_of_ne hr hne]
    exact h.defines_addChild ht hq hchild (h.definition u p x hwalk.symm)

theorem addChild (h : f.WellFormed) (ht : t < f.trees.size) (hq : f.walk t q = some r)
    (hchild : (f.scope r).child? segment = none)
    (hdefines : ∀ d ∈ definition, f.Defines t (q ++ [segment]) d) :
    (f.addChild r segment definition).1.WellFormed := by
  have hr := h.has_of_walk ht hq
  have hfiles := sameFiles_addChild f r segment definition
  refine ⟨fun t ht ↦ ?_, fun x c hc ↦ h.child_addChild hr hc, fun x hx hne ↦ ?_,
    h.names_addChild hr hchild, fun t u hu ↦ ?_, fun u p x hp ↦ ?_⟩
  · rw [hfiles.size] at ht
    exact (has_addChild hr).2 (.inl (h.root t ht))
  · exact h.parent_addChild hr hx hne
  · rw [hfiles.included_eq] at hu
    rw [hfiles.size]
    exact h.includes t u hu
  · exact h.definition_addChild ht hq hchild hdefines hp

theorem definition_fresh (hr : f.Has r) :
    (f.addChild r segment definition).1.definition (f.fresh r.tree) =
      definition.getD (f.fresh r.tree) := by
  rw [Forest.definition, scope_addChild hr, if_pos rfl]

theorem find?_addChild (h : f.WellFormed) (ht : t < f.trees.size) (hq : f.walk t q = some r)
    (hchild : (f.scope r).child? segment = none) (definition : Option ScopeRef) {p : List String}
    (hp : p ≠ q ++ [segment]) : (f.addChild r segment definition).1.find? t p = f.find? t p := by
  rw [find?, (sameFiles_addChild f r segment definition).order_eq, find?]
  apply findSome?_walk_congr
  intro u _
  rw [h.walk_of_addChild ht hq hchild, if_neg fun heq ↦ hp heq.2]

/-- The new scope is found only at its own path. -/
theorem ne_fresh_of_find? (h : f.WellFormed) (ht : t < f.trees.size) {p : List String}
    {x : ScopeRef} (hx : f.find? t p = some x) : x ≠ f.fresh t := by
  obtain ⟨u, -, hwalk⟩ := List.exists_of_findSome?_eq_some hx
  rintro rfl
  obtain rfl : t = u := tree_of_walk hwalk
  exact f.not_has_fresh t (h.has_of_walk ht hwalk)

/-- Elsewhere, the same definitions can be shared. -/
theorem definition_find?_addChild (h : f.WellFormed) (ht : t < f.trees.size)
    (hq : f.walk t q = some r) (hchild : (f.scope r).child? segment = none)
    (definition : Option ScopeRef) {p : List String} (hp : p ≠ q ++ [segment]) :
    let g := (f.addChild r segment definition).1
    (g.find? t p).map g.definition = (f.find? t p).map f.definition := by
  intro g
  rw [h.find?_addChild ht hq hchild definition hp]
  cases hx : f.find? t p with
  | none => rfl
  | some x =>
    have hne : x ≠ f.fresh r.tree := by
      rw [tree_of_walk hq]
      exact h.ne_fresh_of_find? ht hx
    rw [Option.map_some, Option.map_some, definition_addChild_of_ne (h.has_of_walk ht hq) hne]

end AddChild

/-- What is found at a path has a definition that can be shared. -/
theorem defines_of_find? (h : f.WellFormed) (hr : f.find? t p = some r) :
    f.Defines t p (f.definition r) := by
  obtain ⟨u, hu, hwalk⟩ := List.exists_of_findSome?_eq_some hr
  obtain ⟨hsees, hat, hself⟩ := h.definition u p r hwalk
  exact ⟨(sees_of_mem_order hu).trans hsees, hat, hself⟩

/-- Opening the scopes along a path, from the scope at its beginning `q` on. -/
theorem openFrom (h : f.WellFormed) (ht : t < f.trees.size) (first : String) (share : Bool)
    {rest : List String} (hq : f.walk t q = some r) :
    f.Opens t (q ++ rest) share
      (f.openFrom t ⟨first :: (q ++ rest)⟩ share r (q.length + 1) rest) := by
  induction rest generalizing f q r with
  | nil =>
    rw [List.append_nil, Forest.openFrom]
    refine ⟨h, .refl f, hq, fun _ _ ↦ rfl, fun _ ↦ ?_⟩
    rw [find?_of_walk hq]
    rfl
  | cons segment rest ih =>
    have hpath : q ++ segment :: rest = q ++ [segment] ++ rest := by simp
    have hlength : q.length + 1 + 1 = (q ++ [segment]).length + 1 := by simp
    rw [Forest.openFrom, hpath, hlength]
    cases hchild : (f.scope r).child? segment with
    | some child =>
      apply ih h ht
      rw [walk_concat, hq, Option.bind_some, hchild]
      rfl
    | none =>
      dsimp only
      rw [Name.below_of_append]
      have hdefines : ∀ d ∈ (if share || !rest.isEmpty then
          (f.find? t (q ++ [segment])).map f.definition else none),
          f.Defines t (q ++ [segment]) d := by
        intro d hd
        split_ifs at hd
        · obtain ⟨x, hx, rfl⟩ := Option.map_eq_some_iff.1 hd
          exact h.defines_of_find? hx
        · cases hd
      have hshare : share → (if share || !rest.isEmpty then
          (f.find? t (q ++ [segment])).map f.definition else none) =
            (f.find? t (q ++ [segment])).map f.definition := by
        intro hshare
        rw [hshare, Bool.true_or, if_pos rfl]
      generalize (if share || !rest.isEmpty then
        (f.find? t (q ++ [segment])).map f.definition else none) = definition at hdefines hshare ⊢
      have htree : r.tree = t := tree_of_walk hq
      have hfiles := sameFiles_addChild f r segment definition
      have hwalk := h.walk_of_addChild ht hq hchild definition t (q ++ [segment])
      rw [if_pos ⟨rfl, rfl⟩] at hwalk
      have hothers : ∀ u ≠ t, (f.addChild r segment definition).1.tree u = f.tree u :=
        fun u hu ↦ tree_addChild_of_ne (htree.symm ▸ hu)
      have hformed := h.addChild ht hq hchild hdefines
      rw [addChild_snd, htree]
      cases rest with
      | nil =>
        rw [List.append_nil, Forest.openFrom]
        refine ⟨hformed, hfiles, hwalk, hothers, fun hshared ↦ ?_⟩
        rw [← hshare hshared, ← htree]
        exact definition_fresh (h.has_of_walk ht hq)
      | cons next rest =>
        obtain ⟨hformed', hfiles', hwalk', hothers', hdefinition⟩ :=
          ih hformed (hfiles.size ▸ ht) hwalk
        refine ⟨hformed', hfiles.trans hfiles', hwalk',
          fun u hu ↦ (hothers' u hu).trans (hothers u hu), fun hshared ↦ ?_⟩
        rw [hdefinition hshared, h.definition_find?_addChild ht hq hchild]
        simp

theorem opens_openScope (h : f.WellFormed) (ht : t < f.trees.size) (place : Name) (share : Bool) :
    f.Opens t (place.below place.length) share (f.openScope t place share) := by
  obtain ⟨segments⟩ := place
  cases segments with
  | nil => exact h.openFrom ht "" share (walk_nil f t)
  | cons first rest =>
    have hbelow : Name.below ⟨first :: rest⟩ (Name.length ⟨first :: rest⟩) = rest := by
      simp [Name.below, Name.length]
    rw [hbelow]
    exact h.openFrom ht first share (walk_nil f t)

theorem openScope (h : f.WellFormed) (ht : t < f.trees.size) (place : Name) (share : Bool) :
    (f.openScope t place share).1.WellFormed ∧ f.SameFiles (f.openScope t place share).1 :=
  have hopens := h.opens_openScope ht place share
  ⟨hopens.formed, hopens.files⟩

theorem enter (h : f.WellFormed) (ht : t < f.trees.size) (place : Name) :
    (f.enter t place).WellFormed ∧ f.SameFiles (f.enter t place) := by
  unfold Forest.enter
  split
  · exact ⟨h, .refl f⟩
  · exact h.openScope ht place false

theorem modifyAt (h : f.WellFormed) (ht : t < f.trees.size) (place : Name) {change : Scope → Scope}
    (hlocal : Scope.Local change) (hchildren : Scope.KeepsChildren change) :
    (f.modifyAt t place change).WellFormed ∧ f.SameFiles (f.modifyAt t place change) := by
  obtain ⟨hopened, hfiles⟩ := h.openScope ht place true
  unfold Forest.modifyAt
  have hshape := sameShape_modifyScope (f.openScope t place true).1 (f.openScope t place true).2
    hlocal hchildren
  exact ⟨hopened.congr hshape, hfiles.trans hshape.files⟩

/-! ### Files -/

theorem empty : WellFormed {} := by
  have hchildren : ∀ r, ((({} : Forest).scope r).children) = [] := fun _ ↦ rfl
  refine ⟨fun t ht ↦ (Nat.not_lt_zero _ ht).elim, fun r c hc ↦ (List.not_mem_nil hc).elim,
    fun r hr ↦ (Nat.not_lt_zero _ hr.tree_lt).elim, fun r ↦ .nil,
    fun t u hu ↦ (List.not_mem_nil hu).elim, fun t p r hp ↦ ?_⟩
  induction p using List.reverseRecOn with
  | nil =>
    obtain rfl := Option.some.inj hp
    exact ⟨.refl, rfl, rfl⟩
  | append_singleton p segment ih =>
    obtain ⟨x, -, -, hchild⟩ := exists_of_walk_concat hp
    exact (List.not_mem_nil hchild).elim

end WellFormed

/-- A tree that is not there yet looks as if it were planted. -/
theorem scope_plant (f : Forest) (id : Nat) (x : ScopeRef) : (f.plant id).scope x = f.scope x := by
  by_cases hx : x.tree = f.trees.size
  · obtain ⟨_, s⟩ := x
    obtain rfl := hx
    rw [scope, tree_plant, scope, tree_of_size_le (Nat.le_refl _)]
    cases s <;> rfl
  · rw [scope, tree_plant_of_ne f id hx, scope]

theorem included_plant (f : Forest) (id t : Nat) : (f.plant id).included t = f.included t := by
  by_cases ht : t = f.trees.size
  · rw [included, ht, tree_plant, included, tree_of_size_le (Nat.le_refl _)]
  · rw [included, tree_plant_of_ne f id ht, included]

theorem has_plant {id : Nat} : (f.plant id).Has x ↔ f.Has x ∨ x = ⟨f.trees.size, 0⟩ := by
  obtain ⟨t, s⟩ := x
  by_cases ht : t = f.trees.size
  · subst ht
    simp [Has, tree_plant, tree_of_size_le]
  · simp [Has, tree_plant_of_ne f id ht, ht]

theorem subset_included_addInclude (ht : t < f.trees.size) (u : Nat) (v : Nat) :
    f.included v ⊆ (f.addInclude t u).included v := by
  rw [included, included, tree_addInclude ht]
  split_ifs with hv
  · rw [hv]
    exact List.map_subset _ (subset_insertAbsent _ _ _)
  · exact List.Subset.refl _

theorem subset_included_addIncludes (ht : t < f.trees.size) (us : List Nat) (v : Nat) :
    f.included v ⊆ (us.foldl (fun f u ↦ f.addInclude t u) f).included v := by
  induction us generalizing f with
  | nil => exact List.Subset.refl _
  | cons u us ih =>
    have hrest := ih (f := f.addInclude t u) (f.size_addInclude t u ▸ ht)
    exact List.Subset.trans (subset_included_addInclude ht u v) hrest

namespace WellFormed

theorem plant (h : f.WellFormed) (id : Nat) : (f.plant id).WellFormed := by
  have hwalk : ∀ t p, (f.plant id).walk t p = f.walk t p :=
    fun t p ↦ walk_congr (fun x _ ↦ by rw [scope_plant]) p
  have hdefinition : ∀ x, (f.plant id).definition x = f.definition x := by
    intro x
    rw [Forest.definition, scope_plant, Forest.definition]
  have hsize : (f.plant id).trees.size = f.trees.size + 1 := Array.size_push _
  refine ⟨fun t ht ↦ has_plant.2 ?_, fun r c hc ↦ ?_, fun r hr hne ↦ ?_, fun r ↦ ?_,
    fun t u hu ↦ ?_, fun t p r hp ↦ ?_⟩
  · rcases Nat.lt_or_eq_of_le (Nat.le_of_lt_succ (hsize ▸ ht)) with ht | rfl
    · exact .inl (h.root t ht)
    · exact .inr rfl
  · rw [scope_plant] at hc
    obtain ⟨hlt, hhas⟩ := h.child r c hc
    exact ⟨hlt, has_plant.2 (.inl hhas)⟩
  · simp only [scope_plant]
    refine h.parent r ((has_plant.1 hr).resolve_right ?_) hne
    rintro rfl
    exact hne rfl
  · rw [scope_plant]
    exact h.names r
  · rw [included_plant] at hu
    rw [hsize]
    exact Nat.lt_succ_of_lt (h.includes t u hu)
  · rw [hwalk] at hp
    obtain ⟨hsees, hat, hself⟩ := h.definition t p r hp
    rw [hdefinition]
    refine ⟨sees_of_included (fun t ↦ ?_) hsees, (hwalk _ _).trans hat,
      (hdefinition _).trans hself⟩
    rw [included_plant]
    exact List.Subset.refl _

theorem addInclude (h : f.WellFormed) (ht : t < f.trees.size) (hu : u < f.trees.size) :
    (f.addInclude t u).WellFormed := by
  have hsize := f.size_addInclude t u
  refine ⟨fun v hv ↦ ?_, fun r c hc ↦ ?_, fun r hr hne ↦ ?_, fun r ↦ ?_, fun v w hw ↦ ?_,
    fun v p r hp ↦ ?_⟩
  · rw [has_addInclude ht]
    exact h.root v (hsize ▸ hv)
  · rw [scope_addInclude ht] at hc
    rw [has_addInclude ht]
    exact h.child r c hc
  · simp only [scope_addInclude ht]
    exact h.parent r ((has_addInclude ht).1 hr) hne
  · rw [scope_addInclude ht]
    exact h.names r
  · rw [hsize]
    rw [included, tree_addInclude ht] at hw
    split_ifs at hw with hv
    · obtain ⟨i, hi, rfl⟩ := List.mem_map.1 hw
      rcases mem_insertAbsent hi with rfl | hi
      · exact hu
      · exact h.includes t _ (List.mem_map_of_mem hi)
    · exact h.includes v w hw
  · rw [walk_addInclude ht] at hp
    obtain ⟨hsees, hat, hself⟩ := h.definition v p r hp
    rw [definition_addInclude ht]
    exact ⟨sees_of_included (subset_included_addInclude ht u) hsees,
      (walk_addInclude ht _ _).trans hat, (definition_addInclude ht _).trans hself⟩

end WellFormed

end Harvest.Forest
