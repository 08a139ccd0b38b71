import Harvest.Proofs.Scope.Growth

/-!
# Changes of aliases

Resolving names changes a forest in its aliases only. Such a change is a map over all aliases, each
with its site. It moves no path, and names are looked for in the same scopes before and after it.
Changing the alias at one site and recording findings are changes of this kind.
-/

namespace Harvest

/-- The alias with what was found about it, unless it is settled. -/
def Alias.learn (a : Alias) (finding : Option (Option Name)) : Alias :=
  { a with resolution := a.resolution.or finding }

def Scope.mapAliases (s : Scope) (change : String → Alias → Alias) : Scope :=
  { s with aliases := s.aliases.map fun p ↦ (p.1, change p.1 p.2) }

theorem Scope.mapAliases_congr {s : Scope} {change change' : String → Alias → Alias}
    (h : ∀ p ∈ s.aliases, change p.1 p.2 = change' p.1 p.2) :
    s.mapAliases change = s.mapAliases change' := by
  have haliases : s.aliases.map (fun p ↦ (p.1, change p.1 p.2)) =
      s.aliases.map fun p ↦ (p.1, change' p.1 p.2) := by
    apply List.map_congr_left
    intro p hp
    rw [h p hp]
  rw [mapAliases, haliases, ← mapAliases]

theorem Scope.mapAliases_id (s : Scope) : (s.mapAliases fun _ a ↦ a) = s := by
  simp [mapAliases]

namespace Forest

/-- Changes every alias of the forest, and nothing else. -/
def mapAliases (f : Forest) (change : AliasSite → Alias → Alias) : Forest :=
  ⟨f.trees.mapIdx fun t tree ↦ { tree with
    scopes := tree.scopes.mapIdx fun s scope ↦
      scope.mapAliases fun name ↦ change ⟨⟨t, s⟩, name⟩ }⟩

/-- No alias is being resolved. -/
def Unguarded (f : Forest) : Prop :=
  ∀ tree ∈ f.trees, ∀ s ∈ tree.scopes, ∀ p ∈ s.aliases, p.2.busy = false

instance (f : Forest) : Decidable f.Unguarded :=
  inferInstanceAs (Decidable (∀ tree ∈ f.trees, ∀ s ∈ tree.scopes, ∀ p ∈ s.aliases, _))

variable {f g : Forest} {r : ScopeRef} {site : AliasSite}
  (change : AliasSite → Alias → Alias)

/-- Two forests with the same files and the same scopes are the same. -/
theorem eq_of_scopes (hfiles : f.SameFiles g)
    (hsize : ∀ t, (g.tree t).scopes.size = (f.tree t).scopes.size)
    (hscope : ∀ r, g.scope r = f.scope r) : g = f := by
  have htree : ∀ t, g.tree t = f.tree t := by
    intro t
    have hscopes : (g.tree t).scopes = (f.tree t).scopes := by
      apply Array.ext (hsize t)
      intro s hg hf
      have heq := hscope ⟨t, s⟩
      simpa [scope, Array.getD_eq_getD_getElem?, hg, hf] using heq
    have hfile := hfiles.fileId t
    have hincludes := hfiles.includes t
    cases hgt : g.tree t
    cases hft : f.tree t
    simp_all
  have htrees : g.trees = f.trees := by
    apply Array.ext hfiles.size
    intro t hg hf
    have heq := htree t
    simpa [tree, Array.getD_eq_getD_getElem?, hg, hf] using heq
  cases g
  cases f
  exact congrArg Forest.mk htrees

theorem tree_mapAliases (t : Nat) :
    (f.mapAliases change).tree t = { f.tree t with
      scopes := (f.tree t).scopes.mapIdx fun s scope ↦
        scope.mapAliases fun name ↦ change ⟨⟨t, s⟩, name⟩ } := by
  by_cases ht : t < f.trees.size
  · simp [tree, mapAliases, Array.getD_eq_getD_getElem?, ht]
  · simp [tree, mapAliases, Array.getD_eq_getD_getElem?, ht]

theorem size_scopes_mapAliases (t : Nat) :
    ((f.mapAliases change).tree t).scopes.size = (f.tree t).scopes.size := by
  rw [tree_mapAliases, Array.size_mapIdx]

theorem scope_mapAliases (r : ScopeRef) :
    (f.mapAliases change).scope r = (f.scope r).mapAliases fun name ↦ change ⟨r, name⟩ := by
  rw [scope, tree_mapAliases, scope]
  by_cases hr : r.scope < (f.tree r.tree).scopes.size
  · simp [Array.getD_eq_getD_getElem?, hr]
  · simp [Array.getD_eq_getD_getElem?, hr, Scope.mapAliases]

theorem sameFiles_mapAliases : f.SameFiles (f.mapAliases change) where
  size := by simp [mapAliases]
  fileId t := by rw [tree_mapAliases]
  includes t := by rw [tree_mapAliases]

theorem aliasAt?_mapAliases (site : AliasSite) :
    (f.mapAliases change).aliasAt? site = (f.aliasAt? site).map (change site) := by
  have hlookup : ∀ aliases : List (String × Alias),
      (aliases.map fun p ↦ (p.1, change ⟨site.scope, p.1⟩ p.2)).lookup site.name =
        (aliases.lookup site.name).map (change site) := by
    intro aliases
    induction aliases with
    | nil => rfl
    | cons p aliases ih =>
      obtain ⟨name, a⟩ := p
      by_cases hname : site.name = name
      · simp [← hname]
      · simp [List.lookup_cons, beq_false_of_ne hname, ih]
  rw [aliasAt?, Scope.alias?, scope_mapAliases]
  exact hlookup _

theorem isSome_alias?_mapAliases (r : ScopeRef) (segment : String) :
    (((f.mapAliases change).scope r).alias? segment).isSome =
      ((f.scope r).alias? segment).isSome := by
  have halias := f.aliasAt?_mapAliases change ⟨r, segment⟩
  rw [aliasAt?, aliasAt?] at halias
  rw [halias, Option.isSome_map]

theorem walk_mapAliases (t : Nat) (path : List String) :
    (f.mapAliases change).walk t path = f.walk t path := by
  apply walk_congr
  intro r _
  rw [scope_mapAliases]
  rfl

theorem order_mapAliases (t : Nat) : (f.mapAliases change).order t = f.order t :=
  (sameFiles_mapAliases change).order_eq t

/-- Only what becomes of the aliases that there are counts. -/
theorem mapAliases_congr {change change' : AliasSite → Alias → Alias}
    (h : ∀ r, ∀ p ∈ (f.scope r).aliases, change ⟨r, p.1⟩ p.2 = change' ⟨r, p.1⟩ p.2) :
    f.mapAliases change = f.mapAliases change' := by
  apply eq_of_scopes ((sameFiles_mapAliases change').symm.trans (sameFiles_mapAliases change))
  · intro t
    rw [size_scopes_mapAliases, size_scopes_mapAliases]
  · intro r
    rw [scope_mapAliases, scope_mapAliases]
    exact Scope.mapAliases_congr (h r)

theorem mapAliases_id : (f.mapAliases fun _ a ↦ a) = f := by
  apply eq_of_scopes (sameFiles_mapAliases _) (size_scopes_mapAliases _)
  intro r
  rw [scope_mapAliases, Scope.mapAliases_id]

theorem mapAliases_mapAliases (change change' : AliasSite → Alias → Alias) :
    (f.mapAliases change).mapAliases change' =
      f.mapAliases fun site a ↦ change' site (change site a) := by
  have hfiles := (sameFiles_mapAliases (f := f) change).trans (sameFiles_mapAliases change')
  apply eq_of_scopes ((sameFiles_mapAliases _).symm.trans hfiles)
  · intro t
    rw [size_scopes_mapAliases, size_scopes_mapAliases, size_scopes_mapAliases]
  · intro r
    simp [scope_mapAliases, Scope.mapAliases]

theorem Has.scope_mem (hr : f.Has r) : f.scope r ∈ (f.tree r.tree).scopes.toList := by
  rw [Has] at hr
  simp [scope, Array.getD_eq_getD_getElem?, hr]

theorem has_of_mem_aliases {p : String × Alias} (h : p ∈ (f.scope r).aliases) : f.Has r := by
  by_contra hr
  rw [f.scope_of_not_has hr] at h
  exact List.not_mem_nil h

theorem unguarded_iff : f.Unguarded ↔ ∀ r, ∀ p ∈ (f.scope r).aliases, p.2.busy = false := by
  constructor
  · intro hfree r p hp
    have hr := has_of_mem_aliases hp
    have htree : f.tree r.tree ∈ f.trees := by
      simp [tree, Array.getD_eq_getD_getElem?, hr.tree_lt]
    exact hfree _ htree _ (Array.mem_toList_iff.1 hr.scope_mem) p hp
  · intro h tree htree s hs p hp
    obtain ⟨t, ht, rfl⟩ := Array.mem_iff_getElem.1 htree
    obtain ⟨i, hi, rfl⟩ := Array.mem_iff_getElem.1 hs
    apply h ⟨t, i⟩
    simpa [scope, Forest.tree, Array.getD_eq_getD_getElem?, ht, hi] using hp

theorem Unguarded.busy {p : String × Alias} (hfree : f.Unguarded) (hp : p ∈ (f.scope r).aliases) :
    p.2.busy = false :=
  unguarded_iff.1 hfree r p hp

theorem modifyAlias_eq (site : AliasSite) (change : Alias → Alias) :
    f.modifyAlias site change =
      f.mapAliases fun other a ↦ if other = site then change a else a := by
  apply eq_of_scopes ((sameFiles_mapAliases _).symm.trans (sameFiles_modifyScope _ _ _))
  · intro t
    rw [size_scopes_mapAliases]
    by_cases ht : t = site.scope.tree
    · rw [ht, scopes_modifyScope, Array.size_modify]
    · rw [tree_modifyScope_of_ne _ ht]
  · intro r
    rw [scope_modifyScope, scope_mapAliases]
    by_cases hr : r = site.scope ∧ f.Has site.scope
    · rw [if_pos hr, hr.1]
      cases site
      simp [Scope.modifyAlias, Scope.mapAliases]
    · rw [if_neg hr]
      conv_lhs => rw [← (f.scope r).mapAliases_id]
      apply Scope.mapAliases_congr
      intro p hp
      have hsite : (⟨r, p.1⟩ : AliasSite) ≠ site := by
        rintro rfl
        exact hr ⟨rfl, has_of_mem_aliases hp⟩
      rw [if_neg hsite]

/-- Recording findings changes aliases only: each takes up what was found about it last. -/
theorem record_eq (f : Forest) (findings : Findings) :
    f.record findings = f.mapAliases fun site a ↦
      match findings.lookup site with
      | none => a
      | some target => a.settle target := by
  induction findings generalizing f with
  | nil => exact mapAliases_id.symm
  | cons p findings ih =>
    obtain ⟨site, target⟩ := p
    have hstep : f.record ((site, target) :: findings) =
        (f.modifyAlias site fun a ↦ a.settle target).record findings := rfl
    rw [hstep, ih, modifyAlias_eq, mapAliases_mapAliases]
    apply mapAliases_congr
    intro r p _
    by_cases hsite : (⟨r, p.1⟩ : AliasSite) = site
    · rw [if_pos hsite, hsite, List.lookup_cons_self]
      -- A second finding about the alias would not change it.
      cases findings.lookup site with
      | none => rfl
      | some target' => simp [Alias.settle]
    · rw [if_neg hsite, List.lookup_cons, beq_false_of_ne hsite]

theorem record_of_unguarded (hfree : f.Unguarded) (findings : Findings) :
    f.record findings = f.mapAliases fun site a ↦ a.learn (findings.lookup site) := by
  rw [record_eq]
  apply mapAliases_congr
  intro r p hp
  cases findings.lookup ⟨r, p.1⟩ with
  | none => simp [Alias.learn]
  | some target => simp [Alias.learn, Alias.settle, hfree.busy hp]

theorem settled?_eq (site : AliasSite) (findings : Findings) :
    f.settled? site findings =
      ((f.aliasAt? site).bind Alias.resolution).or (findings.lookup site) := by
  unfold settled?
  cases (f.aliasAt? site).bind Alias.resolution <;> rfl

theorem resolution_eq_none {findings : Findings} {a : Alias} (ha : f.aliasAt? site = some a)
    (hpending : f.settled? site findings = none) : a.resolution = none := by
  rw [settled?_eq, ha] at hpending
  exact (Option.or_eq_none_iff.1 hpending).1

theorem mem_idleAliases_iff : site ∈ f.idleAliases ↔
    ∃ a, (site.name, a) ∈ (f.scope site.scope).aliases ∧ a.resolution = none ∧ a.busy = false := by
  simp only [idleAliases, List.mem_flatMap, List.mem_range, List.mem_map, List.mem_filter]
  constructor
  · rintro ⟨t, -, s, -, ⟨name, a⟩, ⟨hmem, hidle⟩, rfl⟩
    exact ⟨a, hmem, by simpa using hidle⟩
  · rintro ⟨a, hmem, hresolution, hbusy⟩
    have hhas := has_of_mem_aliases hmem
    exact ⟨site.scope.tree, hhas.tree_lt, site.scope.scope, hhas, (site.name, a),
      ⟨hmem, by simp [hresolution, hbusy]⟩, rfl⟩

theorem mem_aliases_of_aliasAt? {a : Alias} (ha : f.aliasAt? site = some a) :
    (site.name, a) ∈ (f.scope site.scope).aliases := by
  obtain ⟨before, after, heq, -⟩ := List.lookup_eq_some_iff.1 ha
  rw [heq]
  simp

/-- An alias that is not settled may be resolved. -/
theorem mem_idleAliases (hfree : f.Unguarded) (halias : (f.aliasAt? site).isSome)
    {findings : Findings} (hpending : f.settled? site findings = none) : site ∈ f.idleAliases := by
  obtain ⟨a, ha⟩ := Option.isSome_iff_exists.1 halias
  have hmem := mem_aliases_of_aliasAt? ha
  exact mem_idleAliases_iff.2 ⟨a, hmem, resolution_eq_none ha hpending, hfree.busy hmem⟩

/-- Recording findings sets no alias free. -/
theorem mem_idleAliases_of_record {findings : Findings}
    (h : site ∈ (f.record findings).idleAliases) : site ∈ f.idleAliases := by
  obtain ⟨r, name⟩ := site
  obtain ⟨a, hmem, hresolution, hbusy⟩ := mem_idleAliases_iff.1 h
  rw [record_eq, scope_mapAliases] at hmem
  obtain ⟨⟨_, b⟩, hb, heq⟩ := List.mem_map.1 hmem
  obtain ⟨rfl, hchange⟩ := Prod.mk.inj heq
  dsimp only at hchange
  refine mem_idleAliases_iff.2 ⟨b, hb, ?_⟩
  split at hchange
  · rw [hchange]
    exact ⟨hresolution, hbusy⟩
  · rw [← hchange, Alias.settle] at hresolution
    simp at hresolution

end Forest

namespace Qualify

variable {f : Forest} {trees : List Nat} {m : Type → Type} [Monad m]
  (change : AliasSite → Alias → Alias)

/-- Every `using` directive of a scope that is looked at is among the keys of the search. -/
theorem mem_allUsings {here n : Name} (hn : n ∈ usingsAt f trees here) : n ∈ allUsings f trees := by
  obtain ⟨r, hr, hn⟩ := List.mem_flatMap.1 hn
  obtain ⟨t, ht, hwalk⟩ := List.mem_filterMap.1 hr
  have hhas : f.Has r := by
    by_contra hhas
    rw [f.scope_of_not_has hhas] at hn
    exact List.not_mem_nil hn
  rw [← Forest.tree_of_walk hwalk] at ht
  exact List.mem_flatMap.2 ⟨r.tree, ht, List.mem_flatMap.2 ⟨f.scope r, hhas.scope_mem, hn⟩⟩

theorem scopesAt_mapAliases (path : List String) :
    (f.mapAliases change).scopesAt trees path = f.scopesAt trees path := by
  unfold Forest.scopesAt
  simp only [Forest.walk_mapAliases]

theorem usingsAt_mapAliases : usingsAt (f.mapAliases change) trees = usingsAt f trees := by
  funext here
  unfold usingsAt
  simp only [scopesAt_mapAliases, Forest.scope_mapAliases, Scope.mapAliases]

theorem allUsings_mapAliases : allUsings (f.mapAliases change) trees = allUsings f trees := by
  have hscopes : ∀ scopes : Array Scope, ∀ c : Nat → String → Alias → Alias,
      (scopes.mapIdx fun s scope ↦ scope.mapAliases (c s)).toList.flatMap Scope.usings =
        scopes.toList.flatMap Scope.usings := by
    intro scopes c
    have hmap : (scopes.mapIdx fun s scope ↦ scope.mapAliases (c s)).toList.map Scope.usings =
        scopes.toList.map Scope.usings := by
      apply List.ext_getElem
      · simp
      · intro i hi hi'
        simp [Scope.mapAliases]
    rw [List.flatMap_def, hmap, ← List.flatMap_def]
  unfold allUsings
  simp only [Forest.tree_mapAliases, hscopes]

theorem usingOrder_mapAliases : usingOrder (f.mapAliases change) trees = usingOrder f trees := by
  funext here
  unfold usingOrder
  rw [usingsAt_mapAliases, allUsings_mapAliases]

theorem own_mapAliases (resolve : Resolver m) :
    own (f.mapAliases change) resolve = own f resolve := by
  funext here segment r
  unfold own
  simp only [Forest.isSome_alias?_mapAliases]
  rw [Forest.scope_mapAliases]
  rfl

/-- Segments are looked for in the same way before and after a change of aliases. -/
theorem one_mapAliases (resolve : Resolver m) :
    one (f.mapAliases change) trees resolve = one f trees resolve := by
  funext here segment
  unfold one ownAt
  simp only [own_mapAliases, scopesAt_mapAliases, usingOrder_mapAliases]

end Qualify

end Harvest
