import Harvest.Proofs.Scope.Formation
import Harvest.Proofs.Scope.Searches

/-!
# The trees of other files

A parser opens scopes in the tree of its own file and changes them. In the trees of other files it
settles aliases that are not settled, and it notes which context belongs to a scope and that a lack
of support was reported. So a scope with settled aliases stays as it is apart from such notes, and
the context that is noted is the one that its path gives anyway. Files that the parser's file does
not see stay entirely as they are.
-/

namespace Harvest

/-- Every alias of the scope is settled. -/
def Scope.Settled (s : Scope) : Prop := ∀ p ∈ s.aliases, p.2.resolution.isSome

/-- The context of calls that belong to a scope which sits at a path. -/
def Scope.contextAt (s : Scope) (path : List String) : String :=
  s.qualification.getD (Name.join path)

/-- What a scope becomes on behalf of other files. -/
structure Scope.Ages (s s' : Scope) : Prop where
  eq : s' = { s with
    aliases := s'.aliases
    qualification := s'.qualification
    complained := s'.complained }
  aliases : s.Settled → s'.aliases = s.aliases

theorem Scope.Ages.refl (s : Scope) : s.Ages s := ⟨rfl, fun _ ↦ rfl⟩

theorem Scope.Ages.settled {s s' : Scope} (h : s.Ages s') (hs : s.Settled) : s'.Settled := by
  rw [Settled, h.aliases hs]
  exact hs

theorem Scope.Ages.trans {s s' s'' : Scope} (h : s.Ages s') (h' : s'.Ages s'') : s.Ages s'' := by
  refine ⟨?_, fun hs ↦ (h'.aliases (h.settled hs)).trans (h.aliases hs)⟩
  rw [h'.eq, h.eq]

/-- The text of a name is the path along its segments. -/
theorem Name.render_eq (n : Name) : n.render = Name.join (n.below n.length) := by
  simp [render, joinFrom, below, length]

namespace Forest

variable {f g k : Forest} {t u : Nat} {r d : ScopeRef} {path : List String}

/-- The tree of a file is in the second forest what it was in the first, apart from what is done to
it on behalf of other files. -/
structure Keeps (f g : Forest) (u : Nat) : Prop where
  includes : (g.tree u).includes = (f.tree u).includes
  ages : ∀ r : ScopeRef, r.tree = u → (f.scope r).Ages (g.scope r)
  context : ∀ path r, f.walk u path = some r →
    (g.scope r).contextAt path = (f.scope r).contextAt path

theorem keeps_of_tree_eq (h : g.tree u = f.tree u) : f.Keeps g u := by
  have hscope : ∀ r : ScopeRef, r.tree = u → g.scope r = f.scope r := by
    intro r hr
    rw [scope, hr, h, scope, hr]
  refine ⟨congrArg ScopeTree.includes h, fun r hr ↦ ?_, fun path r hr ↦ ?_⟩
  · rw [hscope r hr]
    exact .refl _
  · rw [hscope r (tree_of_walk hr)]

namespace Keeps

theorem refl (f : Forest) (u : Nat) : f.Keeps f u := keeps_of_tree_eq rfl

theorem walk (h : f.Keeps g u) (path : List String) : g.walk u path = f.walk u path := by
  apply walk_congr
  intro r hr
  rw [(h.ages r hr).eq]

theorem included (h : f.Keeps g u) : g.included u = f.included u := by
  rw [Forest.included, h.includes, Forest.included]

theorem trans (h : f.Keeps g u) (h' : g.Keeps k u) : f.Keeps k u where
  includes := h'.includes.trans h.includes
  ages r hr := (h.ages r hr).trans (h'.ages r hr)
  context path r hr := by
    rw [h'.context path r ((h.walk path).trans hr), h.context path r hr]

end Keeps

/-- What was done to the forest on behalf of the file `t` spares the other files. -/
structure Spares (f : Forest) (t : Nat) (g : Forest) : Prop where
  files : f.SameFiles g
  keeps : ∀ u ≠ t, f.Keeps g u
  unseen : ∀ u, ¬f.Sees t u → g.tree u = f.tree u

namespace Spares

theorem refl (f : Forest) (t : Nat) : f.Spares t f := ⟨.refl f, fun u _ ↦ .refl f u, fun _ _ ↦ rfl⟩

theorem trans (h : f.Spares t g) (h' : g.Spares t k) : f.Spares t k where
  files := h.files.trans h'.files
  keeps u hu := (h.keeps u hu).trans (h'.keeps u hu)
  unseen u hu := by
    rw [h'.unseen u fun hsees ↦ hu (h.files.symm.sees hsees), h.unseen u hu]

/-- A change inside of the tree `t`. -/
theorem of_others (hfiles : f.SameFiles g) (hothers : ∀ u ≠ t, g.tree u = f.tree u) :
    f.Spares t g := by
  refine ⟨hfiles, fun u hu ↦ keeps_of_tree_eq (hothers u hu), fun u hu ↦ hothers u ?_⟩
  rintro rfl
  exact hu .refl

/-- A change of a scope that its file sees, for which it is enough that it keeps the scope. -/
theorem modifyScope {change : Scope → Scope} (hsees : f.Sees t r.tree)
    (hages : (f.scope r).Ages (change (f.scope r)))
    (hcontext : ∀ path, f.walk r.tree path = some r →
      (change (f.scope r)).contextAt path = (f.scope r).contextAt path) :
    f.Spares t (f.modifyScope r change) := by
  have hfiles := sameFiles_modifyScope f r change
  refine ⟨hfiles, fun u _ ↦ ⟨hfiles.includes u, fun x _ ↦ ?_, fun path x hx ↦ ?_⟩, fun u hu ↦ ?_⟩
  · rw [scope_modifyScope]
    split_ifs with hxr
    · rw [hxr.1]
      exact hages
    · exact .refl _
  · rw [scope_modifyScope]
    split_ifs with hxr
    · obtain ⟨rfl, -⟩ := hxr
      rw [← tree_of_walk hx] at hx
      exact hcontext path hx
    · rfl
  · apply tree_modifyScope_of_ne
    rintro rfl
    exact hu hsees

end Spares

/-- What was found out is about aliases that were not settled, in files that `t` sees. -/
def Finds (f : Forest) (t : Nat) (findings : Findings) : Prop :=
  ∀ p ∈ findings, f.Sees t p.1.scope.tree ∧ (f.aliasAt? p.1).bind Alias.resolution = none

theorem Finds.lookup_eq_none {findings : Findings} (h : f.Finds t findings)
    (hr : (f.scope r).Settled) {p : String × Alias} (hp : p ∈ (f.scope r).aliases) :
    findings.lookup ⟨r, p.1⟩ = none := by
  by_contra hfound
  obtain ⟨target, htarget⟩ := Option.ne_none_iff_exists'.1 hfound
  obtain ⟨before, after, rfl, -⟩ := List.lookup_eq_some_iff.1 htarget
  have hpending := (h (⟨r, p.1⟩, target) (by simp)).2
  -- The alias that is found under the name is settled as well.
  have halias : (f.aliasAt? ⟨r, p.1⟩).isSome := by
    rw [aliasAt?, Scope.alias?, ← Option.ne_none_iff_isSome]
    intro hnone
    have hne := List.lookup_eq_none_iff.1 hnone p hp
    simp at hne
  obtain ⟨a, ha⟩ := Option.isSome_iff_exists.1 halias
  have hsettled := hr _ (mem_aliases_of_aliasAt? ha)
  rw [ha, Option.bind_some] at hpending
  rw [hpending] at hsettled
  cases hsettled

theorem tree_mapAliases_of_id {change : AliasSite → Alias → Alias}
    (h : ∀ s name a, change ⟨⟨u, s⟩, name⟩ a = a) : (f.mapAliases change).tree u = f.tree u := by
  have hscopes : ((f.tree u).scopes.mapIdx fun s scope ↦
      scope.mapAliases fun name ↦ change ⟨⟨u, s⟩, name⟩) = (f.tree u).scopes := by
    apply Array.ext Array.size_mapIdx
    intro s hs hs'
    rw [Array.getElem_mapIdx]
    conv_rhs => rw [← Scope.mapAliases_id (f.tree u).scopes[s]]
    exact Scope.mapAliases_congr fun p _ ↦ h s p.1 p.2
  rw [tree_mapAliases, hscopes]

theorem Finds.spares {findings : Findings} (h : f.Finds t findings) :
    f.Spares t (f.record findings) := by
  have hfiles : f.SameFiles (f.record findings) := by
    rw [record_eq]
    exact sameFiles_mapAliases _
  rw [record_eq] at hfiles ⊢
  refine ⟨hfiles, fun u _ ↦ ⟨hfiles.includes u, fun r _ ↦ ⟨?_, fun hr ↦ ?_⟩, fun path r _ ↦ ?_⟩,
    fun u hu ↦ ?_⟩
  · rw [scope_mapAliases]
    rfl
  · rw [scope_mapAliases, Scope.mapAliases]
    conv_rhs => rw [← List.map_id (f.scope r).aliases]
    apply List.map_congr_left
    intro p hp
    rw [h.lookup_eq_none hr hp]
    rfl
  · rw [scope_mapAliases]
    rfl
  · apply tree_mapAliases_of_id
    intro s name a
    have hnone : findings.lookup ⟨⟨u, s⟩, name⟩ = none := by
      rw [List.lookup_eq_none_iff]
      intro p hp
      rw [bne_iff_ne]
      intro heq
      have hsees := (h p hp).1
      rw [← heq] at hsees
      exact hu hsees
    rw [hnone]

end Forest

namespace Qualify

/-- A search finds out nothing but what is not settled, in the trees that it looks at. -/
def notes (f : Forest) (t : Nat) : Link (StateM Findings) (StateM Findings) where
  Holds x _ := ∀ findings, f.Finds t findings → f.Finds t (x.run findings).2
  pure _ _ h := h
  bind {_ _ x _ _ _} hx hk findings h := hk (x.run findings).1 _ (hx findings h)

theorem notes_target (f : Forest) (t : Nat) (idle : List AliasSite) (here : Name)
    {site : AliasSite} (hsite : site.scope.tree ∈ f.order t) :
    (notes f t).Holds (target f (f.order t) idle here site)
      (target f (f.order t) idle here site) := by
  induction hlength : idle.length using Nat.strongRecOn generalizing idle here site with
  | ind length ih =>
    intro findings h
    rw [run_target]
    cases hsettled : f.settled? site findings with
    | some target => exact h
    | none =>
      by_cases hidle : site ∈ idle
      · rw [if_pos hidle]
        have hshorter : (without site idle).length < length := hlength ▸ length_without_lt hidle
        have hinner := (notes f t).name ((notes f t).one_of_mem (f := f) fun here' site' hsite' _ ↦
          ih _ hshorter (without site idle) here' hsite' rfl) here here.length (f.writtenAt site)
          false findings h
        rw [Forest.settled?_eq, Option.or_eq_none_iff] at hsettled
        exact List.forall_mem_cons.2
          ⟨⟨Forest.sees_of_mem_order hsite, hsettled.1⟩, hinner⟩
      · rw [if_neg hidle]
        exact h

end Qualify

namespace Forest

variable {f g : Forest} {t : Nat} {r d : ScopeRef} {path : List String}

theorem finds_search (f : Forest) (t : Nat) (here : Name) (count : Nat) (segments : List String)
    (declaration : Bool) : f.Finds t (f.search t here count segments declaration).2 :=
  (Qualify.notes f t).name ((Qualify.notes f t).one_of_mem fun here _ hsite _ ↦
    Qualify.notes_target f t f.idleAliases here hsite) here count segments declaration []
    fun _ hp ↦ (List.not_mem_nil hp).elim

theorem spares_qualify (f : Forest) (t : Nat) (here : Name) (count : Nat) (segments : List String)
    (declaration : Bool) : f.Spares t (f.qualify t here count segments declaration).2 := by
  rw [qualify_eq]
  exact (f.finds_search t here count segments declaration).spares

/-- The context that is noted is that of the path. -/
theorem Defines.spares_settle (h : f.WellFormed) (hd : f.Defines t path d) :
    f.Spares t (f.settleQualification d (Name.join path)).2 := by
  unfold settleQualification
  split
  · exact .refl f t
  · rename_i hnone
    refine .modifyScope hd.sees ⟨rfl, fun _ ↦ rfl⟩ fun other hother ↦ ?_
    obtain rfl := h.eq_of_walk hother hd.walk
    rw [Scope.contextAt, Scope.contextAt, hnone]
    rfl

theorem Defines.spares_complain (hd : f.Defines t path d) : f.Spares t (f.complainOnce d).2 :=
  .modifyScope hd.sees ⟨rfl, fun _ ↦ rfl⟩ fun _ _ ↦ rfl

theorem Defines.congr (hd : f.Defines t path d) (hshape : f.SameShape g) : g.Defines t path d where
  sees := hshape.files.sees hd.sees
  walk := (walk_congr (fun x _ ↦ hshape.children x) path).trans hd.walk
  self := (hshape.definition d).trans hd.self

/-- What gives a call its context is the definition of a scope that was found, and the text is the
path at which it was found. -/
theorem exists_of_innermost? {place : Name} {k : Nat} {fresh : List Name} {text : String}
    (h : f.innermost? t place k fresh = some (d, text)) :
    ∃ path r, f.find? t path = some r ∧ d = f.definition r ∧ text = Name.join path := by
  induction k generalizing fresh with
  | zero => cases h
  | succ k ih =>
    rw [innermost?] at h
    split at h
    · exact ih h
    · rename_i r hr
      dsimp only at h
      split at h
      · cases h
        exact ⟨_, r, hr, rfl, rfl⟩
      · split at h
        · rename_i found hfound
          obtain ⟨base, -, hbase⟩ := List.exists_of_findSome?_eq_some hfound
          obtain ⟨definition, hsupporting, rfl⟩ := Option.map_eq_some_iff.1 hbase
          cases h
          unfold supporting? at hsupporting
          split at hsupporting
          · cases hsupporting
          · rename_i x hx
            split_ifs at hsupporting
            cases hsupporting
            exact ⟨_, x, hx, rfl, base.render_eq⟩
        · exact ih h

theorem WellFormed.spares_unqualifiedContext (h : f.WellFormed) (t : Nat) (place : Name) :
    f.Spares t (f.unqualifiedContext t place).2 := by
  unfold unqualifiedContext
  split
  · rename_i definition text hfound
    obtain ⟨path, r, hr, rfl, rfl⟩ := exists_of_innermost? hfound
    exact (h.defines_of_find? hr).spares_settle h
  · split
    · exact .refl f t
    · rename_i r hr
      exact (h.defines_of_find? hr).spares_complain

theorem WellFormed.spares_qualifiedContext (h : f.WellFormed) (t : Nat) (place : Name)
    (written : String) : f.Spares t (f.qualifiedContext t place written).2 := by
  have hspares := f.spares_qualify t place place.length (Name.ofWritten written).segments false
  have hformed := h.congr
    (f.sameShape_qualify t place place.length (Name.ofWritten written).segments false)
  unfold qualifiedContext qualifyWritten
  generalize f.qualify t place place.length (Name.ofWritten written).segments false = outcome
    at hspares hformed
  obtain ⟨outcome, g⟩ := outcome
  cases outcome with
  | error rest => exact hspares
  | ok owner =>
    dsimp only at hspares hformed ⊢
    cases hfound : g.findName? t owner with
    | none => exact hspares
    | some r =>
      have hdefines := hformed.defines_of_find? hfound
      have hsettled := hspares.trans (hdefines.spares_settle hformed)
      rw [← Name.render_eq] at hsettled
      dsimp only
      split
      · exact hsettled
      · exact hsettled.trans (hdefines.congr
          (g.sameShape_settleQualification _ owner.render)).spares_complain

theorem WellFormed.spares_openScope (h : f.WellFormed) (ht : t < f.trees.size) (place : Name)
    (share : Bool) : f.Spares t (f.openScope t place share).1 :=
  have hopens := h.opens_openScope ht place share
  .of_others hopens.files hopens.others

theorem WellFormed.spares_enter (h : f.WellFormed) (ht : t < f.trees.size) (place : Name) :
    f.Spares t (f.enter t place) := by
  unfold Forest.enter
  split
  · exact .refl f t
  · exact h.spares_openScope ht place false

theorem WellFormed.spares_modifyAt (h : f.WellFormed) (ht : t < f.trees.size) (place : Name)
    (change : Scope → Scope) : f.Spares t (f.modifyAt t place change) := by
  have htree := tree_of_walk (h.opens_openScope ht place true).walk
  apply (h.spares_openScope ht place true).trans
  apply Spares.of_others (sameFiles_modifyScope _ _ _)
  intro u hu
  exact tree_modifyScope_of_ne _ (htree.symm ▸ hu)

end Forest

end Harvest
