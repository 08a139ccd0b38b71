import Harvest.Proofs.Scope.Formation
import Harvest.Proofs.Scope.Searches

/-!
# What a look-up reaches

A look-up visits each file id once and follows each `using` directive once. This module says that
nothing is hidden by that. Where every included file has an id of its own, the trees that are looked
at are those of the files that can be reached over includes; where every alias is settled, a segment
is found exactly if a scope has it that can be reached over `using` directives, whatever cycles
these and the includes make.
-/

namespace Harvest

namespace Forest

variable {f : Forest} {t u : Nat} {path : List String} {r : ScopeRef} {here n m : Name}
  {segment : String}

/-- Every file that `t` includes, directly or not, has an id of its own. -/
def OwnIds (f : Forest) (t : Nat) : Prop :=
  ∀ u v, Relation.TransGen (fun t u ↦ u ∈ f.included t) t u →
    Relation.TransGen (fun t u ↦ u ∈ f.included t) t v → f.fileId u = f.fileId v → u = v

/-- Besides its own tree, names of a file are looked up in those of all files that it includes,
directly or not. -/
theorem mem_tail_order_iff (hids : f.OwnIds t) :
    u ∈ (f.order t).tail ↔ ∃ v ∈ f.included t, f.Sees v u := by
  have hincludes : ∀ w, ReachedFrom f.included (f.included t) w →
      Relation.TransGen (fun t u ↦ u ∈ f.included t) t w := by
    rintro w ⟨v, hv, hrest⟩
    exact Relation.TransGen.head' hv hrest
  refine mem_preorder_iff (fun w hw ↦ ?_) fun w x hw hx ↦ hids w x (hincludes w hw) (hincludes x hx)
  obtain ⟨x, -, hx⟩ := Relation.TransGen.tail'_iff.1 (hincludes w hw)
  exact fileId_mem_includedIds hx

/-- Names of a file are looked up in all files that it sees. -/
theorem mem_order_iff (hids : f.OwnIds t) : u ∈ f.order t ↔ f.Sees t u := by
  refine ⟨sees_of_mem_order, fun hsees ↦ ?_⟩
  rcases hsees.cases_head with rfl | hincluded
  · exact List.mem_cons_self
  · exact List.mem_cons_of_mem _ ((mem_tail_order_iff hids).2 hincluded)

/-- The scope sits at a path of the file or of one that it includes. -/
def Shows (f : Forest) (t : Nat) (path : List String) (r : ScopeRef) : Prop :=
  ∃ u, f.Sees t u ∧ f.walk u path = some r

theorem mem_scopesAt_iff (hids : f.OwnIds t) :
    r ∈ f.scopesAt (f.order t) path ↔ f.Shows t path r := by
  simp only [scopesAt, List.mem_filterMap, mem_order_iff hids, Shows]

/-- A path is found exactly if some file has it. -/
theorem isSome_find?_iff (hids : f.OwnIds t) :
    (f.find? t path).isSome ↔ ∃ r, f.Shows t path r := by
  rw [find?, List.findSome?_isSome_iff]
  constructor
  · rintro ⟨u, hu, hfound⟩
    obtain ⟨r, hr⟩ := Option.isSome_iff_exists.1 hfound
    exact ⟨r, u, (mem_order_iff hids).1 hu, hr⟩
  · rintro ⟨r, u, hu, hr⟩
    exact ⟨u, (mem_order_iff hids).2 hu, Option.isSome_iff_exists.2 ⟨r, hr⟩⟩

/-- A scope called `n` uses the namespace called `m`. -/
def Uses (f : Forest) (t : Nat) (n m : Name) : Prop :=
  ∃ r, f.Shows t (n.below n.length) r ∧ m ∈ (f.scope r).usings

theorem mem_usingsAt_iff (hids : f.OwnIds t) :
    m ∈ Qualify.usingsAt f (f.order t) n ↔ f.Uses t n m := by
  simp only [Qualify.usingsAt, List.mem_flatMap, mem_scopesAt_iff hids, Uses]

/-- A segment is looked for in all scopes that can be reached over `using` directives. -/
theorem mem_usingOrder_iff (hids : f.OwnIds t) :
    n ∈ here :: Qualify.usingOrder f (f.order t) here ↔
      Relation.ReflTransGen (f.Uses t) here n := by
  have hstep : ∀ {a b}, b ∈ Qualify.usingsAt f (f.order t) a ↔ f.Uses t a b :=
    mem_usingsAt_iff hids
  have hreached : ReachedFrom (Qualify.usingsAt f (f.order t))
      (Qualify.usingsAt f (f.order t) here) n ↔ Relation.TransGen (f.Uses t) here n := by
    simp only [ReachedFrom, hstep]
    exact Relation.TransGen.head'_iff.symm
  rw [Relation.reflTransGen_iff_eq_or_transGen, List.mem_cons, ← hreached]
  apply or_congr_right
  apply mem_preorder_iff
  · rintro a ⟨b, hb, hba⟩
    rcases hba.cases_tail with rfl | ⟨c, -, ha⟩
    · exact Qualify.mem_allUsings hb
    · exact Qualify.mem_allUsings ha
  · exact fun _ _ _ _ ↦ id

/-- Every alias in the files that `t` sees is settled. -/
def Settled (f : Forest) (t : Nat) : Prop :=
  ∀ r, f.Sees t r.tree → ∀ p ∈ (f.scope r).aliases, p.2.resolution.isSome

/-- What a settled alias stands for. -/
def targetAt? (f : Forest) (site : AliasSite) : Option Name :=
  ((f.aliasAt? site).bind Alias.resolution).join

theorem Settled.settled? (h : f.Settled t) {site : AliasSite} (htree : f.Sees t site.scope.tree)
    (halias : (f.aliasAt? site).isSome) (findings : Findings) :
    f.settled? site findings = some (f.targetAt? site) := by
  obtain ⟨a, ha⟩ := Option.isSome_iff_exists.1 halias
  obtain ⟨target, htarget : a.resolution = some target⟩ :=
    Option.isSome_iff_exists.1 (h site.scope htree _ (mem_aliases_of_aliasAt? ha))
  simp [settled?_eq, targetAt?, ha, htarget]

end Forest

namespace Qualify

variable {f : Forest} {t : Nat}

/-- A computation that finds out nothing, and gives the answer of one that cannot. -/
def reading : Link (StateM Findings) Id where
  Holds x y := ∀ findings, x.run findings = (y.run, findings)
  pure _ _ := rfl
  bind {_ _ x y k l} hx hk findings := by
    rw [StateT.run_bind, hx]
    exact hk y.run findings

theorem run_first {α β : Type} (look : α → Id (Option β)) (as : List α) :
    (first look as).run = as.findSome? fun a ↦ (look a).run := by
  induction as with
  | nil => rfl
  | cons a as ih =>
    rw [List.findSome?_cons, ← ih, first, Id.run_bind]
    cases (look a).run <;> rfl

/-- Settled aliases are read and nothing is found out. -/
theorem reading_one (hids : f.OwnIds t) (hsettled : f.Settled t) (idle : List AliasSite)
    (here : Name) (segment : String) :
    reading.Holds (one f (f.order t) (target f (f.order t) idle) here segment)
      (one f (f.order t) (fun _ site ↦ pure (f.targetAt? site)) here segment) := by
  apply reading.one_of_mem
  intro here site htree halias findings
  rw [run_target, hsettled.settled? ((Forest.mem_order_iff hids).1 htree) halias]
  rfl

end Qualify

namespace Forest

variable {f : Forest} {t : Nat} {here n m : Name} {segment : String} {r : ScopeRef}

/-- The scope, called `n`, has the segment as a child, or as an alias with a target; `m` is what the
segment means there. -/
def OffersAt (f : Forest) (r : ScopeRef) (n : Name) (segment : String) (m : Name) : Prop :=
  ((f.scope r).child? segment).isSome ∧ m = n.push segment ∨
    ∃ a, (f.scope r).alias? segment = some a ∧ a.resolution = some (some m)

/-- A scope called `n` has the segment, with the meaning `m`. -/
def Offers (f : Forest) (t : Nat) (n : Name) (segment : String) (m : Name) : Prop :=
  ∃ r, f.Shows t (n.below n.length) r ∧ f.OffersAt r n segment m

/-- A segment in one scope, where every alias is settled. -/
def offer? (f : Forest) (r : ScopeRef) (n : Name) (segment : String) : Option Name :=
  if ((f.scope r).child? segment).isSome then some (n.push segment) else f.targetAt? ⟨r, segment⟩

theorem offersAt_of_offer? (h : f.offer? r n segment = some m) : f.OffersAt r n segment m := by
  unfold offer? at h
  split_ifs at h with hchild
  · exact .inl ⟨hchild, (Option.some.inj h).symm⟩
  · exact .inr (Option.bind_eq_some_iff.1 (Option.join_eq_some_iff.1 h))

theorem OffersAt.isSome_offer? (h : f.OffersAt r n segment m) :
    (f.offer? r n segment).isSome := by
  unfold offer?
  split_ifs with hchild
  · rfl
  · rcases h with ⟨hchild', -⟩ | ⟨a, ha, htarget⟩
    · exact (hchild hchild').elim
    · simp [targetAt?, aliasAt?, ha, htarget]

theorem run_own (f : Forest) (r : ScopeRef) (n : Name) (segment : String) :
    (Qualify.own f (fun _ site ↦ pure (f.targetAt? site)) n segment r : Id _).run =
      f.offer? r n segment := by
  unfold Qualify.own offer?
  dsimp only
  split_ifs with hchild halias
  · rfl
  · rfl
  · have hnone : f.aliasAt? ⟨r, segment⟩ = none := Option.not_isSome_iff_eq_none.1 halias
    rw [targetAt?, hnone]
    rfl

/-- Where every alias is settled, resolving a segment is a look through the scopes that can be
reached. -/
theorem qualifyOne_eq (hids : f.OwnIds t) (hsettled : f.Settled t) (here : Name)
    (segment : String) :
    (f.qualifyOne t here segment).1 =
      (here :: Qualify.usingOrder f (f.order t) here).findSome? fun n ↦
        (f.scopesAt (f.order t) (n.below n.length)).findSome? fun r ↦ f.offer? r n segment := by
  have hread := Qualify.reading_one hids hsettled f.idleAliases here segment []
  calc
    (f.qualifyOne t here segment).1
      = (Qualify.one f (f.order t) (fun _ site ↦ pure (f.targetAt? site)) here segment :
          Id _).run := congrArg Prod.fst hread
    _ = _ := by
      unfold Qualify.one Qualify.ownAt
      simp only [Qualify.run_first, run_own]

/-- One segment is found exactly if a scope has it that can be reached over `using` directives, and
it means then what it means in such a scope. A path is found exactly if a file has it that can be
reached over includes. -/
theorem qualifyOne_reaches (f : Forest) (t : Nat) (hids : f.OwnIds t) (hsettled : f.Settled t)
    (here : Name) (segment : String) :
    ((f.qualifyOne t here segment).1.isSome ↔
        ∃ n m, Relation.ReflTransGen (f.Uses t) here n ∧ f.Offers t n segment m) ∧
      (∀ m, (f.qualifyOne t here segment).1 = some m →
        ∃ n, Relation.ReflTransGen (f.Uses t) here n ∧ f.Offers t n segment m) ∧
      ∀ (place : Name) (count : Nat),
        (f.find? t (place.below count)).isSome ↔ ∃ r, f.Shows t (place.below count) r := by
  have hsound : ∀ m, (f.qualifyOne t here segment).1 = some m →
      ∃ n, Relation.ReflTransGen (f.Uses t) here n ∧ f.Offers t n segment m := by
    intro m hm
    rw [qualifyOne_eq hids hsettled] at hm
    obtain ⟨n, hn, hm⟩ := List.exists_of_findSome?_eq_some hm
    obtain ⟨r, hr, hm⟩ := List.exists_of_findSome?_eq_some hm
    exact ⟨n, (mem_usingOrder_iff hids).1 hn, r, (mem_scopesAt_iff hids).1 hr,
      offersAt_of_offer? hm⟩
  refine ⟨⟨fun hfound ↦ ?_, ?_⟩, hsound, fun place count ↦ isSome_find?_iff hids⟩
  · obtain ⟨m, hm⟩ := Option.isSome_iff_exists.1 hfound
    obtain ⟨n, hn, hoffers⟩ := hsound m hm
    exact ⟨n, m, hn, hoffers⟩
  · rintro ⟨n, m, hn, r, hr, hoffers⟩
    rw [qualifyOne_eq hids hsettled, List.findSome?_isSome_iff]
    refine ⟨n, (mem_usingOrder_iff hids).2 hn, ?_⟩
    rw [List.findSome?_isSome_iff]
    exact ⟨r, (mem_scopesAt_iff hids).2 hr, hoffers.isSome_offer?⟩

/-- The files of a forest have distinct ids. -/
theorem OwnIds.of_trees (hincluded : ∀ t < f.trees.size, ∀ u ∈ f.included t, u < f.trees.size)
    (hids : ∀ u < f.trees.size, ∀ v < f.trees.size, f.fileId u = f.fileId v → u = v) (t : Nat) :
    f.OwnIds t := by
  have hlt : ∀ {u}, Relation.TransGen (fun t u ↦ u ∈ f.included t) t u → u < f.trees.size := by
    intro u hu
    obtain ⟨v, -, hv⟩ := Relation.TransGen.tail'_iff.1 hu
    refine hincluded v ?_ u hv
    by_contra hge
    rw [included, tree_of_size_le (Nat.le_of_not_lt hge)] at hv
    exact List.not_mem_nil hv
  exact fun u v hu hv ↦ hids u (hlt hu) v (hlt hv)

theorem Settled.of_trees
    (h : ∀ tree ∈ f.trees, ∀ s ∈ tree.scopes, ∀ p ∈ s.aliases, p.2.resolution.isSome) (t : Nat) :
    f.Settled t := by
  intro r _ p hp
  have hr := has_of_mem_aliases hp
  have htree : f.tree r.tree ∈ f.trees := by
    simp [tree, Array.getD_eq_getD_getElem?, hr.tree_lt]
  exact h _ htree _ (Array.mem_toList_iff.1 hr.scope_mem) p hp

/-- Three files with a cycle of includes, and namespaces that use each other across them. Only the
last one has an alias. -/
def ring : Forest :=
  ⟨#[{ fileId := 5
       includes := [(6, 1)]
       scopes := #[
        { definition := ⟨0, 0⟩, children := [("N", 1)] },
        { definition := ⟨0, 1⟩, usings := [⟨["", "M"]⟩] }] },
     { fileId := 6
       includes := [(5, 0), (7, 2)]
       scopes := #[
        { definition := ⟨1, 0⟩, children := [("M", 1)] },
        { definition := ⟨1, 1⟩, usings := [⟨["", "N"]⟩, ⟨["", "L"]⟩] }] },
     { fileId := 7
       scopes := #[
        { definition := ⟨2, 0⟩, children := [("L", 1)] },
        { definition := ⟨2, 1⟩, aliases := [("S", .resolved ⟨["", "M"]⟩)] }] }]⟩

/-- From the first namespace the alias is found, two `using` directives and two includes away. -/
theorem qualifyOne_reaches_ring :
    ring.OwnIds 0 ∧ ring.Settled 0 ∧
      (ring.qualifyOne 0 ⟨["", "N"]⟩ "S").1 = some ⟨["", "M"]⟩ ∧
      (∃ n, Relation.ReflTransGen (ring.Uses 0) ⟨["", "N"]⟩ n ∧
        ring.Offers 0 n "S" ⟨["", "M"]⟩) ∧
      ¬∃ n m, Relation.ReflTransGen (ring.Uses 0) ⟨["", "N"]⟩ n ∧ ring.Offers 0 n "T" m := by
  have hids : ring.OwnIds 0 := .of_trees (by decide) (by decide) 0
  have hsettled : ring.Settled 0 := .of_trees (by decide) 0
  have hfound : (ring.qualifyOne 0 ⟨["", "N"]⟩ "S").1 = some ⟨["", "M"]⟩ := by decide +kernel
  have hmissing : (ring.qualifyOne 0 ⟨["", "N"]⟩ "T").1 = none := by decide +kernel
  refine ⟨hids, hsettled, hfound, ?_, ?_⟩
  · exact (qualifyOne_reaches ring 0 hids hsettled ⟨["", "N"]⟩ "S").2.1 _ hfound
  · rw [← (qualifyOne_reaches ring 0 hids hsettled ⟨["", "N"]⟩ "T").1, hmissing]
    exact Bool.false_ne_true

end Forest

end Harvest
