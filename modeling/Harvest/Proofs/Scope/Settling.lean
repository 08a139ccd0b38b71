import Harvest.Proofs.Scope.Searches

/-!
# Resolving a name twice

An alias that is looked up while others are being resolved may get another target than it would get
on its own. What the first search for a name has settled in this way, a second search reads back:
each alias that the first search asks about, other than on behalf of another alias, is settled as it
answered. Main statement: the second search gives the same answer and leaves the forest as it is,
and the first one has changed nothing but aliases that were not settled.
-/

namespace Harvest

namespace Qualify

variable {f : Forest} {site : AliasSite}

/-- What is recorded counts as settled. -/
theorem settled?_record (halias : (f.aliasAt? site).isSome) (findings : Findings) :
    (f.record findings).settled? site [] = f.settled? site findings := by
  obtain ⟨a, ha⟩ := Option.isSome_iff_exists.1 halias
  rw [Forest.record_eq, Forest.settled?_eq, Forest.settled?_eq, Forest.aliasAt?_mapAliases, ha]
  cases findings.lookup site with
  | none => simp
  | some target => simp [Alias.settle]

/-- The second search repeats the first without findings of its own, if the first has found no more
than `known` says. -/
def replay (f : Forest) (known : Findings) : Link (StateM Findings) (StateM Findings) where
  Holds x y := ∀ findings, Extends f findings (x.run findings).2 ∧
    (Extends f (x.run findings).2 known → y.run [] = ((x.run findings).1, []))
  pure _ findings := ⟨.refl f findings, fun _ ↦ rfl⟩
  bind {_ _ x y k l} hx hk findings := by
    obtain ⟨hextends, hsame⟩ := hx findings
    obtain ⟨hextends', hsame'⟩ := hk (x.run findings).1 (x.run findings).2
    refine ⟨hextends.trans hextends', fun hknown ↦ ?_⟩
    have hy := hsame (hextends'.trans hknown)
    calc
      (y >>= l).run [] = (l (y.run []).1).run (y.run []).2 := rfl
      _ = (l (x.run findings).1).run [] := by rw [hy]
      _ = _ := hsame' hknown

/-- The second search repeats the resolution of an alias. An alias that may not be resolved has no
answer, neither then nor now. -/
theorem replay_target (halias : (f.aliasAt? site).isSome)
    {known : Findings}
    (hknown : ∀ other ∉ f.idleAliases, f.settled? other known = f.settled? other [])
    (trees : List Nat) (here : Name) :
    (replay f known).Holds (target f trees f.idleAliases here site)
      (target (f.record known) trees (f.record known).idleAliases here site) := by
  intro findings
  refine ⟨(growth_target f trees f.idleAliases here site findings).1, fun hextends ↦ ?_⟩
  have hrecorded := settled?_record halias known
  rw [run_target f] at hextends ⊢
  rw [run_target]
  cases hsettled : f.settled? site findings with
  | some target =>
    rw [hsettled] at hextends
    rw [hrecorded, hextends site target hsettled]
  | none =>
    rw [hsettled] at hextends
    by_cases hidle : site ∈ f.idleAliases
    · simp only [hidle, if_true] at hextends ⊢
      rw [hrecorded, hextends site _ (settled?_cons_self hsettled _ _)]
    · have hnone : f.settled? site [] = none := by
        rw [Forest.settled?_eq] at hsettled ⊢
        rw [(Option.or_eq_none_iff.1 hsettled).1]
        rfl
      rw [hrecorded, hknown site hidle, hnone]
      simp [hidle, mt Forest.mem_idleAliases_of_record hidle]

end Qualify

namespace Forest

/-- Names are looked for in the same way after findings were recorded. -/
theorem finder_record (f : Forest) (findings : Findings) (trees : List Nat)
    (idle : List AliasSite) :
    (f.record findings).finder trees idle =
      Qualify.one f trees (Qualify.target (f.record findings) trees idle) := by
  unfold finder
  conv_lhs =>
    rw [record_eq]
    rw [Qualify.one_mapAliases]
  rw [record_eq]

/-- The search after a search gives the same answer and finds out nothing. -/
theorem search_record (f : Forest) (t : Nat) (here : Name) (count : Nat) (segments : List String)
    (declaration : Bool) :
    let found := f.search t here count segments declaration
    (f.record found.2).search t here count segments declaration = (found.1, []) := by
  intro found
  have horder : (f.record found.2).order t = f.order t := by
    rw [record_eq]
    exact order_mapAliases _ t
  have hknown := (Qualify.growth_name f (f.order t) f.idleAliases here count segments declaration []).2
  have hreplay := (Qualify.replay f found.2).search f
    (fun here site halias ↦ Qualify.replay_target halias hknown (f.order t) here) (f.order t) here
    count segments declaration []
  unfold search
  rw [horder, finder_record]
  exact hreplay.2 (.refl f found.2)

/-- Resolving a name a second time gives the same answer and changes nothing. The first time
changes aliases only, and of them only those that were not settled. -/
theorem qualify_idempotent (f : Forest) (t : Nat) (here : Name) (count : Nat)
    (segments : List String) (declaration : Bool) (hfree : f.Unguarded) :
    let once := f.qualify t here count segments declaration
    once.2.qualify t here count segments declaration = once ∧
      ∃ found : AliasSite → Option (Option Name),
        once.2 = f.mapAliases fun site a ↦ a.learn (found site) := by
  intro once
  have honce : once = _ := qualify_eq f t here count segments declaration
  rw [honce, qualify_eq, search_record]
  exact ⟨rfl, _, record_of_unguarded hfree _⟩

/-- Two aliases that stand for each other, and a namespace that is used and has a scope with the
name of one of them. -/
def knot : Forest :=
  ⟨#[{ fileId := 0
       scopes := #[
        { definition := ⟨0, 0⟩
          children := [("N", 1)]
          aliases := [("A", .pending ⟨["B"]⟩), ("B", .pending ⟨["A"]⟩)]
          usings := [⟨["", "N"]⟩] },
        { definition := ⟨0, 1⟩, children := [("A", 2)] },
        { definition := ⟨0, 2⟩ }] }]⟩

/-- Resolving one of the aliases settles that the other one stands for nothing. -/
theorem qualify_idempotent_knot :
    let once := knot.qualify 0 Name.root 1 ["B"] false
    once.1 = .ok ⟨["", "N", "A"]⟩ ∧
      once.2.aliasAt? ⟨⟨0, 0⟩, "A"⟩ = some { written := ⟨["B"]⟩, resolution := some none } ∧
      once.2.qualify 0 Name.root 1 ["B"] false = once := by
  refine ⟨?_, ?_, (qualify_idempotent knot 0 Name.root 1 ["B"] false (by decide)).1⟩
  · decide +kernel
  · decide +kernel

end Forest

end Harvest
