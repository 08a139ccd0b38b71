import Harvest.Proofs.Scope.Searches

/-!
# Guards against cycles

Includes, `using` directives and aliases may lead in cycles. A search that goes along them as they
come needs three guards: the set of the files that it has visited, the set of the `using` directives
that it has followed, and a mark on each alias that it is resolving. This module states that search
with its guards. Nothing but the guards ends it: where it goes on without an end, it has no result
for any amount of fuel.

Main statement: the guarded search ends with the answer of `Forest.qualify`, which keeps what it
finds out apart from the forest and needs no marks. In the end the guarded search has released every
mark, and every alias that it began to resolve is settled.
-/

namespace Harvest

/-- A forest whose aliases are marked while they are resolved. -/
structure Guarded where
  forest : Forest
  /-- The aliases that were begun to be resolved, the latest first. -/
  begun : List AliasSite := []

namespace Guarded

open Qualify

/-- A computation with marks, which may run out of fuel. -/
abbrev Run := StateT Guarded Option

/-- What is reached from the nodes on `stack` over `next`, guarded by the keys that were visited. -/
def reach {α κ : Type} [DecidableEq κ] (key : α → κ) (next : α → List α) :
    Nat → List κ → List α → Option (List α)
  | 0, _, _ => none
  | _ + 1, _, [] => some []
  | fuel + 1, visited, node :: rest =>
    if key node ∈ visited then reach key next fuel visited rest
    else do
      let nodes ← reach key next fuel (key node :: visited) (next node ++ rest)
      return node :: nodes

/-- The trees in which names of the file `t` are looked up. -/
def files (f : Forest) (t fuel : Nat) : Option (List Nat) := do
  let trees ← reach f.fileId f.included fuel [] (f.included t)
  return t :: trees

/-- The names in which a segment is looked for after the scopes called `here`. -/
def usings (f : Forest) (trees : List Nat) (here : Name) (fuel : Nat) : Option (List Name) :=
  reach id (usingsAt f trees) fuel [] (usingsAt f trees here)

/-- One segment, looked for in the scopes called `here`, then over `using` directives. -/
def findIn (f : Forest) (trees : List Nat) (fuel : Nat) (resolve : Resolver Run) : Finder Run :=
  fun here segment ↦ do
    match ← ownAt f trees resolve segment here with
    | some n => pure (some n)
    | none =>
      let names ← usings f trees here fuel
      first (ownAt f trees resolve segment) names

/-- One segment, as seen from the file `t`. -/
def find (t fuel : Nat) (resolve : Resolver Run) : Finder Run := fun here segment ↦ do
  let f := (← get).forest
  let trees ← files f t fuel
  findIn f trees fuel resolve here segment

/-- The mark is set. -/
def begin (site : AliasSite) (s : Guarded) : Guarded where
  forest := s.forest.modifyAlias site fun a ↦ { a with busy := true }
  begun := site :: s.begun

/-- The outcome is recorded and the mark released. -/
def finish (site : AliasSite) (target : Option Name) (s : Guarded) : Guarded :=
  { s with forest := s.forest.modifyAlias site fun a ↦ a.settle target }

/-- What the alias at a site stands for. An alias that is marked stands for nothing. -/
def resolve (t : Nat) : Nat → Resolver Run
  | 0 => fun _ _ ↦ failure
  | fuel + 1 => fun here site ↦ do
    match (← get).forest.aliasAt? site with
    | none => pure none
    | some a =>
      match a.resolution with
      | some target => pure target
      | none =>
        if a.busy then pure none
        else do
          modify (begin site)
          let outcome ←
            name (find t fuel (resolve t fuel)) here here.length a.written.segments false
          modify (finish site outcome.toOption)
          pure outcome.toOption

/-- Resolves a name written in the scope `here[..count]`, as seen from the file `t`. -/
def qualify (f : Forest) (t : Nat) (here : Name) (count : Nat) (segments : List String)
    (declaration : Bool) (fuel : Nat) : Option (Except PartialName Name × Guarded) :=
  (name (find t fuel (resolve t fuel)) here count segments declaration).run { forest := f }

/-- The property holds for every amount of fuel from some amount on. -/
def EnoughFuel (P : Nat → Prop) : Prop := ∃ enough, ∀ fuel, enough ≤ fuel → P fuel

namespace EnoughFuel

variable {P Q : Nat → Prop}

theorem of_forall (h : ∀ fuel, P fuel) : EnoughFuel P := ⟨0, fun fuel _ ↦ h fuel⟩

theorem imp (h : EnoughFuel P) (himp : ∀ fuel, P fuel → Q fuel) : EnoughFuel Q := by
  obtain ⟨enough, henough⟩ := h
  exact ⟨enough, fun fuel hfuel ↦ himp fuel (henough fuel hfuel)⟩

theorem and (hP : EnoughFuel P) (hQ : EnoughFuel Q) : EnoughFuel fun fuel ↦ P fuel ∧ Q fuel := by
  obtain ⟨enough, hP⟩ := hP
  obtain ⟨enough', hQ⟩ := hQ
  refine ⟨max enough enough', fun fuel hfuel ↦ ⟨hP fuel ?_, hQ fuel ?_⟩⟩
  · exact Nat.le_trans (Nat.le_max_left _ _) hfuel
  · exact Nat.le_trans (Nat.le_max_right _ _) hfuel

/-- One unit of fuel may be spent first. -/
theorem of_succ (h : EnoughFuel fun fuel ↦ P (fuel + 1)) : EnoughFuel P := by
  obtain ⟨enough, henough⟩ := h
  refine ⟨enough + 1, fun fuel hfuel ↦ ?_⟩
  obtain ⟨fuel, rfl⟩ := Nat.exists_eq_add_of_le' (Nat.le_trans (Nat.le_add_left 1 enough) hfuel)
  exact henough fuel (Nat.le_of_succ_le_succ hfuel)

end EnoughFuel

section Reach

variable {α κ : Type} [DecidableEq κ] {key : α → κ} {next : α → List α} {fresh all : List κ}
  {stack : List α}

/-- With enough fuel, the visited keys guard a traversal like a list of fresh keys that leaves out
nothing. -/
theorem reach_eq {visited : List κ} (hstack : ∀ a ∈ stack, key a ∈ all)
    (hnext : ∀ a, ∀ b ∈ next a, key b ∈ all) (hfresh : ∀ k ∈ all, k ∈ fresh ↔ k ∉ visited) :
    EnoughFuel fun fuel ↦
      reach key next fuel visited stack = some (preorder key next fresh stack) := by
  induction fresh, stack using preorder_induction key next generalizing visited with
  | nil fresh => exact .of_succ (.of_forall fun _ ↦ rfl)
  | enter fresh node rest hmem ih =>
    have hnode := hstack node List.mem_cons_self
    have hrest : ∀ a ∈ next node ++ rest, key a ∈ all := by
      intro a ha
      rcases List.mem_append.1 ha with ha | ha
      · exact hnext node a ha
      · exact hstack a (List.mem_cons_of_mem node ha)
    have hfresh' : ∀ k ∈ all, k ∈ without (key node) fresh ↔ k ∉ key node :: visited := by
      intro k hk
      simp [without, hfresh k hk, and_comm]
    apply EnoughFuel.of_succ
    apply (ih hrest hfresh').imp
    intro fuel hfuel
    rw [reach, if_neg ((hfresh _ hnode).1 hmem), hfuel, preorder_cons, if_pos hmem]
    rfl
  | pass fresh node rest hmem ih =>
    have hnode := hstack node List.mem_cons_self
    have hvisited : key node ∈ visited := by
      by_contra h
      exact hmem ((hfresh _ hnode).2 h)
    apply EnoughFuel.of_succ
    apply (ih (fun a ha ↦ hstack a (List.mem_cons_of_mem node ha)) hfresh).imp
    intro fuel hfuel
    rw [reach, if_pos hvisited, hfuel, preorder_cons, if_neg hmem]

end Reach

/-- The visited files guard the look-up of names. -/
theorem files_eq (f : Forest) (t : Nat) :
    EnoughFuel fun fuel ↦ files f t fuel = some (f.order t) := by
  have hincluded : ∀ u, ∀ v ∈ f.included u, f.fileId v ∈ f.includedIds :=
    fun u v hv ↦ Forest.fileId_mem_includedIds hv
  apply (reach_eq (hincluded t) hincluded fun k hk ↦ ⟨fun _ ↦ List.not_mem_nil, fun _ ↦ hk⟩).imp
  intro fuel hfuel
  rw [files, hfuel]
  rfl

/-- The `using` directives that were followed guard the search over them. -/
theorem usings_eq (f : Forest) (trees : List Nat) (here : Name) :
    EnoughFuel fun fuel ↦ usings f trees here fuel = some (usingOrder f trees here) := by
  have hall : ∀ here, ∀ n ∈ usingsAt f trees here, n ∈ allUsings f trees :=
    fun here n hn ↦ mem_allUsings hn
  exact reach_eq (hall here) hall fun k hk ↦ ⟨fun _ ↦ List.not_mem_nil, fun _ ↦ hk⟩

theorem findIn_eq {f : Forest} {trees : List Nat} {fuel : Nat} {here : Name}
    (husings : usings f trees here fuel = some (usingOrder f trees here)) (resolve : Resolver Run)
    (segment : String) :
    findIn f trees fuel resolve here segment = one f trees resolve here segment := by
  unfold findIn
  rw [husings, one, first]
  apply bind_congr
  intro found
  cases found <;> rfl

/-- With enough fuel, the guarded search for a segment looks where the plain one does. -/
theorem find_eq {f : Forest} {s : Guarded} {change : AliasSite → Alias → Alias}
    (hs : s.forest = f.mapAliases change) (t : Nat) (here : Name) (segment : String) :
    EnoughFuel fun fuel ↦ ∀ resolve : Resolver Run,
      (find t fuel resolve here segment).run s =
        (one f (f.order t) resolve here segment).run s := by
  apply ((files_eq s.forest t).and (usings_eq s.forest (s.forest.order t) here)).imp
  rintro fuel ⟨hfiles, husings⟩ resolve
  calc
    (find t fuel resolve here segment).run s
      = (findIn s.forest (s.forest.order t) fuel resolve here segment).run s := by
        simp [find, hfiles]
    _ = (one s.forest (s.forest.order t) resolve here segment).run s := by
        rw [findIn_eq husings]
    _ = _ := by rw [hs, Forest.order_mapAliases, one_mapAliases]

/-- An alias after some findings, while the aliases on `stack` are being resolved. -/
def marked (stack : List AliasSite) (findings : Findings) (site : AliasSite) (a : Alias) : Alias :=
  { a.learn (findings.lookup site) with busy := decide (site ∈ stack) }

/-- The marks and resolutions are those of a search that has these findings and is resolving the
aliases on `stack`. -/
structure Agrees (f : Forest) (stack : List AliasSite) (findings : Findings) (s : Guarded) :
    Prop where
  forest : s.forest = f.mapAliases (marked stack findings)
  begun : ∀ site ∈ s.begun, (f.aliasAt? site).isSome ∧
    (site ∈ stack ∨ (f.settled? site findings).isSome)

variable {f : Forest} {t : Nat} {stack idle : List AliasSite} {findings : Findings} {s : Guarded}
  {site : AliasSite}

theorem Agrees.aliasAt? (hs : Agrees f stack findings s) {a : Alias}
    (ha : f.aliasAt? site = some a) :
    s.forest.aliasAt? site = some (marked stack findings site a) := by
  rw [hs.forest, Forest.aliasAt?_mapAliases, ha]
  rfl

theorem Agrees.begin (hs : Agrees f stack findings s) (halias : (f.aliasAt? site).isSome) :
    Agrees f (site :: stack) findings (begin site s) where
  forest := by
    change s.forest.modifyAlias site _ = _
    rw [hs.forest, Forest.modifyAlias_eq, Forest.mapAliases_mapAliases]
    apply Forest.mapAliases_congr
    intro r p _
    by_cases hsite : (⟨r, p.1⟩ : AliasSite) = site
    · simp [hsite, marked]
    · simp [hsite, marked]
  begun := by
    intro other hother
    rcases List.mem_cons.1 hother with rfl | hother
    · exact ⟨halias, .inl List.mem_cons_self⟩
    · obtain ⟨halias', hknown⟩ := hs.begun other hother
      exact ⟨halias', hknown.imp (List.mem_cons_of_mem site) id⟩

theorem Agrees.finish (hs : Agrees f (site :: stack) findings s) (hstack : site ∉ stack)
    (hnew : findings.lookup site = none) (target : Option Name) :
    Agrees f stack ((site, target) :: findings) (finish site target s) where
  forest := by
    change s.forest.modifyAlias site _ = _
    rw [hs.forest, Forest.modifyAlias_eq, Forest.mapAliases_mapAliases]
    apply Forest.mapAliases_congr
    intro r p _
    by_cases hsite : (⟨r, p.1⟩ : AliasSite) = site
    · simp [hsite, marked, Alias.learn, Alias.settle, hnew, hstack]
    · simp [hsite, marked, List.lookup_cons, beq_false_of_ne hsite]
  begun := by
    intro other hother
    obtain ⟨halias, hknown⟩ := hs.begun other hother
    refine ⟨halias, ?_⟩
    by_cases hsite : other = site
    · rw [hsite, Forest.settled?_eq, List.lookup_cons_self, Option.isSome_or]
      exact .inr (Bool.or_true _)
    · rw [settled?_cons_of_ne hsite]
      exact hknown.imp (fun h ↦ (List.mem_cons.1 h).resolve_left hsite) id

/-- With enough fuel, the guarded search gives the answer of the plain one, and they still agree. -/
def guards (f : Forest) (stack : List AliasSite) : Link (StateM Findings) (ReaderT Nat Run) where
  Holds x y := ∀ findings s, Agrees f stack findings s →
    ∃ s', Agrees f stack (x.run findings).2 s' ∧
      EnoughFuel fun fuel ↦ (y.run fuel).run s = some ((x.run findings).1, s')
  pure _ _ s hs := ⟨s, hs, .of_forall fun _ ↦ rfl⟩
  bind {_ _ x y k l} hx hk findings s hs := by
    obtain ⟨s', hs', hy⟩ := hx findings s hs
    obtain ⟨s'', hs'', hl⟩ := hk (x.run findings).1 (x.run findings).2 s' hs'
    refine ⟨s'', hs'', (hy.and hl).imp ?_⟩
    rintro fuel ⟨hy, hl⟩
    have hrun : ((y >>= l).run fuel).run s =
        (y.run fuel).run s >>= fun r ↦ ((l r.1).run fuel).run r.2 := rfl
    rw [hrun, hy]
    exact hl

/-- The same computation with a fixed amount of fuel. -/
def atFuel (fuel : Nat) : Link (ReaderT Nat Run) Run where
  Holds x y := x.run fuel = y
  pure _ := rfl
  bind {_ _ x y k l} hx hk := by
    have hrun : (x >>= k).run fuel = x.run fuel >>= fun b ↦ (k b).run fuel := rfl
    rw [hrun, hx]
    exact bind_congr hk

/-- The guarded resolution of aliases, for any amount of fuel. -/
def resolver (t : Nat) : Resolver (ReaderT Nat Run) := fun here site fuel ↦ resolve t fuel here site

/-- The guarded search for a segment, for any amount of fuel. -/
def finder (t : Nat) : Finder (ReaderT Nat Run) :=
  fun here segment fuel ↦ find t fuel (resolve t fuel) here segment

/-- The guarded search for a name, if the guarded resolution of its aliases agrees. -/
theorem guards_name
    (hresolve : ∀ here site, (f.aliasAt? site).isSome →
      (guards f stack).Holds (target f (f.order t) idle here site) (resolver t here site))
    (here : Name) (count : Nat) (segments : List String) (declaration : Bool) :
    (guards f stack).Holds (name (f.finder (f.order t) idle) here count segments declaration)
      (name (finder t) here count segments declaration) := by
  apply (guards f stack).name
  intro here segment findings s hs
  obtain ⟨s', hs', hone⟩ := (guards f stack).one hresolve (f.order t) here segment findings s hs
  refine ⟨s', hs', ((find_eq hs.forest t here segment).and hone).imp ?_⟩
  rintro fuel ⟨hfind, hone⟩
  have hfixed : (one f (f.order t) (resolver t) here segment).run fuel =
      one f (f.order t) (resolve t fuel) here segment :=
    (atFuel fuel).one (fun _ _ _ ↦ rfl) (f.order t) here segment
  rw [hfixed, ← hfind] at hone
  exact hone

/-- With a fixed amount of fuel, the guarded search for a name is that of the definition. -/
theorem run_name_finder (t fuel : Nat) (here : Name) (count : Nat) (segments : List String)
    (declaration : Bool) :
    (name (finder t) here count segments declaration).run fuel =
      name (find t fuel (resolve t fuel)) here count segments declaration :=
  (atFuel fuel).name (fun _ _ ↦ rfl) here count segments declaration

/-- What resolving an alias with marks does. -/
theorem run_resolve {a : Alias} (ha : s.forest.aliasAt? site = some a) (t fuel : Nat)
    (here : Name) :
    (resolve t (fuel + 1) here site).run s =
      match a.resolution with
      | some target => some (target, s)
      | none =>
        if a.busy then some (none, s)
        else
          ((name (find t fuel (resolve t fuel)) here here.length a.written.segments false).run
            (begin site s)).map fun r ↦ (r.1.toOption, finish site r.1.toOption r.2) := by
  rw [resolve]
  simp only [StateT.run_bind, StateT.run_get, Option.pure_def, Option.bind_eq_bind,
    Option.bind_some, ha]
  cases a.resolution with
  | some target => rfl
  | none =>
    cases a.busy with
    | true => rfl
    | false =>
      rw [Option.map_eq_bind]
      rfl

/-- The aliases that may be resolved while one more is being resolved. -/
theorem mem_without_iff
    (hidle : ∀ other, other ∈ idle ↔ other ∈ f.idleAliases ∧ other ∉ stack) (other : AliasSite) :
    other ∈ without site idle ↔ other ∈ f.idleAliases ∧ other ∉ site :: stack := by
  simp only [without, List.mem_filter, hidle other, decide_eq_true_eq, List.mem_cons, not_or]
  exact and_assoc.trans (and_congr_right fun _ ↦ and_comm)

/-- Resolving an alias with marks agrees with resolving it from the list of the aliases that may be
resolved. -/
theorem guards_target (hfree : f.Unguarded)
    (hidle : ∀ site, site ∈ idle ↔ site ∈ f.idleAliases ∧ site ∉ stack) (here : Name)
    (site : AliasSite) (halias : (f.aliasAt? site).isSome) :
    (guards f stack).Holds (target f (f.order t) idle here site) (resolver t here site) := by
  -- Each alias that is resolved on the way is one less that may be.
  induction hlength : idle.length using Nat.strongRecOn generalizing idle stack here site with
  | ind length ih =>
    intro findings s hs
    obtain ⟨a, ha⟩ := Option.isSome_iff_exists.1 halias
    have hresolution : (marked stack findings site a).resolution = f.settled? site findings := by
      rw [Forest.settled?_eq, ha]
      rfl
    have hwritten : (marked stack findings site a).written.segments = f.writtenAt site := by
      rw [Forest.writtenAt, ha]
      rfl
    have hrun := fun fuel ↦ run_resolve (hs.aliasAt? ha) t fuel here
    rw [hresolution, hwritten] at hrun
    rw [run_target]
    cases hsettled : f.settled? site findings with
    | some target =>
      refine ⟨s, hs, .of_succ (.of_forall fun fuel ↦ ?_)⟩
      exact (hrun fuel).trans (by rw [hsettled])
    | none =>
      have hsite : site ∈ f.idleAliases := Forest.mem_idleAliases hfree halias hsettled
      by_cases hstack : site ∈ stack
      · -- The alias is being resolved already.
        have hbusy : (marked stack findings site a).busy = true := by simp [marked, hstack]
        rw [if_neg fun h ↦ ((hidle site).1 h).2 hstack]
        refine ⟨s, hs, .of_succ (.of_forall fun fuel ↦ ?_)⟩
        exact (hrun fuel).trans (by rw [hsettled, hbusy]; rfl)
      · have hbusy : (marked stack findings site a).busy = false := by simp [marked, hstack]
        have hmem : site ∈ idle := (hidle site).2 ⟨hsite, hstack⟩
        have hshorter : (without site idle).length < length := hlength ▸ length_without_lt hmem
        rw [if_pos hmem]
        obtain ⟨s', hs', hname⟩ := guards_name
          (fun here site halias ↦ ih _ hshorter (mem_without_iff hidle) here site halias rfl) here
          here.length (f.writtenAt site) false findings (begin site s) (hs.begin halias)
        have hnew := lookup_of_without hsettled (f.order t) idle here here.length (f.writtenAt site)
          false
        refine ⟨_, hs'.finish hstack hnew _, .of_succ (hname.imp fun fuel hfuel ↦ ?_)⟩
        rw [run_name_finder] at hfuel
        refine (hrun fuel).trans ?_
        rw [hsettled, hbusy, hfuel]
        rfl

theorem agrees_start (hfree : f.Unguarded) : Agrees f [] [] { forest := f } where
  forest := by
    apply Forest.mapAliases_id.symm.trans
    apply Forest.mapAliases_congr
    intro r p hp
    simp [marked, Alias.learn, ← hfree.busy hp]
  begun := by simp

/-- Without marks, what is left are the findings. -/
theorem Agrees.forest_eq_record (hs : Agrees f [] findings s) (hfree : f.Unguarded) :
    s.forest = f.record findings := by
  rw [hs.forest, Forest.record_of_unguarded hfree]
  apply Forest.mapAliases_congr
  intro r p hp
  simp [marked, Alias.learn, ← hfree.busy hp]

theorem Agrees.unguarded (hs : Agrees f [] findings s) : s.forest.Unguarded := by
  rw [Forest.unguarded_iff, hs.forest]
  intro r p hp
  rw [Forest.scope_mapAliases] at hp
  obtain ⟨q, -, rfl⟩ := List.mem_map.1 hp
  rfl

/-- Everything that was begun is settled. -/
theorem Agrees.isSome_resolution (hs : Agrees f [] findings s) (hsite : site ∈ s.begun) :
    ((s.forest.aliasAt? site).bind Alias.resolution).isSome := by
  obtain ⟨halias, hknown⟩ := hs.begun site hsite
  obtain ⟨a, ha⟩ := Option.isSome_iff_exists.1 halias
  have hsettled := hknown.resolve_left List.not_mem_nil
  rw [Forest.settled?_eq, ha] at hsettled
  rw [hs.aliasAt? ha]
  exact hsettled

/-- The guarded search ends, whatever cycles the includes, `using` directives and aliases of the
forest make. It answers and settles aliases like the plain search; it leaves no alias marked and
none unsettled that it began to resolve. -/
theorem qualify_ends (f : Forest) (t : Nat) (here : Name) (count : Nat) (segments : List String)
    (declaration : Bool) (hfree : f.Unguarded) :
    ∃ s : Guarded,
      EnoughFuel (fun fuel ↦ qualify f t here count segments declaration fuel =
        some ((f.qualify t here count segments declaration).1, s)) ∧
      s.forest = (f.qualify t here count segments declaration).2 ∧ s.forest.Unguarded ∧
      ∀ site ∈ s.begun, ((s.forest.aliasAt? site).bind Alias.resolution).isSome := by
  have hidle : ∀ site, site ∈ f.idleAliases ↔ site ∈ f.idleAliases ∧ site ∉ [] := by simp
  obtain ⟨s, hs, hname⟩ := guards_name (t := t) (guards_target hfree hidle) here count segments
    declaration [] { forest := f } (agrees_start hfree)
  refine ⟨s, hname.imp fun fuel hfuel ↦ ?_, hs.forest_eq_record hfree, hs.unguarded,
    fun site ↦ hs.isSome_resolution⟩
  rw [run_name_finder] at hfuel
  exact hfuel

/-- Two files that include each other, with namespaces that use each other and aliases that stand
for each other. -/
def tangle : Forest :=
  ⟨#[{ fileId := 1
       includes := [(2, 1)]
       scopes := #[
        { definition := ⟨0, 0⟩
          children := [("M", 1), ("N", 2)]
          aliases := [("A", .pending ⟨["B"]⟩)] },
        { definition := ⟨0, 1⟩, usings := [⟨["", "N"]⟩] },
        { definition := ⟨0, 2⟩, usings := [⟨["", "M"]⟩] }] },
     { fileId := 2
       includes := [(1, 0)]
       scopes := #[{ definition := ⟨1, 0⟩, aliases := [("B", .pending ⟨["A"]⟩)] }] }]⟩

theorem qualify_ends_tangle :
    (qualify tangle 0 ⟨["", "M"]⟩ 2 ["A"] false 20).map (fun r ↦ r.2.begun) =
        some [⟨⟨1, 0⟩, "B"⟩, ⟨⟨0, 0⟩, "A"⟩] ∧
      ∃ s : Guarded,
        EnoughFuel (fun fuel ↦ qualify tangle 0 ⟨["", "M"]⟩ 2 ["A"] false fuel =
          some (.error ⟨Name.root, ["A"]⟩, s)) ∧
        s.forest.Unguarded ∧
        ∀ site ∈ s.begun, ((s.forest.aliasAt? site).bind Alias.resolution).isSome := by
  have hanswer : (tangle.qualify 0 ⟨["", "M"]⟩ 2 ["A"] false).1 = .error ⟨Name.root, ["A"]⟩ := by
    decide +kernel
  obtain ⟨s, hends, -, hfree, hsettled⟩ :=
    qualify_ends tangle 0 ⟨["", "M"]⟩ 2 ["A"] false (by decide)
  rw [hanswer] at hends
  refine ⟨?_, s, hends, hfree, hsettled⟩
  decide +kernel

end Guarded

end Harvest
