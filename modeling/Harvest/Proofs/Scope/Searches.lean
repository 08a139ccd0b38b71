import Harvest.Proofs.Scope.Aliases

/-!
# Searches side by side

The search for a name is the same whatever it computes in and however it resolves aliases. So a
relation between two ways to compute that is kept by returning and by going on holds between two
whole searches, if it holds wherever they resolve an alias.

The first use of this is that findings only grow, and only by aliases that may be resolved.
-/

namespace Harvest

namespace Qualify

/-- A relation between two ways to compute, kept by returning and by going on. -/
structure Link (m n : Type → Type) [Monad m] [Monad n] where
  Holds : {β : Type} → m β → n β → Prop
  pure : ∀ {β : Type} (b : β), Holds (pure b) (pure b)
  bind : ∀ {β γ : Type} {x : m β} {y : n β} {k : β → m γ} {l : β → n γ}, Holds x y →
    (∀ b, Holds (k b) (l b)) → Holds (x >>= k) (y >>= l)

namespace Link

variable {m n : Type → Type} [Monad m] [Monad n] (R : Link m n)

theorem first {α β : Type} {look : α → m (Option β)} {look' : α → n (Option β)} {as : List α}
    (h : ∀ a ∈ as, R.Holds (look a) (look' a)) : R.Holds (first look as) (first look' as) := by
  induction as with
  | nil => exact R.pure none
  | cons a as ih =>
    apply R.bind (h a List.mem_cons_self)
    intro found
    cases found with
    | none => exact ih fun b hb ↦ h b (List.mem_cons_of_mem a hb)
    | some b => exact R.pure (some b)

/-- One segment: the relation has to hold for the aliases in the trees that are looked at. -/
theorem one_of_mem {f : Forest} {trees : List Nat} {resolve : Resolver m} {resolve' : Resolver n}
    (h : ∀ here site, site.scope.tree ∈ trees → (f.aliasAt? site).isSome →
      R.Holds (resolve here site) (resolve' here site)) (here : Name) (segment : String) :
    R.Holds (one f trees resolve here segment) (one f trees resolve' here segment) := by
  apply R.first
  intro here _
  apply R.first
  intro r hr
  obtain ⟨t, ht, hwalk⟩ := List.mem_filterMap.1 hr
  unfold own
  dsimp only
  split_ifs with _ halias
  · exact R.pure _
  · exact h here ⟨r, segment⟩ ((Forest.tree_of_walk hwalk).symm ▸ ht) halias
  · exact R.pure none

theorem one {f : Forest} {resolve : Resolver m} {resolve' : Resolver n}
    (h : ∀ here site, (f.aliasAt? site).isSome → R.Holds (resolve here site) (resolve' here site))
    (trees : List Nat) (here : Name) (segment : String) :
    R.Holds (one f trees resolve here segment) (one f trees resolve' here segment) :=
  R.one_of_mem (fun here site _ ↦ h here site) here segment

variable {find : Finder m} {find' : Finder n}

theorem onward (h : ∀ here segment, R.Holds (find here segment) (find' here segment))
    (resolved : Name) (segments : List String) :
    R.Holds (onward find resolved segments) (onward find' resolved segments) := by
  induction segments generalizing resolved with
  | nil => exact R.pure _
  | cons segment segments ih =>
    apply R.bind (h resolved segment)
    intro found
    cases found with
    | none => exact R.pure _
    | some found => exact ih found

theorem within (h : ∀ here segment, R.Holds (find here segment) (find' here segment))
    (places : List Name) (segments : List String) :
    R.Holds (within find places segments) (within find' places segments) := by
  cases segments with
  | nil => exact R.pure _
  | cons segment segments =>
    apply R.bind (R.first fun here _ ↦ h here segment)
    intro found
    cases found with
    | none => exact R.pure _
    | some found => exact R.onward h found segments

/-- A whole name. -/
theorem name (h : ∀ here segment, R.Holds (find here segment) (find' here segment)) (here : Name)
    (count : Nat) (segments : List String) (declaration : Bool) :
    R.Holds (name find here count segments declaration)
      (name find' here count segments declaration) := by
  cases segments with
  | nil => exact R.pure _
  | cons segment segments =>
    unfold Qualify.name
    dsimp only
    split_ifs
    · exact R.pure _
    · exact R.pure _
    · exact R.within h _ _
    · exact R.within h _ _
    · exact R.within h _ _

/-- A whole search, where the relation has to hold for the aliases that there are. -/
theorem search (f : Forest) {resolve : Resolver m} {resolve' : Resolver n}
    (h : ∀ here site, (f.aliasAt? site).isSome → R.Holds (resolve here site) (resolve' here site))
    (trees : List Nat) (here : Name) (count : Nat) (segments : List String) (declaration : Bool) :
    R.Holds (Qualify.name (Qualify.one f trees resolve) here count segments declaration)
      (Qualify.name (Qualify.one f trees resolve') here count segments declaration) :=
  R.name (R.one h trees) here count segments declaration

end Link

section Places

variable {m : Type → Type} [Monad m] (find : Finder m) {here : Name} {segment : String}

theorem outward_succ (here : Name) {count : Nat} (hcount : 1 ≤ count) :
    outward here (count + 1) = here.take (count + 1) :: outward here count := by
  rw [outward, outward, Nat.max_eq_left (Nat.le_add_left 1 count), Nat.max_eq_left hcount,
    List.range_succ, List.reverse_append, List.reverse_singleton, List.singleton_append,
    List.map_cons]

/-- The innermost place comes first. -/
theorem take_one_outward (here : Name) {count : Nat} (hcount : 1 ≤ count) :
    (outward here count).take 1 = [here.take count] := by
  obtain ⟨count, rfl⟩ := Nat.exists_eq_add_of_le' hcount
  cases count with
  | zero => rfl
  | succ count =>
    rw [outward_succ here (Nat.le_add_left 1 count), List.take_succ_cons, List.take_zero]

theorem name_global (hhere : here.segments ≠ []) (count : Nat) (rest : List String)
    (declaration : Bool) :
    name find here count ("" :: rest) declaration = within find [here.take 1] rest := by
  simp [name, hhere]

theorem name_here (hhere : here.segments ≠ []) (hsegment : segment ≠ "") (count : Nat)
    (rest : List String) (declaration : Bool) :
    name find here count (segment :: rest) declaration =
      within find
        (if declaration then (outward here (min count here.length)).take 1
          else outward here (min count here.length)) (segment :: rest) := by
  simp [name, hhere, hsegment]

theorem name_use (hhere : here.segments ≠ []) (hsegment : segment ≠ "") (count : Nat)
    (rest : List String) :
    name find here count (segment :: rest) false =
      within find (outward here (min count here.length)) (segment :: rest) :=
  name_here find hhere hsegment count rest false

/-- A declaration looks where it is written. -/
theorem name_declared (hhere : here.segments ≠ []) (hsegment : segment ≠ "") {count : Nat}
    (hcount : 1 ≤ count) (rest : List String) :
    name find (here.take count) count (segment :: rest) true =
      within find [here.take count] (segment :: rest) := by
  have hlength : (here.take count).length = min count here.length := by
    simp [Name.length, Name.take]
  have hpos : 1 ≤ min count here.length := by
    have hhere' := List.length_pos_iff.2 hhere
    rw [Name.length]
    omega
  have hplace : (here.take count).segments ≠ [] := by
    rw [← List.length_pos_iff, ← Name.length, hlength]
    exact hpos
  have htake : (here.take count).take (min count here.length) = here.take count := by
    rw [← hlength]
    exact congrArg Name.mk List.take_length
  rw [name_here find hplace hsegment, if_pos rfl, hlength, ← Nat.min_assoc, Nat.min_self,
    take_one_outward _ hpos, htake]

end Places

variable {f : Forest} {site : AliasSite}

/-- What resolving an alias does. -/
theorem run_target (f : Forest) (trees : List Nat) (idle : List AliasSite) (here : Name)
    (site : AliasSite) (findings : Findings) :
    (target f trees idle here site).run findings =
      match f.settled? site findings with
      | some target => (target, findings)
      | none =>
        if site ∈ idle then
          let found := (name (f.finder trees (without site idle)) here here.length
            (f.writtenAt site) false).run findings
          (found.1.toOption, (site, found.1.toOption) :: found.2)
        else (none, findings) := by
  rw [target, StateT.run_bind, StateT.run_get]
  change StateT.run _ findings = _
  cases f.settled? site findings with
  | some target => rfl
  | none =>
    by_cases hidle : site ∈ idle
    · simp only [hidle, if_true, dif_pos]
      rfl
    · simp only [hidle, if_false, dif_neg, not_false_eq_true]
      rfl

/-- What the first findings settle, the second settle in the same way. -/
def Extends (f : Forest) (before after : Findings) : Prop :=
  ∀ site target, f.settled? site before = some target → f.settled? site after = some target

theorem Extends.refl (f : Forest) (findings : Findings) : Extends f findings findings :=
  fun _ _ h ↦ h

theorem Extends.trans {a b c : Findings} (hab : Extends f a b) (hbc : Extends f b c) :
    Extends f a c := fun site target h ↦ hbc site target (hab site target h)

theorem settled?_cons_self {before : Findings} (hpending : f.settled? site before = none)
    (target : Option Name) (findings : Findings) :
    f.settled? site ((site, target) :: findings) = some target := by
  rw [Forest.settled?_eq] at hpending ⊢
  rw [(Option.or_eq_none_iff.1 hpending).1, List.lookup_cons_self]
  rfl

theorem settled?_cons_of_ne {other : AliasSite} (hother : other ≠ site) (target : Option Name)
    (findings : Findings) :
    f.settled? other ((site, target) :: findings) = f.settled? other findings := by
  rw [Forest.settled?_eq, Forest.settled?_eq, List.lookup_cons, beq_false_of_ne hother]

/-- A search only adds findings, and only about the aliases in `idle`. -/
def growth (f : Forest) (idle : List AliasSite) : Link (StateM Findings) (StateM Findings) where
  Holds x _ := ∀ findings, Extends f findings (x.run findings).2 ∧
    ∀ site ∉ idle, f.settled? site (x.run findings).2 = f.settled? site findings
  pure _ findings := ⟨.refl f findings, fun _ _ ↦ rfl⟩
  bind {_ _ x _ k _} hx hk findings := by
    obtain ⟨hextends, hkept⟩ := hx findings
    obtain ⟨hextends', hkept'⟩ := hk (x.run findings).1 (x.run findings).2
    refine ⟨hextends.trans hextends', fun site hsite ↦ ?_⟩
    exact (hkept' site hsite).trans (hkept site hsite)

theorem growth_target (f : Forest) (trees : List Nat) (idle : List AliasSite) (here : Name)
    (site : AliasSite) :
    (growth f idle).Holds (target f trees idle here site) (target f trees idle here site) := by
  induction hlength : idle.length using Nat.strongRecOn generalizing idle here site with
  | ind length ih =>
    intro findings
    rw [run_target]
    cases hsettled : f.settled? site findings with
    | some target => exact ⟨.refl f findings, fun _ _ ↦ rfl⟩
    | none =>
      by_cases hidle : site ∈ idle
      · rw [if_pos hidle]
        have hshorter : (without site idle).length < length := hlength ▸ length_without_lt hidle
        have hinner := (growth f (without site idle)).search f
          (fun here' site' _ ↦ ih _ hshorter (without site idle) here' site' rfl) trees here
          here.length (f.writtenAt site) false findings
        constructor
        · intro other target hother
          have hne : other ≠ site := by
            rintro rfl
            rw [hsettled] at hother
            cases hother
          exact (settled?_cons_of_ne hne _ _).trans (hinner.1 other target hother)
        · intro other hother
          have hne : other ≠ site := fun h ↦ hother (h ▸ hidle)
          have hwithout : other ∉ without site idle := fun h ↦ hother (List.mem_filter.1 h).1
          exact (settled?_cons_of_ne hne _ _).trans (hinner.2 other hwithout)
      · rw [if_neg hidle]
        exact ⟨.refl f findings, fun _ _ ↦ rfl⟩

/-- A whole search only adds findings about the aliases in `idle`. -/
theorem growth_name (f : Forest) (trees : List Nat) (idle : List AliasSite) (here : Name)
    (count : Nat) (segments : List String) (declaration : Bool) :
    (growth f idle).Holds (name (f.finder trees idle) here count segments declaration)
      (name (f.finder trees idle) here count segments declaration) :=
  (growth f idle).search f (fun here site _ ↦ growth_target f trees idle here site) trees here count
    segments declaration

/-- A search on behalf of an alias finds out nothing about that alias. -/
theorem lookup_of_without {findings : Findings} (hpending : f.settled? site findings = none)
    (trees : List Nat) (idle : List AliasSite) (here : Name) (count : Nat) (segments : List String)
    (declaration : Bool) :
    ((name (f.finder trees (without site idle)) here count segments declaration).run
      findings).2.lookup site = none := by
  have hkept := (growth_name f trees (without site idle) here count segments declaration findings).2
    site (by simp [without])
  rw [hpending, Forest.settled?_eq] at hkept
  exact (Option.or_eq_none_iff.1 hkept).2

end Qualify

namespace Forest

/-- The search for a name in a forest, with what it finds out. -/
def search (f : Forest) (t : Nat) (here : Name) (count : Nat) (segments : List String)
    (declaration : Bool) : Except PartialName Name × Findings :=
  (Qualify.name (f.finder (f.order t) f.idleAliases) here count segments declaration).run []

theorem qualify_eq (f : Forest) (t : Nat) (here : Name) (count : Nat) (segments : List String)
    (declaration : Bool) :
    f.qualify t here count segments declaration =
      ((f.search t here count segments declaration).1,
        f.record (f.search t here count segments declaration).2) := rfl

end Forest

end Harvest
