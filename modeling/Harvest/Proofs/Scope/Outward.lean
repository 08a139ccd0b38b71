import Harvest.Proofs.Scope.Settling
import Mathlib.Data.Nat.Basic
import Mathlib.Order.Bounds.Defs
import Mathlib.Order.Interval.Set.Defs

/-!
# Uses and declarations

A use looks outward, through the enclosing scopes, and a declaration looks in one place. Both go on
in the same way from where they find the first segment of a name. A search may find out what aliases
stand for, so that two searches are compared in the forest that the first one leaves, in which it
finds out nothing any more. Main statement: a use is resolved like a declaration in the innermost
scope where its first segment is found, and a name that is resolved in part is resolved as far as
its segments go.
-/

namespace Harvest

namespace Qualify

/-- The answer is `b`, and nothing is found out. -/
def Quiet {β : Type} (x : StateM Findings β) (b : β) : Prop := x.run [] = (b, [])

/-- Findings are kept as they are, and others are put before them. -/
def adds : Link (StateM Findings) (StateM Findings) where
  Holds x _ := ∀ findings, findings <:+ (x.run findings).2
  pure _ _ := List.suffix_rfl
  bind {_ _ x _ _ _} hx hk findings := (hx findings).trans (hk (x.run findings).1 _)

theorem adds_target (f : Forest) (trees : List Nat) (idle : List AliasSite) (here : Name)
    (site : AliasSite) :
    adds.Holds (target f trees idle here site) (target f trees idle here site) := by
  induction hlength : idle.length using Nat.strongRecOn generalizing idle here site with
  | ind length ih =>
    intro findings
    rw [run_target]
    cases f.settled? site findings with
    | some target => exact List.suffix_rfl
    | none =>
      by_cases hidle : site ∈ idle
      · have hshorter : (without site idle).length < length := hlength ▸ length_without_lt hidle
        have hinner := adds.search f
          (fun here' site' _ ↦ ih _ hshorter (without site idle) here' site' rfl) trees here
          here.length (f.writtenAt site) false findings
        rw [if_pos hidle]
        exact hinner.trans (List.suffix_cons _ _)
      · rewrite [if_neg hidle]
        exact List.suffix_rfl

theorem adds_finder (f : Forest) (trees : List Nat) (idle : List AliasSite) (here : Name)
    (segment : String) :
    adds.Holds (f.finder trees idle here segment) (f.finder trees idle here segment) :=
  adds.one (fun here site _ ↦ adds_target f trees idle here site) trees here segment

namespace Quiet

variable {β γ : Type} {x : StateM Findings β} {k : β → StateM Findings γ} {b b' : β} {c : γ}

theorem pure_iff : Quiet (pure b : StateM Findings β) b' ↔ b = b' := by
  constructor
  · intro h
    exact congrArg Prod.fst h
  · rintro rfl
    rfl

theorem bind (hx : Quiet x b) (hk : Quiet (k b) c) : Quiet (x >>= k) c := by
  rw [Quiet, StateT.run_bind, hx]
  exact hk

/-- Where nothing is found out, nothing is found out on the way. -/
theorem of_bind (hk : ∀ b, adds.Holds (k b) (k b)) (h : Quiet (x >>= k) c) :
    ∃ b, Quiet x b ∧ Quiet (k b) c := by
  rw [Quiet, StateT.run_bind] at h
  have hrun : (k (x.run []).1).run (x.run []).2 = (c, []) := h
  have hnothing : (x.run []).2 = [] := by
    have hadded := hk (x.run []).1 (x.run []).2
    rw [hrun] at hadded
    exact List.suffix_nil.1 hadded
  rw [hnothing] at hrun
  exact ⟨(x.run []).1, Prod.ext rfl hnothing, hrun⟩

end Quiet

section First

variable {here : Name} {count : Nat} {look : Name → StateM Findings (Option Name)}
  {found : Option Name}

theorem Quiet.of_first (hlook : ∀ n, adds.Holds (look n) (look n)) {a : Name} {as : List Name}
    (h : Quiet (first look (a :: as)) found) :
    (found.isSome ∧ Quiet (look a) found) ∨
      (Quiet (look a) none ∧ Quiet (first look as) found) := by
  refine (Quiet.of_bind ?_ h).elim ?_
  · rintro (_ | b)
    · exact adds.first fun n _ ↦ hlook n
    · exact adds.pure (some b)
  · rintro (_ | b) ⟨ha, hrest⟩
    · exact .inr ⟨ha, hrest⟩
    · obtain rfl := Quiet.pure_iff.1 hrest
      exact .inl ⟨rfl, ha⟩

/-- Looking outward stops at the innermost place with an answer. -/
theorem Quiet.of_outward (hlook : ∀ n, adds.Holds (look n) (look n)) (hcount : 1 ≤ count)
    (h : Quiet (first look (outward here count)) found) :
    (found = none ∧ ∀ k ∈ Set.Icc 1 count, Quiet (look (here.take k)) none) ∨
      ∃ k ∈ Set.Icc 1 count, found.isSome ∧ Quiet (look (here.take k)) found ∧
        ∀ i ∈ Set.Ioc k count, Quiet (look (here.take i)) none := by
  induction count, hcount using Nat.le_induction with
  | base =>
    rcases h.of_first hlook with ⟨hfound, hhere⟩ | ⟨hhere, hrest⟩
    · refine .inr ⟨1, ⟨Nat.le_refl 1, Nat.le_refl 1⟩, hfound, hhere, fun i hi ↦ ?_⟩
      exact (Nat.not_lt.2 hi.2 hi.1).elim
    · refine .inl ⟨(Quiet.pure_iff.1 hrest).symm, fun k hk ↦ ?_⟩
      rwa [Nat.le_antisymm hk.2 hk.1]
  | succ count hcount ih =>
    rw [outward_succ here hcount] at h
    rcases h.of_first hlook with ⟨hfound, hhere⟩ | ⟨hhere, hrest⟩
    · refine .inr ⟨count + 1, ⟨Nat.le_add_left 1 count, Nat.le_refl _⟩, hfound, hhere, ?_⟩
      exact fun i hi ↦ (Nat.not_lt.2 hi.2 hi.1).elim
    · rcases ih hrest with ⟨hnone, hall⟩ | ⟨k, hk, hfound, hat, habove⟩
      · refine .inl ⟨hnone, fun k hk ↦ ?_⟩
        rcases Nat.le_succ_iff.1 hk.2 with hle | rfl
        · exact hall k ⟨hk.1, hle⟩
        · exact hhere
      · refine .inr ⟨k, ⟨hk.1, Nat.le_succ_of_le hk.2⟩, hfound, hat, fun i hi ↦ ?_⟩
        rcases Nat.le_succ_iff.1 hi.2 with hle | rfl
        · exact habove i ⟨hi.1, hle⟩
        · exact hhere

end First

section Segments

variable {find : Finder (StateM Findings)} {n m : Name} {places : List Name}
  {segment : String} {segments more : List String} {left : PartialName}
  {outcome : Except PartialName Name}

theorem Quiet.of_onward (hfind : ∀ n s, adds.Holds (find n s) (find n s))
    (h : Quiet (onward find n (segment :: segments)) outcome) :
    (∃ m, Quiet (find n segment) (some m) ∧ Quiet (onward find m segments) outcome) ∨
      (Quiet (find n segment) none ∧ outcome = .error ⟨n, segment :: segments⟩) := by
  refine (Quiet.of_bind ?_ h).elim ?_
  · rintro (_ | m)
    · exact adds.pure _
    · exact adds.onward hfind m segments
  · rintro (_ | m) ⟨ha, hrest⟩
    · exact .inr ⟨ha, (Quiet.pure_iff.1 hrest).symm⟩
    · exact .inl ⟨m, ha, hrest⟩

theorem Quiet.onward_none (h : Quiet (find n segment) none) :
    Quiet (onward find n (segment :: segments)) (.error ⟨n, segment :: segments⟩) :=
  h.bind rfl

theorem Quiet.onward_append (h : ∀ n s, adds.Holds (find n s) (find n s))
    (hfirst : Quiet (onward find n segments) (.ok m)) (hmore : Quiet (onward find m more) outcome) :
    Quiet (onward find n (segments ++ more)) outcome := by
  induction segments generalizing n with
  | nil =>
    obtain rfl : n = m := Except.ok.inj (Quiet.pure_iff.1 hfirst)
    exact hmore
  | cons segment segments ih =>
    rcases hfirst.of_onward h with ⟨k, hk, hrest⟩ | ⟨-, herror⟩
    · exact hk.bind (ih hrest)
    · cases herror

/-- What is resolved in part is resolved as far as its segments go. -/
theorem Quiet.onward_error (hfind : ∀ n s, adds.Holds (find n s) (find n s))
    (h : Quiet (onward find n segments) (.error left)) :
    ∃ known segment more, segments = known ++ segment :: more ∧
      left.unresolved = segment :: more ∧ Quiet (onward find n known) (.ok left.resolved) ∧
      Quiet (find left.resolved segment) none := by
  induction segments generalizing n with
  | nil => cases Quiet.pure_iff.1 h
  | cons segment segments ih =>
    rcases h.of_onward hfind with ⟨m, hm, hrest⟩ | ⟨hnone, herror⟩
    · obtain ⟨known, last, more, rfl, hunresolved, hknown, hlast⟩ := ih hrest
      exact ⟨segment :: known, last, more, rfl, hunresolved, hm.bind hknown, hlast⟩
    · obtain rfl := Except.error.inj herror
      exact ⟨[], segment, segments, rfl, rfl, rfl, hnone⟩

theorem Quiet.of_within (hfind : ∀ n s, adds.Holds (find n s) (find n s))
    (h : Quiet (within find places (segment :: segments)) outcome) :
    (∃ n, Quiet (first (fun here ↦ find here segment) places) (some n) ∧
        Quiet (onward find n segments) outcome) ∨
      (Quiet (first (fun here ↦ find here segment) places) none ∧
        outcome = .error ⟨Name.root, segment :: segments⟩) := by
  refine (Quiet.of_bind ?_ h).elim ?_
  · rintro (_ | n)
    · exact adds.pure _
    · exact adds.onward hfind n segments
  · rintro (_ | n) ⟨hfirst, hrest⟩
    · exact .inr ⟨hfirst, (Quiet.pure_iff.1 hrest).symm⟩
    · exact .inl ⟨n, hfirst, hrest⟩

/-- The longest resolved beginning of a name, and the segment after it. -/
theorem Quiet.within_error (hfind : ∀ n s, adds.Holds (find n s) (find n s))
    (h : Quiet (within find places segments) (.error left)) :
    ∃ known segment more, segments = known ++ segment :: more ∧
      left.unresolved = segment :: more ∧ (known = [] → left.resolved = Name.root) ∧
      Quiet (within find places known) (.ok left.resolved) ∧
      Quiet (within find places (known ++ [segment])) (.error ⟨left.resolved, [segment]⟩) := by
  cases segments with
  | nil => cases Quiet.pure_iff.1 h
  | cons segment segments =>
    rcases h.of_within hfind with ⟨n, hfirst, hrest⟩ | ⟨hnone, herror⟩
    · obtain ⟨known, last, more, rfl, hunresolved, hknown, hlast⟩ := hrest.onward_error hfind
      refine ⟨segment :: known, last, more, rfl, hunresolved, nofun, hfirst.bind hknown, ?_⟩
      exact hfirst.bind (hknown.onward_append hfind hlast.onward_none)
    · obtain rfl := Except.error.inj herror
      exact ⟨[], segment, segments, rfl, rfl, fun _ ↦ rfl, rfl, hnone.bind rfl⟩

/-- A use goes on from the innermost place where its first segment is found. -/
theorem Quiet.of_name_use (hfind : ∀ n s, adds.Holds (find n s) (find n s))
    {here : Name} {count : Nat} (hhere : here.segments ≠ []) (hcount : 1 ≤ count)
    (hsegment : segment ≠ "")
    (h : Quiet (name find here count (segment :: segments) false) outcome) :
    (outcome = .error ⟨Name.root, segment :: segments⟩ ∧
        ∀ k ∈ Set.Icc 1 (min count here.length), Quiet (find (here.take k) segment) none) ∨
      ∃ k ∈ Set.Icc 1 (min count here.length), ∃ n, Quiet (find (here.take k) segment) (some n) ∧
        Quiet (onward find n segments) outcome ∧
        ∀ i ∈ Set.Ioc k (min count here.length), Quiet (find (here.take i) segment) none := by
  have hplaces : 1 ≤ min count here.length := Nat.le_min.2 ⟨hcount, List.length_pos_iff.2 hhere⟩
  have hlook : ∀ n, adds.Holds (find n segment) (find n segment) := fun n ↦ hfind n segment
  rw [name_use find hhere hsegment] at h
  rcases h.of_within hfind with ⟨n, hfirst, hrest⟩ | ⟨hnone, herror⟩
  · rcases hfirst.of_outward hlook hplaces with ⟨hnone, -⟩ | ⟨k, hk, -, hat, habove⟩
    · cases hnone
    · exact .inr ⟨k, hk, n, hat, hrest, habove⟩
  · rcases hnone.of_outward hlook hplaces with ⟨-, hall⟩ | ⟨-, -, hsome, -⟩
    · exact .inl ⟨herror, hall⟩
    · cases hsome

/-- A declaration goes on from the place where it is written. -/
theorem Quiet.name_declared {here : Name} {k : Nat} (hhere : here.segments ≠ []) (hk : 1 ≤ k)
    (hsegment : segment ≠ "") (hat : Quiet (find (here.take k) segment) (some n))
    (hrest : Quiet (onward find n segments) outcome) :
    Quiet (name find (here.take k) k (segment :: segments) true) outcome := by
  rw [Qualify.name_declared find hhere hsegment hk]
  have hfirst : Quiet (first (fun here ↦ find here segment) [here.take k]) (some n) := hat.bind rfl
  exact hfirst.bind hrest

/-- Both a use and a declaration stop at the first segment that is not found. -/
theorem Quiet.name_error (hfind : ∀ n s, adds.Holds (find n s) (find n s)) {here : Name}
    {count : Nat} {declaration : Bool} (hhere : here.segments ≠ []) (hsegments : segments ≠ [])
    (h : Quiet (name find here count segments declaration) (.error left)) :
    ∃ known segment more, segments = known ++ segment :: more ∧
      left.unresolved = segment :: more ∧ (known = [] → left.resolved = Name.root) ∧
      (known ≠ [] → Quiet (name find here count known declaration) (.ok left.resolved)) ∧
      Quiet (name find here count (known ++ [segment]) declaration)
        (.error ⟨left.resolved, [segment]⟩) := by
  obtain ⟨leading, rest, rfl⟩ := List.exists_cons_of_ne_nil hsegments
  by_cases hleading : leading = ""
  · subst hleading
    rw [name_global find hhere] at h
    obtain ⟨known, segment, more, rfl, hunresolved, -, hknown, hlast⟩ := h.within_error hfind
    refine ⟨"" :: known, segment, more, rfl, hunresolved, nofun, fun _ ↦ ?_, ?_⟩
    · rwa [name_global find hhere]
    · rwa [List.cons_append, name_global find hhere]
  · -- All names with this first segment are looked for in the same places.
    obtain ⟨places, hplaces⟩ : ∃ places, ∀ more,
        name find here count (leading :: more) declaration = within find places (leading :: more) :=
      ⟨_, fun more ↦ name_here find hhere hleading count more declaration⟩
    rw [hplaces] at h
    obtain ⟨known, segment, more, hsplit, hunresolved, hroot, hknown, hlast⟩ := h.within_error hfind
    refine ⟨known, segment, more, hsplit, hunresolved, hroot, ?_, ?_⟩
    · intro hne
      obtain ⟨_, known, rfl⟩ := List.exists_cons_of_ne_nil hne
      obtain ⟨rfl, -⟩ := List.cons.inj hsplit
      rwa [hplaces]
    · cases known with
      | nil =>
        obtain ⟨rfl, -⟩ := List.cons.inj hsplit
        rwa [List.nil_append, hplaces]
      | cons _ known =>
        obtain ⟨rfl, -⟩ := List.cons.inj hsplit
        rwa [List.cons_append, hplaces]

end Segments

end Qualify

namespace Forest

open Qualify

theorem qualify_of_quiet {f : Forest} {t : Nat} {here : Name} {count : Nat} {segments : List String}
    {declaration : Bool} {outcome : Except PartialName Name}
    (h : Quiet (name (f.finder (f.order t) f.idleAliases) here count segments declaration)
      outcome) : f.qualify t here count segments declaration = (outcome, f) := by
  rw [qualify_eq, search, h]
  rfl

theorem qualifyOne_of_quiet {f : Forest} {t : Nat} {here : Name} {segment : String}
    {found : Option Name} (h : Quiet (f.finder (f.order t) f.idleAliases here segment) found) :
    (f.qualifyOne t here segment).1 = found :=
  congrArg Prod.fst h

/-- In the forest that resolving a name leaves: a use is resolved like a declaration in the
innermost scope in which its first segment is found, and not at all if there is none. A name with a
leading `::` depends on the global scope only. A name that is resolved in part is resolved up to the
first segment that is not found. -/
theorem qualify_outward (f : Forest) (t : Nat) {here : Name} (hhere : here.segments ≠ [])
    {count : Nat} (hcount : 1 ≤ count) (segment : String) (rest : List String)
    (declaration : Bool) :
    let once := f.qualify t here count (segment :: rest) declaration
    let places := {k | k ∈ Set.Icc 1 (min count here.length) ∧
      (once.2.qualifyOne t (here.take k) segment).1.isSome}
    (declaration = false → segment ≠ "" →
      (∀ k, IsGreatest places k →
        once.2.qualify t (here.take k) k (segment :: rest) true = once) ∧
      (places = ∅ → once.1 = .error ⟨Name.root, segment :: rest⟩)) ∧
    (segment = "" → ∀ here' : Name, here'.segments ≠ [] → here'.take 1 = here.take 1 →
      ∀ count' declaration', f.qualify t here' count' (segment :: rest) declaration' = once) ∧
    ∀ left, once.1 = .error left → ∃ known segment' more,
      segment :: rest = known ++ segment' :: more ∧ left.unresolved = segment' :: more ∧
      (known = [] → left.resolved = Name.root) ∧
      (known ≠ [] → once.2.qualify t here count known declaration = (.ok left.resolved, once.2)) ∧
      once.2.qualify t here count (known ++ [segment']) declaration =
        (.error ⟨left.resolved, [segment']⟩, once.2) := by
  intro once places
  have honce : Quiet (name (once.2.finder (once.2.order t) once.2.idleAliases) here count
      (segment :: rest) declaration) once.1 :=
    search_record f t here count (segment :: rest) declaration
  have hfind := adds_finder once.2 (once.2.order t) once.2.idleAliases
  refine ⟨fun huse hsegment ↦ ?_, fun hglobal here' hhere' hroot count' declaration' ↦ ?_,
    fun left hleft ↦ ?_⟩
  · rw [huse] at honce
    rcases honce.of_name_use hfind hhere hcount hsegment with
      ⟨herror, hnone⟩ | ⟨k, hk, n, hat, hrest, habove⟩
    · refine ⟨fun k hgreatest ↦ ?_, fun _ ↦ herror⟩
      have hfound := hgreatest.1.2
      rw [qualifyOne_of_quiet (hnone k hgreatest.1.1)] at hfound
      cases hfound
    · have hplace : k ∈ places := ⟨hk, by rw [qualifyOne_of_quiet hat, Option.isSome_some]⟩
      refine ⟨fun k' hgreatest ↦ ?_, fun hempty ↦ (hempty ▸ hplace : k ∈ (∅ : Set Nat)).elim⟩
      have hle : k' ≤ k := by
        by_contra hlt
        have hfound := hgreatest.1.2
        rw [qualifyOne_of_quiet (habove k' ⟨Nat.not_le.1 hlt, hgreatest.1.1.2⟩)] at hfound
        cases hfound
      obtain rfl : k' = k := Nat.le_antisymm hle (hgreatest.2 hplace)
      exact qualify_of_quiet (Quiet.name_declared hhere hk.1 hsegment hat hrest)
  · have hsame : f.search t here' count' (segment :: rest) declaration' =
        f.search t here count (segment :: rest) declaration := by
      rw [hglobal, search, search, name_global _ hhere, name_global _ hhere', hroot]
    rw [qualify_eq, hsame]
    rfl
  · rw [hleft] at honce
    obtain ⟨known, segment', more, hsplit, hunresolved, hroot, hknown, hlast⟩ :=
      honce.name_error hfind hhere (List.cons_ne_nil segment rest)
    refine ⟨known, segment', more, hsplit, hunresolved, hroot, ?_, qualify_of_quiet hlast⟩
    exact fun hne ↦ qualify_of_quiet (hknown hne)

/-- A class `A` with another name for a scope of the included file, and a class `B` inside. What is
settled about the aliases is left open. -/
def shelf (m x : Option (Option Name)) : Forest :=
  ⟨#[{ fileId := 0
       scopes := #[
        { definition := ⟨0, 0⟩
          children := [("A", 1)]
          aliases := [("M", { written := ⟨["N"]⟩, resolution := m })] },
        { definition := ⟨0, 1⟩
          children := [("B", 2)]
          aliases := [("X", { written := ⟨["M", "Y"]⟩, resolution := x })] },
        { definition := ⟨0, 2⟩ }]
       includes := [(1, 1)] },
     { fileId := 1
       scopes := #[
        { definition := ⟨1, 0⟩, children := [("N", 1)] },
        { definition := ⟨1, 1⟩, children := [("Y", 2)] },
        { definition := ⟨1, 2⟩ }] }]⟩

/-- In `B`, the first segment is found in `A`, where its target is settled over the other alias. -/
theorem qualify_outward_shelf :
    let here : Name := ⟨["", "A", "B"]⟩
    let once := (shelf none none).qualify 0 here 3 ["X", "Z"] false
    once = (.error ⟨⟨["", "N", "Y"]⟩, ["Z"]⟩,
        shelf (some (some ⟨["", "N"]⟩)) (some (some ⟨["", "N", "Y"]⟩))) ∧
      IsGreatest {k | k ∈ Set.Icc 1 3 ∧ (once.2.qualifyOne 0 (here.take k) "X").1.isSome} 2 ∧
      once.2.qualify 0 (here.take 2) 2 ["X", "Z"] true = once := by
  intro here once
  have honce : once = (.error ⟨⟨["", "N", "Y"]⟩, ["Z"]⟩,
      shelf (some (some ⟨["", "N"]⟩)) (some (some ⟨["", "N", "Y"]⟩))) := by
    change (shelf none none).qualify 0 ⟨["", "A", "B"]⟩ 3 ["X", "Z"] false = _
    decide +kernel
  have hgreatest :
      IsGreatest {k | k ∈ Set.Icc 1 3 ∧ (once.2.qualifyOne 0 (here.take k) "X").1.isSome} 2 := by
    rw [honce]
    refine ⟨⟨⟨by decide, by decide⟩, by decide +kernel⟩, ?_⟩
    rintro k ⟨hk, hfound⟩
    by_contra hlt
    obtain rfl : k = 3 := Nat.le_antisymm hk.2 (Nat.not_le.1 hlt)
    have hinside : ((shelf (some (some ⟨["", "N"]⟩)) (some (some ⟨["", "N", "Y"]⟩))).qualifyOne 0
        (here.take 3) "X").1 = none := by
      decide +kernel
    rw [hinside] at hfound
    cases hfound
  refine ⟨honce, hgreatest, ?_⟩
  have houtward := qualify_outward (shelf none none) 0 (by decide : here.segments ≠ [])
    (by decide : 1 ≤ 3) "X" ["Z"] false
  exact (houtward.1 rfl (by decide)).1 2 hgreatest

end Forest

end Harvest
