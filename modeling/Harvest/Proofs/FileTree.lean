import Harvest.FileTree
import Mathlib.Tactic.SplitIfs

/-!
# Ways through a file tree

Where a list of steps leads, as a relation that also counts the links on the way. Following a path
finds exactly the ways over not too many links. Ways can be put together and taken apart, which the
function that follows them does not show: at a link it goes on with other steps.
-/

namespace Harvest.FileTree

/-- Something can be walked through only if it is a directory. -/
def IsDirectory (t : FileTree) (location : Location) : Prop :=
  (t.entry? location).any Entry.isDirectory = true

/-- Steps that stay where they are. -/
def IsBlank (step : String) : Prop := step = "" ∨ step = "."

instance (step : String) : Decidable (IsBlank step) := inferInstanceAs (Decidable (_ ∨ _))

/-- A step into a directory. -/
def IsName (step : String) : Prop := ¬IsBlank step ∧ step ≠ ".."

instance (step : String) : Decidable (IsName step) := inferInstanceAs (Decidable (_ ∧ _))

/-- From `here`, the steps lead over `n` links to `there`. -/
inductive Leads (t : FileTree) : Location → List String → Nat → Location → Prop
  | arrived (here : Location) : Leads t here [] 0 here
  | stay {here there step steps n} (hdirectory : t.IsDirectory here) (hstep : IsBlank step)
      (hrest : Leads t here steps n there) : Leads t here (step :: steps) n there
  | up {here there steps n} (hdirectory : t.IsDirectory here)
      (hrest : Leads t here.dropLast steps n there) : Leads t here (".." :: steps) n there
  | enter {here there step steps n e} (hdirectory : t.IsDirectory here) (hstep : IsName step)
      (hentry : t.entry? (here ++ [step]) = some e) (hlink : ∀ target, e ≠ .link target)
      (hrest : Leads t (here ++ [step]) steps n there) : Leads t here (step :: steps) n there
  | jump {here there step rest n target} (hdirectory : t.IsDirectory here) (hstep : IsName step)
      (hentry : t.entry? (here ++ [step]) = some (.link target)) (htarget : target ≠ "")
      (hrest : Leads t (start here ⟨target⟩) (steps ⟨target⟩ ++ rest) n there) :
      Leads t here (step :: rest) (n + 1) there

variable {t : FileTree} {here there mid : Location} {step : String} {xs ys : List String}
  {n m : Nat}

namespace Leads

theorem isDirectory (h : t.Leads here (step :: xs) n there) : t.IsDirectory here := by
  cases h <;> assumption

theorem append (h : t.Leads here xs n mid) (h' : t.Leads mid ys m there) :
    t.Leads here (xs ++ ys) (n + m) there := by
  induction h with
  | arrived => rwa [List.nil_append, Nat.zero_add]
  | stay hdirectory hstep _ ih => exact .stay hdirectory hstep (ih h')
  | up hdirectory _ ih => exact .up hdirectory (ih h')
  | enter hdirectory hstep hentry hlink _ ih => exact .enter hdirectory hstep hentry hlink (ih h')
  | jump hdirectory hstep hentry htarget _ ih =>
    rw [Nat.add_right_comm]
    exact .jump hdirectory hstep hentry htarget (List.append_assoc _ _ _ ▸ ih h')

theorem exists_of_append (h : t.Leads here (xs ++ ys) n there) :
    ∃ mid k m, t.Leads here xs k mid ∧ t.Leads mid ys m there ∧ k + m = n := by
  generalize hsteps : xs ++ ys = steps at h
  induction h generalizing xs with
  | arrived here =>
    obtain ⟨rfl, rfl⟩ := List.append_eq_nil_iff.1 hsteps
    exact ⟨here, 0, 0, .arrived here, .arrived here, rfl⟩
  | @stay here there step steps n hdirectory hstep hrest ih =>
    cases xs with
    | nil =>
      obtain rfl : ys = step :: steps := hsteps
      exact ⟨here, 0, n, .arrived here, .stay hdirectory hstep hrest, n.zero_add⟩
    | cons x xs =>
      obtain ⟨rfl, rfl⟩ := List.cons.inj hsteps
      obtain ⟨mid, k, m, hxs, hys, hn⟩ := ih rfl
      exact ⟨mid, k, m, .stay hdirectory hstep hxs, hys, hn⟩
  | @up here there steps n hdirectory hrest ih =>
    cases xs with
    | nil =>
      obtain rfl : ys = ".." :: steps := hsteps
      exact ⟨here, 0, n, .arrived here, .up hdirectory hrest, n.zero_add⟩
    | cons x xs =>
      obtain ⟨rfl, rfl⟩ := List.cons.inj hsteps
      obtain ⟨mid, k, m, hxs, hys, hn⟩ := ih rfl
      exact ⟨mid, k, m, .up hdirectory hxs, hys, hn⟩
  | @enter here there step steps n e hdirectory hstep hentry hlink hrest ih =>
    cases xs with
    | nil =>
      obtain rfl : ys = step :: steps := hsteps
      exact ⟨here, 0, n, .arrived here, .enter hdirectory hstep hentry hlink hrest, n.zero_add⟩
    | cons x xs =>
      obtain ⟨rfl, rfl⟩ := List.cons.inj hsteps
      obtain ⟨mid, k, m, hxs, hys, hn⟩ := ih rfl
      exact ⟨mid, k, m, .enter hdirectory hstep hentry hlink hxs, hys, hn⟩
  | @jump here there step rest n target hdirectory hstep hentry htarget hrest ih =>
    cases xs with
    | nil =>
      obtain rfl : ys = step :: rest := hsteps
      exact ⟨here, 0, n + 1, .arrived here, .jump hdirectory hstep hentry htarget hrest,
        (n + 1).zero_add⟩
    | cons x xs =>
      obtain ⟨rfl, rfl⟩ := List.cons.inj hsteps
      obtain ⟨mid, k, m, hxs, hys, rfl⟩ := ih (List.append_assoc _ _ _)
      exact ⟨mid, k + 1, m, .jump hdirectory hstep hentry htarget hxs, hys,
        Nat.add_right_comm k 1 m⟩

/-- Steps that stay where they are can be left out. -/
theorem filter_blank (h : t.Leads here xs n there) :
    t.Leads here (xs.filter fun step ↦ ¬IsBlank step) n there := by
  induction xs generalizing here n with
  | nil => exact h
  | cons step xs ih =>
    by_cases hstep : IsBlank step
    · rw [List.filter_cons_of_neg (by simpa using hstep)]
      cases h with
      | stay _ _ hrest => exact ih hrest
      | up => exact absurd hstep (by decide)
      | enter _ hname => exact absurd hstep hname.1
      | jump _ hname => exact absurd hstep hname.1
    · rw [List.filter_cons_of_pos (by simpa using hstep), ← List.singleton_append]
      rw [← List.singleton_append] at h
      obtain ⟨mid, k, m, hone, hrest, rfl⟩ := exists_of_append h
      exact hone.append (ih hrest)

end Leads

section Steps

variable {links : Nat}

theorem follow_blank (hdirectory : t.IsDirectory here) (hstep : IsBlank step) :
    t.follow links true here (step :: xs) = t.follow links true here xs := by
  unfold IsDirectory at hdirectory
  unfold IsBlank at hstep
  cases links <;> simp [follow, followWith, hdirectory, hstep]

theorem follow_up (hdirectory : t.IsDirectory here) :
    t.follow links true here (".." :: xs) = t.follow links true here.dropLast xs := by
  unfold IsDirectory at hdirectory
  cases links <;> simp [follow, followWith, hdirectory]

theorem follow_enter {e : Entry} (hdirectory : t.IsDirectory here) (hstep : IsName step)
    (hentry : t.entry? (here ++ [step]) = some e) (hlink : ∀ target, e ≠ .link target) :
    t.follow links true here (step :: xs) = t.follow links true (here ++ [step]) xs := by
  unfold IsDirectory at hdirectory
  simp only [IsName, IsBlank, not_or] at hstep
  cases e with
  | link target => exact absurd rfl (hlink target)
  | file bytes => cases links <;> simp [follow, followWith, hdirectory, hstep, hentry]
  | locked => cases links <;> simp [follow, followWith, hdirectory, hstep, hentry]
  | directory => cases links <;> simp [follow, followWith, hdirectory, hstep, hentry]

/-- A link takes one of the links that are left, if there is one. -/
theorem follow_jump {target : String} (hdirectory : t.IsDirectory here) (hstep : IsName step)
    (hentry : t.entry? (here ++ [step]) = some (.link target)) :
    t.follow links true here (step :: xs) =
      match links with
      | 0 => .error .tooManyLinks
      | links + 1 =>
        if target = "" then .error .missing
        else t.follow links true (start here ⟨target⟩) (steps ⟨target⟩ ++ xs) := by
  unfold IsDirectory at hdirectory
  simp only [IsName, IsBlank, not_or] at hstep
  cases links <;> simp [follow, followWith, hdirectory, hstep, hentry]

/-- What steps that can be followed begin with. -/
theorem of_follow_cons (h : t.follow links true here (step :: xs) = .ok there) :
    t.IsDirectory here ∧ (IsName step → ∃ e, t.entry? (here ++ [step]) = some e) := by
  unfold IsDirectory IsName IsBlank
  cases hdirectory : (t.entry? here).any Entry.isDirectory with
  | false => cases links <;> simp [follow, followWith, hdirectory] at h
  | true =>
    refine ⟨rfl, fun hstep ↦ ?_⟩
    simp only [not_or] at hstep
    cases hentry : t.entry? (here ++ [step]) with
    | none => cases links <;> simp [follow, followWith, hdirectory, hstep, hentry] at h
    | some e => exact ⟨e, rfl⟩

end Steps

theorem Leads.follow (h : t.Leads here xs n there) {links : Nat} (hlinks : n ≤ links) :
    t.follow links true here xs = .ok there := by
  induction h generalizing links with
  | arrived => cases links <;> rfl
  | stay hdirectory hstep _ ih => rw [follow_blank hdirectory hstep, ih hlinks]
  | up hdirectory _ ih => rw [follow_up hdirectory, ih hlinks]
  | enter hdirectory hstep hentry hlink _ ih =>
    rw [follow_enter hdirectory hstep hentry hlink, ih hlinks]
  | jump hdirectory hstep hentry htarget _ ih =>
    obtain ⟨links, rfl⟩ := Nat.exists_eq_succ_of_ne_zero (Nat.ne_zero_of_lt hlinks)
    rw [follow_jump hdirectory hstep hentry]
    dsimp only
    rw [if_neg htarget, ih (Nat.le_of_succ_le_succ hlinks)]

theorem exists_leads_of_follow {links : Nat} (h : t.follow links true here xs = .ok there) :
    ∃ n ≤ links, t.Leads here xs n there := by
  -- On the links that are left, and for as many of them on the steps.
  induction links using Nat.strongRecOn generalizing here xs with
  | _ links ihLinks =>
  induction xs generalizing here with
  | nil =>
    have hok : t.follow links true here [] = .ok here := (Leads.arrived here).follow links.zero_le
    obtain rfl : here = there := Except.ok.inj (hok.symm.trans h)
    exact ⟨0, links.zero_le, .arrived here⟩
  | cons step xs ihSteps =>
    obtain ⟨hdirectory, hexists⟩ := of_follow_cons h
    by_cases hblank : IsBlank step
    · rw [follow_blank hdirectory hblank] at h
      obtain ⟨n, hn, hrest⟩ := ihSteps h
      exact ⟨n, hn, .stay hdirectory hblank hrest⟩
    by_cases hup : step = ".."
    · subst hup
      rw [follow_up hdirectory] at h
      obtain ⟨n, hn, hrest⟩ := ihSteps h
      exact ⟨n, hn, .up hdirectory hrest⟩
    obtain ⟨e, hentry⟩ := hexists ⟨hblank, hup⟩
    by_cases hlink : ∃ target, e = .link target
    · obtain ⟨target, rfl⟩ := hlink
      rw [follow_jump hdirectory ⟨hblank, hup⟩ hentry] at h
      cases links with
      | zero => cases h
      | succ links =>
        dsimp only at h
        split_ifs at h with htarget
        obtain ⟨n, hn, hrest⟩ := ihLinks links (Nat.lt_succ_self links) h
        exact ⟨n + 1, Nat.succ_le_succ hn, .jump hdirectory ⟨hblank, hup⟩ hentry htarget hrest⟩
    · have hlink : ∀ target, e ≠ .link target := fun target heq ↦ hlink ⟨target, heq⟩
      rw [follow_enter hdirectory ⟨hblank, hup⟩ hentry hlink] at h
      obtain ⟨n, hn, hrest⟩ := ihSteps h
      exact ⟨n, hn, .enter hdirectory ⟨hblank, hup⟩ hentry hlink hrest⟩

/-- Following steps finds the ways over not too many links. -/
theorem follow_eq_ok_iff {links : Nat} :
    t.follow links true here xs = .ok there ↔ ∃ n ≤ links, t.Leads here xs n there :=
  ⟨exists_leads_of_follow, fun ⟨_, hlinks, h⟩ ↦ h.follow hlinks⟩

end Harvest.FileTree
