import Harvest.Include.Cache
import Mathlib.Data.List.Induction
import Mathlib.Tactic.SplitIfs

/-!
# Tables of groups

What the operations of a table do to the two questions that are asked of it: to which number a key
leads, and which group has a number. Every key leads to a group that is there, and the files of a
group are those whose keys lead to it, all under one snapshot. Main statement: a cycle takes the
groups that it meets out of the table, each once, and lets all their keys lead to a new one.
-/

namespace Harvest

namespace Forest

variable {key value : Nat} {entries : List (Nat × Nat)}

theorem mem_insertAbsent {i : Nat × Nat} (h : i ∈ insertAbsent key value entries) :
    i = (key, value) ∨ i ∈ entries := by
  induction entries with
  | nil => exact .inl (List.mem_singleton.1 h)
  | cons entry entries ih =>
    rw [insertAbsent] at h
    split_ifs at h
    · exact .inr h
    · exact List.mem_cons.1 h
    · rcases List.mem_cons.1 h with rfl | h
      · exact .inr List.mem_cons_self
      · exact (ih h).imp_right (List.mem_cons_of_mem _)

theorem subset_insertAbsent (key value : Nat) (entries : List (Nat × Nat)) :
    entries ⊆ insertAbsent key value entries := by
  induction entries with
  | nil => exact List.nil_subset _
  | cons entry entries ih =>
    rw [insertAbsent]
    split_ifs
    · exact List.Subset.refl _
    · exact List.subset_cons_self _ _
    · exact List.cons_subset_cons _ ih

/-- An entry is there afterwards, unless its key had another value. -/
theorem mem_insertAbsent_iff (h : ∀ i ∈ entries, i.1 = key → i.2 = value) (i : Nat × Nat) :
    i ∈ insertAbsent key value entries ↔ i = (key, value) ∨ i ∈ entries := by
  induction entries with
  | nil => exact List.mem_singleton.trans (by simp)
  | cons entry entries ih =>
    obtain ⟨k, v⟩ := entry
    rw [insertAbsent]
    split_ifs with heq
    · obtain rfl : v = value := h (k, v) List.mem_cons_self heq.symm
      subst heq
      simp
    · exact List.mem_cons
    · rw [List.mem_cons, ih fun i hi ↦ h i (List.mem_cons_of_mem _ hi), List.mem_cons]
      exact or_left_comm

theorem pairwise_insertAbsent (h : entries.Pairwise fun a b ↦ a.1 < b.1) :
    (insertAbsent key value entries).Pairwise fun a b ↦ a.1 < b.1 := by
  induction entries with
  | nil => exact List.pairwise_singleton _ _
  | cons entry entries ih =>
    obtain ⟨hfirst, hrest⟩ := List.pairwise_cons.1 h
    rw [insertAbsent]
    split_ifs with heq hlt
    · exact h
    · refine List.pairwise_cons.2 ⟨fun i hi ↦ ?_, h⟩
      rcases List.mem_cons.1 hi with rfl | hi
      · exact hlt
      · exact Nat.lt_trans hlt (hfirst i hi)
    · refine List.pairwise_cons.2 ⟨fun i hi ↦ ?_, ih hrest⟩
      rcases mem_insertAbsent hi with rfl | hi
      · exact Nat.lt_of_le_of_ne (Nat.le_of_not_lt hlt) (Ne.symm heq)
      · exact hfirst i hi

/-- Entries that do not contradict each other are all there afterwards. -/
theorem mem_foldl_insertAbsent_iff {entries done : List (Nat × Nat)}
    (h : ∀ i ∈ entries ++ done, ∀ j ∈ entries ++ done, i.1 = j.1 → i.2 = j.2) (i : Nat × Nat) :
    i ∈ entries.foldl (fun done i ↦ insertAbsent i.1 i.2 done) done ↔
      i ∈ entries ∨ i ∈ done := by
  induction entries generalizing done with
  | nil => simp
  | cons entry entries ih =>
    have hentry : ∀ i ∈ done, i.1 = entry.1 → i.2 = entry.2 := fun i hi ↦
      h i (List.mem_append_right _ hi) entry (List.mem_append_left _ List.mem_cons_self)
    have hmem := mem_insertAbsent_iff hentry
    have hsub : ∀ i ∈ entries ++ insertAbsent entry.1 entry.2 done,
        i ∈ entry :: entries ++ done := by
      intro i hi
      rcases List.mem_append.1 hi with hi | hi
      · exact List.mem_append_left _ (List.mem_cons_of_mem _ hi)
      · rcases (hmem i).1 hi with rfl | hi
        · exact List.mem_append_left _ List.mem_cons_self
        · exact List.mem_append_right _ hi
    rw [List.foldl_cons, ih fun i hi j hj ↦ h i (hsub i hi) j (hsub j hj), hmem, List.mem_cons]
    exact or_left_comm.trans or_assoc.symm

theorem pairwise_foldl_insertAbsent {entries done : List (Nat × Nat)}
    (h : done.Pairwise fun a b ↦ a.1 < b.1) :
    (entries.foldl (fun done i ↦ insertAbsent i.1 i.2 done) done).Pairwise
      fun a b ↦ a.1 < b.1 := by
  induction entries generalizing done with
  | nil => exact h
  | cons i entries ih => exact ih (pairwise_insertAbsent h)

end Forest

namespace Path

theorem same_self (p : Path) : p.same p = true := decide_eq_true rfl

theorem same_comm (p q : Path) : p.same q = q.same p := by
  unfold same
  exact decide_eq_decide.2 ⟨Eq.symm, Eq.symm⟩

theorem same_congr {p q : Path} (h : p.same q = true) (other : Path) :
    other.same p = other.same q := by
  unfold same at h ⊢
  rw [of_decide_eq_true h]

theorem same_congr_left {p q : Path} (h : p.same q = true) : p.same = q.same := by
  funext other
  rw [same_comm, same_congr h, same_comm]

end Path

namespace CacheKey

variable {k k' : CacheKey}

theorem same_iff :
    k.same k' = true ↔ k.path.same k'.path = true ∧ k.snapshot = k'.snapshot := by
  rw [same, Bool.and_eq_true, decide_eq_true_iff]

theorem same_congr_left (h : k.same k' = true) : k.same = k'.same := by
  obtain ⟨hpath, hsnapshot⟩ := same_iff.1 h
  funext other
  rw [same, same, Path.same_congr_left hpath, hsnapshot]

theorem same_comm (k k' : CacheKey) : k.same k' = k'.same k := by
  rw [same, same, Path.same_comm, decide_eq_decide.2 eq_comm]

end CacheKey

namespace IncludeGroup

variable {p q : Path} {ps qs : List Path}

theorem any_insertPath :
    (insertPath ps p).any q.same = true ↔ q.same p = true ∨ ps.any q.same = true := by
  unfold insertPath
  split_ifs with hknown
  · refine ⟨.inr, fun h ↦ h.elim (fun hsame ↦ ?_) id⟩
    rwa [Path.same_congr_left hsame]
  · rw [List.any_cons, Bool.or_eq_true]

theorem any_foldl_insertPath :
    (qs.foldl insertPath ps).any q.same = true ↔ qs.any q.same = true ∨ ps.any q.same = true := by
  induction qs generalizing ps with
  | nil => simp
  | cons p qs ih =>
    rw [List.foldl_cons, ih, any_insertPath, List.any_cons, Bool.or_eq_true]
    exact or_left_comm.trans or_assoc.symm

end IncludeGroup

namespace GroupTable

variable {t : GroupTable} {k key : CacheKey} {id n : Nat} {g : IncludeGroup}

theorem group?_congr (h : k.same key = true) : t.group? k = t.group? key := by
  rw [group?, CacheKey.same_congr_left h, group?]

theorem group?_setKey :
    (t.setKey id key).group? k = if k.same key then some id else t.group? k := by
  unfold group? setKey
  split_ifs with hsame
  · rw [List.find?_cons_of_pos (by exact hsame)]
    rfl
  · rw [List.find?_cons_of_neg (by exact hsame), List.find?_filter]
    congr 2
    funext entry
    -- A key that is taken out is not the one that is looked for.
    cases hentry : k.same entry.1 with
    | false => simp
    | true =>
      have hkey : key.same entry.1 = false := by
        rw [CacheKey.same_comm, ← CacheKey.same_congr_left hentry]
        exact Bool.eq_false_iff.2 hsame
      simp [hkey]

theorem lookup?_addGroup :
    (t.addGroup g).lookup? n = if n = t.nextGroup then some g else t.lookup? n := by
  unfold lookup? addGroup
  split_ifs with h
  · rw [List.find?_cons_of_pos (by simp [h])]
    rfl
  · rw [List.find?_cons_of_neg (by simpa using Ne.symm h)]

theorem lookup?_removeGroup :
    (t.removeGroup id).lookup? n = if n = id then none else t.lookup? n := by
  unfold lookup? removeGroup
  rw [List.find?_filter]
  split_ifs with h
  · rw [Option.map_eq_none_iff, List.find?_eq_none]
    rintro entry - hentry
    simp [h] at hentry
  · congr 2
    funext entry
    by_cases hentry : entry.1 = n
    · simp [hentry, h]
    · simp [hentry]

theorem lookup?_modifyGroup {f : IncludeGroup → IncludeGroup} :
    (t.modifyGroup id f).lookup? n = if n = id then (t.lookup? n).map f else t.lookup? n := by
  unfold lookup? modifyGroup
  induction t.groups with
  | nil => simp
  | cons entry groups ih =>
    by_cases hn : entry.1 = n
    · rw [List.map_cons, List.find?_cons_of_pos (by split_ifs <;> simp_all),
        List.find?_cons_of_pos (by simp [hn])]
      split_ifs <;> simp_all
    · rw [List.map_cons, List.find?_cons_of_neg (by split_ifs <;> simp_all), ih,
        List.find?_cons_of_neg (by simp [hn])]

section SetKeys

variable {snapshot : Snapshot} {paths : List Path}

theorem group?_setKeys :
    (paths.foldl (fun table path ↦ table.setKey id ⟨path, snapshot⟩) t).group? k =
      if k.snapshot = snapshot ∧ paths.any k.path.same = true then some id else t.group? k := by
  induction paths generalizing t with
  | nil => simp
  | cons path paths ih =>
    have hsame : k.same ⟨path, snapshot⟩ = true ↔
        k.path.same path = true ∧ k.snapshot = snapshot := CacheKey.same_iff
    rw [List.foldl_cons, ih, group?_setKey]
    simp only [List.any_cons, Bool.or_eq_true, hsame]
    by_cases hsnapshot : k.snapshot = snapshot <;> by_cases hpath : k.path.same path = true <;>
      simp [hsnapshot, hpath]

theorem lookup?_setKeys :
    (paths.foldl (fun table path ↦ table.setKey id ⟨path, snapshot⟩) t).lookup? = t.lookup? := by
  induction paths generalizing t with
  | nil => rfl
  | cons path paths ih => exact ih

theorem nextGroup_setKeys :
    (paths.foldl (fun table path ↦ table.setKey id ⟨path, snapshot⟩) t).nextGroup =
      t.nextGroup := by
  induction paths generalizing t with
  | nil => rfl
  | cons path paths ih => exact ih

end SetKeys

/-- Every key leads to a group that is there, and the files of a group are those whose keys lead to
it, all under one snapshot. -/
structure WellFormed (t : GroupTable) : Prop where
  alive : ∀ key id, t.group? key = some id → ∃ g, t.lookup? id = some g
  files : ∀ id g, t.lookup? id = some g → ∃ snapshot, ∀ key : CacheKey,
    t.group? key = some id ↔ key.snapshot = snapshot ∧ g.paths.any key.path.same = true
  fresh : ∀ id g, t.lookup? id = some g → id < t.nextGroup

namespace WellFormed

theorem empty : WellFormed {} := ⟨by simp [group?], by simp [lookup?], by simp [lookup?]⟩

theorem group?_lt (h : t.WellFormed) (hkey : t.group? key = some id) : id < t.nextGroup := by
  obtain ⟨g, hg⟩ := h.alive key id hkey
  exact h.fresh id g hg

theorem group?_ne (h : t.WellFormed) : t.group? key ≠ some t.nextGroup :=
  fun hkey ↦ Nat.lt_irrefl _ (h.group?_lt hkey)

theorem snapshot_eq (h : t.WellFormed) (hk : t.group? k = some id) (hkey : t.group? key = some id) :
    k.snapshot = key.snapshot := by
  obtain ⟨g, hg⟩ := h.alive k id hk
  obtain ⟨s, hfiles⟩ := h.files id g hg
  exact ((hfiles k).1 hk).1.trans ((hfiles key).1 hkey).1.symm

/-- The paths of a key's group are those with a key to it under the same snapshot. -/
theorem any_paths_iff (h : t.WellFormed) {p q : Path} {snapshot : Snapshot}
    (hp : t.group? ⟨p, snapshot⟩ = some id) (hg : t.lookup? id = some g) :
    g.paths.any q.same = true ↔ t.group? ⟨q, snapshot⟩ = some id := by
  obtain ⟨s, hfiles⟩ := h.files id g hg
  obtain rfl : snapshot = s := ((hfiles _).1 hp).1
  rw [hfiles, and_iff_right rfl]

end WellFormed

section SetResults

variable (fileId tree : Nat)

theorem group?_setResults_of_some (hkey : t.group? key = some id) :
    (t.setResults key fileId tree).group? = t.group? := by
  rw [setResults, hkey]
  rfl

theorem lookup?_setResults_of_some (hkey : t.group? key = some id) :
    (t.setResults key fileId tree).lookup? n =
      if n = id then (t.lookup? n).map (·.insert key.path fileId tree) else t.lookup? n := by
  rw [setResults, hkey]
  exact lookup?_modifyGroup

theorem group?_setResults_of_none (hkey : t.group? key = none) :
    (t.setResults key fileId tree).group? k =
      if k.same key then some t.nextGroup else t.group? k := by
  rw [setResults, hkey]
  exact group?_setKey

theorem lookup?_setResults_of_none (hkey : t.group? key = none) :
    (t.setResults key fileId tree).lookup? n =
      if n = t.nextGroup then some ⟨[key.path], [(fileId, tree)]⟩ else t.lookup? n := by
  rw [setResults, hkey]
  dsimp only
  rw [lookup?_modifyGroup]
  change (if n = t.nextGroup then ((t.addGroup {}).lookup? n).map _ else
    (t.addGroup {}).lookup? n) = _
  rw [lookup?_addGroup]
  split_ifs <;> rfl

theorem group?_setResults_of_none_iff (hkey : t.group? key = none) :
    (t.setResults key fileId tree).group? k = some n ↔
      (k.same key = true ∧ n = t.nextGroup) ∨ t.group? k = some n := by
  rw [group?_setResults_of_none fileId tree hkey]
  split_ifs with hsame
  · rw [group?_congr hsame, hkey, Option.some_inj, eq_comm]
    simp [hsame]
  · simp [hsame]

variable {fileId tree}

/-- A number leads to the group that it led to, and the one of the key to a group with one more
result. -/
theorem exists_of_setResults_of_some (hkey : t.group? key = some id) {g' : IncludeGroup}
    (hg' : (t.setResults key fileId tree).lookup? n = some g') :
    ∃ g, t.lookup? n = some g ∧
      ((n = id ∧ g' = g.insert key.path fileId tree) ∨ (n ≠ id ∧ g' = g)) := by
  rw [lookup?_setResults_of_some fileId tree hkey] at hg'
  split_ifs at hg' with hn
  · obtain ⟨g, hg, rfl⟩ := Option.map_eq_some_iff.1 hg'
    exact ⟨g, hg, .inl ⟨hn, rfl⟩⟩
  · exact ⟨g', hg', .inr ⟨hn, rfl⟩⟩

/-- The group of a new key is a new one, and the others are those that were there. -/
theorem of_setResults_of_none (hkey : t.group? key = none) {g' : IncludeGroup}
    (hg' : (t.setResults key fileId tree).lookup? n = some g') :
    (n = t.nextGroup ∧ g' = ⟨[key.path], [(fileId, tree)]⟩) ∨
      (n ≠ t.nextGroup ∧ t.lookup? n = some g') := by
  rw [lookup?_setResults_of_none fileId tree hkey] at hg'
  split_ifs at hg' with hn
  · exact .inl ⟨hn, (Option.some.inj hg').symm⟩
  · exact .inr ⟨hn, hg'⟩

theorem WellFormed.setResults (h : t.WellFormed) :
    (t.setResults key fileId tree).WellFormed := by
  cases hkey : t.group? key with
  | some id =>
    have hkeys := group?_setResults_of_some fileId tree hkey
    refine ⟨fun k n hk ↦ ?_, fun n g' hg' ↦ ?_, fun n g' hg' ↦ ?_⟩
    · rw [hkeys] at hk
      obtain ⟨g, hg⟩ := h.alive k n hk
      rw [lookup?_setResults_of_some fileId tree hkey, hg]
      split_ifs <;> exact ⟨_, rfl⟩
    · rw [hkeys]
      obtain ⟨g, hg, ⟨rfl, rfl⟩ | ⟨-, rfl⟩⟩ := exists_of_setResults_of_some hkey hg'
      · obtain ⟨s, hfiles⟩ := h.files n g hg
        refine ⟨s, fun k ↦ ?_⟩
        -- The path of the key is one of the group's already.
        rw [hfiles, IncludeGroup.insert, IncludeGroup.any_insertPath]
        refine and_congr_right fun _ ↦ (or_iff_right_of_imp fun hsame ↦ ?_).symm
        rw [Path.same_congr_left hsame]
        exact ((hfiles key).1 hkey).2
      · exact h.files n g' hg
    · obtain ⟨g, hg, -⟩ := exists_of_setResults_of_some hkey hg'
      have hlt := h.fresh n g hg
      rw [GroupTable.setResults, hkey]
      exact hlt
  | none =>
    have hkeys {k : CacheKey} {n : Nat} :=
      group?_setResults_of_none_iff (k := k) (n := n) fileId tree hkey
    refine ⟨fun k n hk ↦ ?_, fun n g' hg' ↦ ?_, fun n g' hg' ↦ ?_⟩
    · rw [lookup?_setResults_of_none fileId tree hkey]
      split_ifs with hn
      · exact ⟨_, rfl⟩
      · exact h.alive k n ((hkeys.1 hk).resolve_left fun hnew ↦ hn hnew.2)
    · rcases of_setResults_of_none hkey hg' with ⟨rfl, rfl⟩ | ⟨hn, hg⟩
      · refine ⟨key.snapshot, fun k ↦ ?_⟩
        rw [hkeys, or_iff_left h.group?_ne, CacheKey.same_iff]
        simp [and_comm]
      · obtain ⟨s, hfiles⟩ := h.files n g' hg
        refine ⟨s, fun k ↦ ?_⟩
        rw [hkeys, or_iff_right fun hk ↦ hn hk.2, hfiles]
    · have hnext : (t.setResults key fileId tree).nextGroup = t.nextGroup + 1 := by
        rw [GroupTable.setResults, hkey]
        rfl
      rw [hnext]
      rcases of_setResults_of_none hkey hg' with ⟨rfl, -⟩ | ⟨-, hg⟩
      · exact Nat.lt_succ_self _
      · exact Nat.lt_succ_of_lt (h.fresh n g' hg)

end SetResults

/-- One of the paths has a key to the group. -/
def Met (t : GroupTable) (paths : List Path) (snapshot : Snapshot) (id : Nat) : Prop :=
  ∃ p ∈ paths, t.group? ⟨p, snapshot⟩ = some id

/-- No two groups have different results under one file id. -/
def Agree (t : GroupTable) : Prop :=
  ∀ id g id' g', t.lookup? id = some g → t.lookup? id' = some g' →
    ∀ i ∈ g.results, ∀ j ∈ g'.results, i.1 = j.1 → i.2 = j.2

/-- What there is after the groups of some paths have been taken out and put together. -/
structure Absorbed (t : GroupTable) (snapshot : Snapshot) (first : List Path) (paths : List Path)
    (u : IncludeGroup × GroupTable) : Prop where
  keys : u.2.group? = t.group?
  next : u.2.nextGroup = t.nextGroup
  removed : ∀ id, t.Met paths snapshot id → u.2.lookup? id = none
  kept : ∀ id, ¬ t.Met paths snapshot id → u.2.lookup? id = t.lookup? id
  files : ∀ q : Path, u.1.paths.any q.same = true ↔ first.any q.same = true ∨
    ∃ id g, t.Met paths snapshot id ∧ t.lookup? id = some g ∧ g.paths.any q.same = true
  ordered : u.1.results.Pairwise fun a b ↦ a.1 < b.1
  results : ∀ i, i ∈ u.1.results ↔
    ∃ id g, t.Met paths snapshot id ∧ t.lookup? id = some g ∧ i ∈ g.results

section AddCycle

variable {snapshot : Snapshot} {first paths : List Path} {path : Path}
  {u : IncludeGroup × GroupTable}

theorem met_concat : t.Met (paths ++ [path]) snapshot id ↔
    t.Met paths snapshot id ∨ t.group? ⟨path, snapshot⟩ = some id := by
  unfold Met
  simp only [List.mem_append, List.mem_singleton]
  constructor
  · rintro ⟨p, hp | rfl, hid⟩
    · exact .inl ⟨p, hp, hid⟩
    · exact .inr hid
  · rintro (⟨p, hp, hid⟩ | hid)
    · exact ⟨p, .inl hp, hid⟩
    · exact ⟨path, .inr rfl, hid⟩

/-- A path whose group is not there changes nothing: it has none, or it was met before. -/
theorem Absorbed.skip (h : Absorbed t snapshot first paths u)
    (hpath : ∀ id, t.group? ⟨path, snapshot⟩ = some id → t.Met paths snapshot id) :
    Absorbed t snapshot first (paths ++ [path]) u := by
  have hmet : ∀ id, t.Met (paths ++ [path]) snapshot id ↔ t.Met paths snapshot id := fun id ↦
    met_concat.trans (or_iff_left_of_imp (hpath id))
  exact ⟨h.keys, h.next, fun id hid ↦ h.removed id ((hmet id).1 hid),
    fun id hid ↦ h.kept id fun hid' ↦ hid ((hmet id).2 hid'), by simpa only [hmet] using h.files,
    h.ordered, by simpa only [hmet] using h.results⟩

/-- A group that is met for the first time is put to the others. -/
theorem Absorbed.extend (h : Absorbed t snapshot first paths u) (hagree : t.Agree)
    (hordered : ∀ id g, t.lookup? id = some g → g.results.Pairwise fun a b ↦ a.1 < b.1)
    (hpath : t.group? ⟨path, snapshot⟩ = some id) (hid : ¬ t.Met paths snapshot id)
    (hg : t.lookup? id = some g) :
    Absorbed t snapshot first (paths ++ [path]) (u.1.extend g, u.2.removeGroup id) := by
  have hmet : ∀ n, t.Met (paths ++ [path]) snapshot n ↔ t.Met paths snapshot n ∨ n = id := by
    intro n
    rw [met_concat, hpath, Option.some_inj, eq_comm (a := id)]
  refine ⟨h.keys, h.next, fun n hn ↦ ?_, fun n hn ↦ ?_, fun q ↦ ?_, ?_, fun i ↦ ?_⟩
  · rw [lookup?_removeGroup]
    split_ifs with heq
    · rfl
    · exact h.removed n (((hmet n).1 hn).resolve_right heq)
  · rw [hmet, not_or] at hn
    rw [lookup?_removeGroup, if_neg hn.2, h.kept n hn.1]
  · change (g.paths.foldl IncludeGroup.insertPath u.1.paths).any q.same = true ↔ _
    rw [IncludeGroup.any_foldl_insertPath, h.files q]
    simp only [hmet]
    constructor
    · rintro (hq | hq | ⟨n, g', hn, hg', hq⟩)
      · exact .inr ⟨id, g, .inr rfl, hg, hq⟩
      · exact .inl hq
      · exact .inr ⟨n, g', .inl hn, hg', hq⟩
    · rintro (hq | ⟨n, g', hn | rfl, hg', hq⟩)
      · exact .inr (.inl hq)
      · exact .inr (.inr ⟨n, g', hn, hg', hq⟩)
      · obtain rfl := Option.some.inj (hg.symm.trans hg')
        exact .inl hq
  · exact Forest.pairwise_foldl_insertAbsent (hordered id g hg)
  · have hsource : ∀ j ∈ u.1.results ++ g.results,
        ∃ n g', t.lookup? n = some g' ∧ j ∈ g'.results := by
      intro j hj
      rcases List.mem_append.1 hj with hj | hj
      · obtain ⟨n, g', -, hg', hj⟩ := (h.results j).1 hj
        exact ⟨n, g', hg', hj⟩
      · exact ⟨id, g, hg, hj⟩
    change i ∈ u.1.results.foldl (fun done i ↦ Forest.insertAbsent i.1 i.2 done) g.results ↔ _
    rw [Forest.mem_foldl_insertAbsent_iff, h.results i]
    · simp only [hmet]
      constructor
      · rintro (⟨n, g', hn, hg', hi⟩ | hi)
        · exact ⟨n, g', .inl hn, hg', hi⟩
        · exact ⟨id, g, .inr rfl, hg, hi⟩
      · rintro ⟨n, g', hn | rfl, hg', hi⟩
        · exact .inl ⟨n, g', hn, hg', hi⟩
        · obtain rfl := Option.some.inj (hg.symm.trans hg')
          exact .inr hi
    · intro j hj k hk hjk
      obtain ⟨n, gj, hgj, hj⟩ := hsource j hj
      obtain ⟨m, gk, hgk, hk⟩ := hsource k hk
      exact hagree n gj m gk hgj hgk j hj k hk hjk

theorem absorbed_foldl (h : t.WellFormed) (hagree : t.Agree)
    (hordered : ∀ id g, t.lookup? id = some g → g.results.Pairwise fun a b ↦ a.1 < b.1) :
    Absorbed t snapshot first paths (paths.foldl (absorb snapshot) ({ paths := first }, t)) := by
  induction paths using List.reverseRecOn with
  | nil =>
    have hmet : ∀ id, ¬ t.Met [] snapshot id := by simp [Met]
    exact ⟨rfl, rfl, fun id hid ↦ (hmet id hid).elim, fun _ _ ↦ rfl, by simp [hmet], .nil,
      by simp [hmet]⟩
  | append_singleton paths path ih =>
    rw [List.foldl_append, List.foldl_cons, List.foldl_nil, absorb, ih.keys]
    cases hpath : t.group? ⟨path, snapshot⟩ with
    | none => exact ih.skip fun id hid ↦ absurd (hpath.symm.trans hid) (by simp)
    | some id =>
      dsimp only
      by_cases hid : t.Met paths snapshot id
      · rw [ih.removed id hid]
        exact ih.skip fun n hn ↦ Option.some.inj (hpath.symm.trans hn) ▸ hid
      · obtain ⟨g, hg⟩ := h.alive _ id hpath
        rw [ih.kept id hid, hg]
        exact ih.extend hagree hordered hpath hid hg

/-- What a cycle does to a table: the groups that it meets are gone, and the keys of its paths and
of theirs lead to a new group, which has their results. -/
structure United (t : GroupTable) (paths : List Path) (snapshot : Snapshot) (united : IncludeGroup)
    (t' : GroupTable) : Prop where
  files : ∀ q : Path, united.paths.any q.same = true ↔
    paths.any q.same = true ∨ ∃ id, t.Met paths snapshot id ∧ t.group? ⟨q, snapshot⟩ = some id
  ordered : united.results.Pairwise fun a b ↦ a.1 < b.1
  results : ∀ i, i ∈ united.results ↔
    ∃ id g, t.Met paths snapshot id ∧ t.lookup? id = some g ∧ i ∈ g.results
  keys : ∀ k, t'.group? k =
    if k.snapshot = snapshot ∧ united.paths.any k.path.same = true then some t.nextGroup
    else t.group? k
  next : t'.nextGroup = t.nextGroup + 1
  new : t'.lookup? t.nextGroup = some united
  old : ∀ id g, id ≠ t.nextGroup → (t'.lookup? id = some g ↔
    ¬ t.Met paths snapshot id ∧ t.lookup? id = some g)

theorem exists_united (h : t.WellFormed) (hagree : t.Agree)
    (hordered : ∀ id g, t.lookup? id = some g → g.results.Pairwise fun a b ↦ a.1 < b.1)
    (paths : List Path) (snapshot : Snapshot) :
    ∃ united, United t paths snapshot united (t.addCycle paths snapshot) := by
  have habsorbed : Absorbed t snapshot (paths.foldl IncludeGroup.insertPath []) paths _ :=
    absorbed_foldl h hagree hordered
  rw [addCycle]
  generalize paths.foldl (absorb snapshot)
    ({ paths := paths.foldl IncludeGroup.insertPath [] }, t) = u at habsorbed
  obtain ⟨united, rest⟩ := u
  dsimp only at habsorbed ⊢
  refine ⟨united, fun q ↦ ?_, habsorbed.ordered, habsorbed.results, fun k ↦ ?_, ?_, ?_,
    fun id g hid ↦ ?_⟩
  · rw [habsorbed.files, IncludeGroup.any_foldl_insertPath]
    simp only [List.any_nil, Bool.false_eq_true, or_false]
    apply or_congr_right
    apply exists_congr
    intro id
    constructor
    · rintro ⟨g, hmet, hg, hq⟩
      obtain ⟨p, hp, hpid⟩ := hmet
      exact ⟨⟨p, hp, hpid⟩, (h.any_paths_iff hpid hg).1 hq⟩
    · rintro ⟨hmet, hq⟩
      obtain ⟨g, hg⟩ := h.alive _ id hq
      exact ⟨g, hmet, hg, (h.any_paths_iff hq hg).2 hq⟩
  · rw [group?_setKeys, habsorbed.next]
    change (if _ then _ else rest.group? k) = _
    rw [habsorbed.keys]
  · rw [nextGroup_setKeys]
    exact congrArg Nat.succ habsorbed.next
  · rw [lookup?_setKeys, lookup?_addGroup, if_pos habsorbed.next.symm]
  · rw [lookup?_setKeys, lookup?_addGroup, if_neg (habsorbed.next.symm ▸ hid)]
    by_cases hmet : t.Met paths snapshot id
    · simp [habsorbed.removed id hmet, hmet]
    · simp [habsorbed.kept id hmet, hmet]

/-- A group that is there after a cycle is the new one, or an old one that was not met. -/
theorem United.lookup?_cases {united : IncludeGroup} {t' : GroupTable}
    (hunited : United t paths snapshot united t') (hg : t'.lookup? id = some g) :
    (id = t.nextGroup ∧ g = united) ∨
      (id ≠ t.nextGroup ∧ ¬ t.Met paths snapshot id ∧ t.lookup? id = some g) := by
  by_cases hid : id = t.nextGroup
  · subst hid
    exact .inl ⟨rfl, Option.some.inj (hg.symm.trans hunited.new)⟩
  · exact .inr ⟨hid, (hunited.old id g hid).1 hg⟩

/-- The keys of the new group. -/
theorem United.group?_eq_next_iff (h : t.WellFormed) {united : IncludeGroup} {t' : GroupTable}
    (hunited : United t paths snapshot united t') :
    t'.group? k = some t.nextGroup ↔
      k.snapshot = snapshot ∧ united.paths.any k.path.same = true := by
  rw [hunited.keys]
  split_ifs with hk
  · exact iff_of_true rfl hk
  · exact iff_of_false h.group?_ne hk

/-- The keys of another group are those that it had. -/
theorem United.group?_eq_iff (h : t.WellFormed) {united : IncludeGroup} {t' : GroupTable}
    (hunited : United t paths snapshot united t') (hid : id ≠ t.nextGroup) :
    t'.group? k = some id ↔ ¬ t.Met paths snapshot id ∧ t.group? k = some id := by
  rw [hunited.keys]
  split_ifs with hk
  · refine iff_of_false (fun heq ↦ hid (Option.some.inj heq).symm) ?_
    rintro ⟨hmet, hkid⟩
    obtain ⟨hsnapshot, hpath⟩ := hk
    rcases (hunited.files k.path).1 hpath with hlisted | ⟨n, hn, hkn⟩
    · obtain ⟨p, hp, hsame⟩ := List.any_eq_true.1 hlisted
      have hkey : t.group? k = t.group? ⟨p, snapshot⟩ :=
        group?_congr (CacheKey.same_iff.2 ⟨hsame, hsnapshot⟩)
      exact hmet ⟨p, hp, hkey ▸ hkid⟩
    · rw [← hsnapshot] at hkn
      obtain rfl : n = id := Option.some.inj (hkn.symm.trans hkid)
      exact hmet hn
  · refine ⟨fun hkid ↦ ⟨fun hmet ↦ hk ?_, hkid⟩, And.right⟩
    have ⟨p, _, hpid⟩ := hmet
    have hsnapshot : k.snapshot = snapshot := h.snapshot_eq hkid hpid
    exact ⟨hsnapshot, (hunited.files k.path).2 (.inr ⟨id, hmet, hsnapshot ▸ hkid⟩)⟩

theorem United.wellFormed (h : t.WellFormed) {united : IncludeGroup} {t' : GroupTable}
    (hunited : United t paths snapshot united t') : t'.WellFormed where
  alive k n hk := by
    by_cases hn : n = t.nextGroup
    · exact ⟨united, hn ▸ hunited.new⟩
    · obtain ⟨hmet, hk⟩ := (hunited.group?_eq_iff h hn).1 hk
      obtain ⟨g, hg⟩ := h.alive k n hk
      exact ⟨g, (hunited.old n g hn).2 ⟨hmet, hg⟩⟩
  files n g hg := by
    rcases hunited.lookup?_cases hg with ⟨rfl, rfl⟩ | ⟨hn, hmet, hg⟩
    · exact ⟨snapshot, fun k ↦ hunited.group?_eq_next_iff h⟩
    · obtain ⟨s, hfiles⟩ := h.files n g hg
      refine ⟨s, fun k ↦ ?_⟩
      rw [hunited.group?_eq_iff h hn, and_iff_right hmet, hfiles]
  fresh n g hg := by
    rw [hunited.next]
    rcases hunited.lookup?_cases hg with ⟨rfl, -⟩ | ⟨-, -, hg⟩
    · exact Nat.lt_succ_self _
    · exact Nat.lt_succ_of_lt (h.fresh n g hg)

end AddCycle

end GroupTable

end Harvest
