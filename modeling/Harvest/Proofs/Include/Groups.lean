import Harvest.Proofs.Include.Tables
import Mathlib.Logic.Relation

/-!
# Groups of the include cache

Two paths are connected under a snapshot if a chain of cycles leads from one to the other. Main
statement: whatever results and cycles a cache was given, and in whatever order, keys lead to one
group exactly for connected paths, and a path has the results of all paths that it is connected to,
those under its own snapshot only and in the order of their file ids.
-/

namespace Harvest

namespace IncludeCache

theorem nextFileId_setMessages (c : IncludeCache) (path : Path) (messages : List Message) :
    (c.setMessages path messages).nextFileId = c.nextFileId := by
  unfold setMessages
  split <;> rfl

theorem nextFileId_addBlacklisted (c : IncludeCache) (path : Path) :
    (c.addBlacklisted path).nextFileId = c.nextFileId := by
  unfold addBlacklisted
  split <;> rfl

theorem table_setMessages (c : IncludeCache) (path : Path) (messages : List Message) :
    (c.setMessages path messages).table = c.table := by
  unfold setMessages
  split <;> rfl

theorem table_addBlacklisted (c : IncludeCache) (path : Path) :
    (c.addBlacklisted path).table = c.table := by
  unfold addBlacklisted
  split <;> rfl

/-- What a cache is told about results. -/
inductive Update
  /-- The file at a path has a result. -/
  | result (path : Path) (snapshot : Snapshot) (fileId tree : Nat)
  /-- The files include each other. -/
  | cycle (paths : List Path) (snapshot : Snapshot)

def update (c : IncludeCache) : Update → IncludeCache
  | .result path snapshot fileId tree => c.setResults path snapshot fileId tree
  | .cycle paths snapshot => c.addCycle paths snapshot

/-- A new cache after some updates. -/
def after (updates : List Update) : IncludeCache := updates.foldl update {}

theorem after_concat (updates : List Update) (u : Update) :
    after (updates ++ [u]) = (after updates).update u := by
  rw [after, List.foldl_append, List.foldl_cons, List.foldl_nil, ← after]

/-- An update looks at the table only. -/
theorem table_update {c c' : IncludeCache} (h : c'.table = c.table) (u : Update) :
    (c'.update u).table = (c.update u).table := by
  cases u with
  | result path snapshot fileId tree => exact congrArg (GroupTable.setResults · _ _ _) h
  | cycle paths snapshot => exact congrArg (GroupTable.addCycle · _ _) h

/-- The paths have the same parts or are listed in one cycle. -/
def Linked (updates : List Update) (snapshot : Snapshot) (p q : Path) : Prop :=
  p.same q = true ∨ ∃ paths, Update.cycle paths snapshot ∈ updates ∧
    paths.any p.same = true ∧ paths.any q.same = true

/-- A chain of cycles leads from one path to the other. -/
def Connected (updates : List Update) (snapshot : Snapshot) : Path → Path → Prop :=
  Relation.EqvGen (Linked updates snapshot)

/-- The update is about the path, under the snapshot. -/
def Update.Mentions (path : Path) (snapshot : Snapshot) : Update → Prop
  | .result other s _ _ => s = snapshot ∧ path.same other = true
  | .cycle paths s => s = snapshot ∧ paths.any path.same = true

/-- No two results have one file id, and none has two. -/
def DistinctIds (updates : List Update) : Prop :=
  ∀ p s i t p' s' i' t', Update.result p s i t ∈ updates → Update.result p' s' i' t' ∈ updates →
    (i = i' ↔ t = t')

section

variable {updates : List Update} {snapshot : Snapshot} {p q : Path}

/-- What holds of both or none of two linked paths holds of both or none of two connected ones. -/
theorem Connected.iff_of_linked (h : Connected updates snapshot p q) (P : Path → Prop)
    (hlinked : ∀ x y, Linked updates snapshot x y → (P x ↔ P y)) : P p ↔ P q := by
  induction h with
  | rel x y hxy => exact hlinked x y hxy
  | refl x => exact Iff.rfl
  | symm x y _ ih => exact ih.symm
  | trans x y z _ _ hxy hyz => exact hxy.trans hyz

theorem Linked.symm (h : Linked updates snapshot p q) : Linked updates snapshot q p := by
  rcases h with h | ⟨paths, hmem, hp, hq⟩
  · exact .inl ((q.same_comm p).trans h)
  · exact .inr ⟨paths, hmem, hq, hp⟩

/-- To be invariant under links it is enough to be kept by them. -/
theorem Connected.of_kept (h : Connected updates snapshot p q) (P : Path → Prop)
    (hkept : ∀ x y, Linked updates snapshot x y → P x → P y) (hp : P p) : P q :=
  (h.iff_of_linked P fun x y hxy ↦ ⟨hkept x y hxy, hkept y x hxy.symm⟩).1 hp

theorem Connected.mono {updates' : List Update} (h : Connected updates snapshot p q)
    (hsub : updates ⊆ updates') : Connected updates' snapshot p q := by
  refine Relation.EqvGen.mono ?_ p q h
  rintro x y (hsame | ⟨paths, hmem, hx, hy⟩)
  · exact .inl hsame
  · exact .inr ⟨paths, hsub hmem, hx, hy⟩

theorem linked_concat_result (other : Path) (s : Snapshot) (fileId tree : Nat) :
    Linked (updates ++ [.result other s fileId tree]) snapshot = Linked updates snapshot := by
  funext x y
  simp [Linked]

theorem linked_concat_cycle {paths : List Path} {s : Snapshot}
    (h : Linked (updates ++ [.cycle paths s]) snapshot p q) :
    Linked updates snapshot p q ∨
      snapshot = s ∧ paths.any p.same = true ∧ paths.any q.same = true := by
  rcases h with h | ⟨listed, hmem, hp, hq⟩
  · exact .inl (.inl h)
  · rcases List.mem_append.1 hmem with hmem | hmem
    · exact .inl (.inr ⟨listed, hmem, hp, hq⟩)
    · obtain ⟨rfl, rfl⟩ := Update.cycle.inj (List.mem_singleton.1 hmem)
      exact .inr ⟨rfl, hp, hq⟩

/-- A path that no update mentions is connected to itself alone. -/
theorem connected_iff_of_unmentioned {path : Path}
    (hunmentioned : ∀ u ∈ updates, ∀ p, p.same path = true → ¬ u.Mentions p snapshot)
    (hp : p.same path = true) : Connected updates snapshot p q ↔ q.same path = true := by
  constructor
  · intro hconnected
    refine hconnected.of_kept (fun x ↦ x.same path = true) ?_ hp
    rintro x y (hxy | ⟨paths, hmem, hx, -⟩) hxp
    · rwa [← Path.same_congr_left hxy]
    · exact (hunmentioned _ hmem x hxp ⟨rfl, hx⟩).elim
  · intro hq
    exact .rel _ _ (.inl ((Path.same_congr hq p).trans hp))

end

/-- The table says what the updates have said: keys are the paths that were mentioned, they lead to
one group exactly for connected paths, and a group has the results of its files. -/
structure Reflects (updates : List Update) (t : GroupTable) : Prop where
  wellFormed : t.WellFormed
  mentioned : ∀ key, (∃ id, t.group? key = some id) ↔
    ∃ u ∈ updates, u.Mentions key.path key.snapshot
  connected : ∀ snapshot p id, t.group? ⟨p, snapshot⟩ = some id →
    ∀ q, t.group? ⟨q, snapshot⟩ = some id ↔ Connected updates snapshot p q
  ordered : ∀ id g, t.lookup? id = some g → g.results.Pairwise fun a b ↦ a.1 < b.1
  results : ∀ id g, t.lookup? id = some g → ∀ i, i ∈ g.results ↔
    ∃ p s, t.group? ⟨p, s⟩ = some id ∧ Update.result p s i.1 i.2 ∈ updates

namespace Reflects

variable {updates : List Update} {t : GroupTable}

theorem nil : Reflects [] {} :=
  ⟨.empty, by simp [GroupTable.group?], by simp [GroupTable.group?], by simp [GroupTable.lookup?],
    by simp [GroupTable.lookup?]⟩

theorem agree (h : Reflects updates t) (hids : DistinctIds updates) : t.Agree := by
  intro id g id' g' hg hg' i hi j hj
  obtain ⟨p, s, -, hi⟩ := (h.results id g hg i).1 hi
  obtain ⟨q, s', -, hj⟩ := (h.results id' g' hg' j).1 hj
  exact (hids _ _ _ _ _ _ _ _ hi hj).1

section Result

variable {key : CacheKey} {fileId tree id : Nat}

theorem mentions_result {k : CacheKey} :
    (Update.result key.path key.snapshot fileId tree).Mentions k.path k.snapshot ↔
      k.same key = true := by
  rw [CacheKey.same_iff, and_comm, eq_comm (a := k.snapshot)]
  rfl

theorem mentioned_concat_result {k : CacheKey} :
    (∃ u ∈ updates ++ [.result key.path key.snapshot fileId tree], u.Mentions k.path k.snapshot) ↔
      (∃ u ∈ updates, u.Mentions k.path k.snapshot) ∨ k.same key = true := by
  simp only [List.mem_append, List.mem_singleton, or_and_right, exists_or, exists_eq_left,
    mentions_result]

/-- A result for a key that leads to a group. -/
theorem insert (h : Reflects updates t)
    (hids : DistinctIds (updates ++ [.result key.path key.snapshot fileId tree]))
    (hkey : t.group? key = some id) :
    Reflects (updates ++ [.result key.path key.snapshot fileId tree])
      (t.setResults key fileId tree) := by
  have hkeys := GroupTable.group?_setResults_of_some fileId tree hkey
  refine ⟨h.wellFormed.setResults, fun k ↦ ?_, fun snapshot p n hp q ↦ ?_, fun n g' hg' ↦ ?_,
    fun n g' hg' i ↦ ?_⟩
  · rw [hkeys, mentioned_concat_result, ← h.mentioned]
    exact (or_iff_left_of_imp fun hsame ↦ ⟨id, (GroupTable.group?_congr hsame).trans hkey⟩).symm
  · rw [hkeys] at hp ⊢
    unfold Connected
    rw [linked_concat_result]
    exact h.connected snapshot p n hp q
  · obtain ⟨g, hg, ⟨-, rfl⟩ | ⟨-, rfl⟩⟩ := GroupTable.exists_of_setResults_of_some hkey hg'
    · exact Forest.pairwise_insertAbsent (h.ordered n g hg)
    · exact h.ordered n g' hg
  · simp only [hkeys, List.mem_append, List.mem_singleton, Update.result.injEq]
    obtain ⟨g, hg, ⟨rfl, rfl⟩ | ⟨hn, rfl⟩⟩ := GroupTable.exists_of_setResults_of_some hkey hg'
    · have hknown : ∀ j ∈ g.results, j.1 = fileId → j.2 = tree := by
        intro j hj hid
        obtain ⟨p, s, -, hmem⟩ := (h.results n g hg j).1 hj
        exact (hids _ _ _ _ _ _ _ _ (List.mem_append_left _ hmem)
          (List.mem_append_right _ (List.mem_singleton_self _))).1 hid
      rw [IncludeGroup.insert, Forest.mem_insertAbsent_iff hknown, h.results n g hg]
      constructor
      · rintro (rfl | ⟨p, s, hp, hmem⟩)
        · exact ⟨key.path, key.snapshot, hkey, .inr ⟨rfl, rfl, rfl, rfl⟩⟩
        · exact ⟨p, s, hp, .inl hmem⟩
      · rintro ⟨p, s, hp, hmem | ⟨-, -, hid, htree⟩⟩
        · exact .inr ⟨p, s, hp, hmem⟩
        · exact .inl (Prod.ext hid htree)
    · rw [h.results n g' hg]
      constructor
      · rintro ⟨p, s, hp, hmem⟩
        exact ⟨p, s, hp, .inl hmem⟩
      · rintro ⟨p, s, hp, hmem | ⟨rfl, rfl, -, -⟩⟩
        · exact ⟨p, s, hp, hmem⟩
        · exact (hn (Option.some.inj (hp.symm.trans hkey))).elim

/-- A result for a new key. -/
theorem cons (h : Reflects updates t) (hkey : t.group? key = none) :
    Reflects (updates ++ [.result key.path key.snapshot fileId tree])
      (t.setResults key fileId tree) := by
  have hkeys {k : CacheKey} {n : Nat} :=
    GroupTable.group?_setResults_of_none_iff (k := k) (n := n) fileId tree hkey
  have hunmentioned : ∀ u ∈ updates, ∀ p, p.same key.path = true → ¬ u.Mentions p key.snapshot := by
    intro u hu p hp hmentions
    obtain ⟨n, hn⟩ := (h.mentioned ⟨p, key.snapshot⟩).2 ⟨u, hu, hmentions⟩
    have hsame : (⟨p, key.snapshot⟩ : CacheKey).same key = true := CacheKey.same_iff.2 ⟨hp, rfl⟩
    rw [GroupTable.group?_congr hsame, hkey] at hn
    cases hn
  -- The keys of the new group.
  have hnew {k : CacheKey} : (t.setResults key fileId tree).group? k = some t.nextGroup ↔
      k.path.same key.path = true ∧ k.snapshot = key.snapshot := by
    rw [hkeys, or_iff_left h.wellFormed.group?_ne, and_iff_left rfl, CacheKey.same_iff]
  refine ⟨h.wellFormed.setResults, fun k ↦ ?_, fun snapshot p n hp q ↦ ?_, fun n g' hg' ↦ ?_,
    fun n g' hg' i ↦ ?_⟩
  · rw [mentioned_concat_result, ← h.mentioned]
    simp only [hkeys, exists_or, exists_and_left, exists_eq, and_true]
    exact or_comm
  · unfold Connected
    rw [linked_concat_result]
    by_cases hn : n = t.nextGroup
    · subst hn
      obtain ⟨hpath, hsnapshot⟩ := hnew.1 hp
      dsimp only at hpath hsnapshot
      subst hsnapshot
      rw [hnew, and_iff_left rfl]
      exact (connected_iff_of_unmentioned hunmentioned hpath).symm
    · rw [hkeys, or_iff_right fun hk ↦ hn hk.2] at hp ⊢
      exact h.connected snapshot p n hp q
  · rcases GroupTable.of_setResults_of_none hkey hg' with ⟨-, rfl⟩ | ⟨-, hg⟩
    · exact List.pairwise_singleton _ _
    · exact h.ordered n g' hg
  · simp only [List.mem_append, List.mem_singleton, Update.result.injEq]
    rcases GroupTable.of_setResults_of_none hkey hg' with ⟨rfl, rfl⟩ | ⟨hn, hg⟩
    · rw [List.mem_singleton]
      constructor
      · rintro rfl
        exact ⟨key.path, key.snapshot, hnew.2 ⟨key.path.same_self, rfl⟩, .inr ⟨rfl, rfl, rfl, rfl⟩⟩
      · rintro ⟨p, s, hp, hmem | ⟨-, -, hid, htree⟩⟩
        · obtain ⟨hpath, hsnapshot⟩ := hnew.1 hp
          exact (hunmentioned _ hmem p hpath ⟨hsnapshot, p.same_self⟩).elim
        · exact Prod.ext hid htree
    · rw [h.results n g' hg]
      simp only [hkeys, hn, and_false, false_or]
      constructor
      · rintro ⟨p, s, hp, hmem⟩
        exact ⟨p, s, hp, .inl hmem⟩
      · rintro ⟨p, s, hp, hmem | ⟨rfl, rfl, -, -⟩⟩
        · exact ⟨p, s, hp, hmem⟩
        · rw [hkey] at hp
          cases hp

end Result

section Cycle

variable {paths : List Path} {snapshot : Snapshot} {united : IncludeGroup} {t' : GroupTable}
  {p q : Path} {id : Nat}

theorem mentioned_concat_cycle {k : CacheKey} :
    (∃ u ∈ updates ++ [.cycle paths snapshot], u.Mentions k.path k.snapshot) ↔
      (∃ u ∈ updates, u.Mentions k.path k.snapshot) ∨
        k.snapshot = snapshot ∧ paths.any k.path.same = true := by
  simp only [List.mem_append, List.mem_singleton, or_and_right, exists_or, exists_eq_left,
    Update.Mentions, eq_comm (a := snapshot)]

theorem met_of_listed (hlisted : paths.any p.same = true)
    (hp : t.group? ⟨p, snapshot⟩ = some id) : t.Met paths snapshot id := by
  obtain ⟨x, hx, hsame⟩ := List.any_eq_true.1 hlisted
  have hkey : (⟨p, snapshot⟩ : CacheKey).same ⟨x, snapshot⟩ = true :=
    CacheKey.same_iff.2 ⟨hsame, rfl⟩
  exact ⟨x, hx, GroupTable.group?_congr hkey ▸ hp⟩

/-- A path of the new group that was mentioned before was in a group that the cycle meets. -/
theorem exists_met (h : Reflects updates t) (hunited : t.United paths snapshot united t')
    (hp : united.paths.any p.same = true) (hmentioned : ∃ u ∈ updates, u.Mentions p snapshot) :
    ∃ id, t.Met paths snapshot id ∧ t.group? ⟨p, snapshot⟩ = some id := by
  rcases (hunited.files p).1 hp with hlisted | hmet
  · obtain ⟨id, hid⟩ := (h.mentioned ⟨p, snapshot⟩).2 hmentioned
    exact ⟨id, met_of_listed hlisted hid, hid⟩
  · exact hmet

/-- The new group is closed under links. -/
theorem any_united_of_linked (h : Reflects updates t) (hunited : t.United paths snapshot united t')
    (hlinked : Linked (updates ++ [.cycle paths snapshot]) snapshot p q)
    (hp : united.paths.any p.same = true) : united.paths.any q.same = true := by
  rcases linked_concat_cycle hlinked with hlinked | ⟨-, -, hlisted⟩
  · rcases hlinked with hsame | ⟨listed, hmem, hplisted, hqlisted⟩
    · rwa [← Path.same_congr_left hsame]
    · -- An older cycle is within one of the groups, which the new one meets.
      obtain ⟨id, hmet, hid⟩ := h.exists_met hunited hp ⟨_, hmem, rfl, hplisted⟩
      exact (hunited.files q).2 (.inr ⟨id, hmet,
        (h.connected snapshot p id hid q).2 (.rel _ _ (.inr ⟨listed, hmem, hplisted, hqlisted⟩))⟩)
  · exact (hunited.files q).2 (.inl hlisted)

/-- Each path of the new group is connected to one that the cycle lists. -/
theorem exists_connected (h : Reflects updates t) (hunited : t.United paths snapshot united t')
    (hp : united.paths.any p.same = true) :
    ∃ x, paths.any x.same = true ∧
      Connected (updates ++ [.cycle paths snapshot]) snapshot p x := by
  rcases (hunited.files p).1 hp with hlisted | ⟨id, ⟨x, hx, hxid⟩, hid⟩
  · exact ⟨p, hlisted, .refl _⟩
  · exact ⟨x, List.any_eq_true.2 ⟨x, hx, x.same_self⟩,
      ((h.connected snapshot p id hid x).1 hxid).mono (List.subset_append_left _ _)⟩

theorem any_united_iff_connected (h : Reflects updates t)
    (hunited : t.United paths snapshot united t') (hp : united.paths.any p.same = true) :
    united.paths.any q.same = true ↔
      Connected (updates ++ [.cycle paths snapshot]) snapshot p q := by
  constructor
  · intro hq
    obtain ⟨x, hx, hpx⟩ := h.exists_connected hunited hp
    obtain ⟨y, hy, hqy⟩ := h.exists_connected hunited hq
    have hnew : Update.cycle paths snapshot ∈ updates ++ [.cycle paths snapshot] :=
      List.mem_append_right _ (List.mem_singleton_self _)
    exact .trans _ _ _ (.trans _ _ _ hpx (.rel _ _ (.inr ⟨paths, hnew, hx, hy⟩))) (.symm _ _ hqy)
  · intro hconnected
    exact hconnected.of_kept (fun x ↦ united.paths.any x.same = true)
      (fun _ _ hlinked ↦ h.any_united_of_linked hunited hlinked) hp

/-- A group that the cycle does not meet stays a class. -/
theorem group?_iff_connected_of_not_met (h : Reflects updates t) {s : Snapshot}
    (hmet : ¬ t.Met paths snapshot id) (hp : t.group? ⟨p, s⟩ = some id) :
    t.group? ⟨q, s⟩ = some id ↔ Connected (updates ++ [.cycle paths snapshot]) s p q := by
  constructor
  · intro hq
    exact ((h.connected s p id hp q).1 hq).mono (List.subset_append_left _ _)
  · intro hconnected
    refine hconnected.of_kept (fun x ↦ t.group? ⟨x, s⟩ = some id) ?_ hp
    intro x y hlinked hx
    rcases linked_concat_cycle hlinked with hlinked | ⟨rfl, hlisted, -⟩
    · exact (h.connected s x id hx y).2 (.rel _ _ hlinked)
    · exact (hmet (met_of_listed hlisted hx)).elim

theorem mem_results_united_iff (h : Reflects updates t)
    (hunited : t.United paths snapshot united t') (i : Nat × Nat) :
    i ∈ united.results ↔ ∃ p, united.paths.any p.same = true ∧
      Update.result p snapshot i.1 i.2 ∈ updates := by
  rw [hunited.results]
  constructor
  · rintro ⟨id, g, hmet, hg, hi⟩
    obtain ⟨p, s, hp, hmem⟩ := (h.results id g hg i).1 hi
    have ⟨x, _, hx⟩ := hmet
    obtain rfl : s = snapshot := h.wellFormed.snapshot_eq hp hx
    exact ⟨p, (hunited.files p).2 (.inr ⟨id, hmet, hp⟩), hmem⟩
  · rintro ⟨p, hp, hmem⟩
    obtain ⟨id, hmet, hid⟩ := h.exists_met hunited hp ⟨_, hmem, rfl, p.same_self⟩
    obtain ⟨g, hg⟩ := h.wellFormed.alive _ id hid
    exact ⟨id, g, hmet, hg, (h.results id g hg i).2 ⟨p, snapshot, hid, hmem⟩⟩

/-- A cycle unites the groups that it meets. -/
theorem unite (h : Reflects updates t) (hunited : t.United paths snapshot united t') :
    Reflects (updates ++ [.cycle paths snapshot]) t' := by
  have hold : ∀ p s i j, Update.result p s i j ∈ updates ++ [.cycle paths snapshot] ↔
      Update.result p s i j ∈ updates := by simp
  refine ⟨hunited.wellFormed h.wellFormed, fun k ↦ ?_, fun s p n hp q ↦ ?_, fun n g hg ↦ ?_,
    fun n g hg i ↦ ?_⟩
  · rw [mentioned_concat_cycle, ← h.mentioned, hunited.keys]
    split_ifs with hk
    · refine iff_of_true ⟨_, rfl⟩ ?_
      obtain ⟨rfl, hpath⟩ := hk
      exact ((hunited.files _).1 hpath).symm.imp (fun ⟨id, _, hid⟩ ↦ ⟨id, hid⟩)
        fun hlisted ↦ ⟨rfl, hlisted⟩
    · refine (or_iff_left fun hlisted ↦ hk ⟨hlisted.1, ?_⟩).symm
      exact (hunited.files _).2 (.inl hlisted.2)
  · by_cases hn : n = t.nextGroup
    · subst hn
      obtain ⟨rfl, hp⟩ := (hunited.group?_eq_next_iff h.wellFormed).1 hp
      rw [hunited.group?_eq_next_iff h.wellFormed, and_iff_right rfl]
      exact h.any_united_iff_connected hunited hp
    · rw [hunited.group?_eq_iff h.wellFormed hn] at hp ⊢
      rw [and_iff_right hp.1]
      exact h.group?_iff_connected_of_not_met hp.1 hp.2
  · rcases hunited.lookup?_cases hg with ⟨-, rfl⟩ | ⟨-, -, hg⟩
    · exact hunited.ordered
    · exact h.ordered n g hg
  · simp only [hold]
    rcases hunited.lookup?_cases hg with ⟨rfl, rfl⟩ | ⟨hn, hmet, hg⟩
    · rw [h.mem_results_united_iff hunited]
      simp only [hunited.group?_eq_next_iff h.wellFormed]
      constructor
      · rintro ⟨p, hp, hmem⟩
        exact ⟨p, snapshot, ⟨rfl, hp⟩, hmem⟩
      · rintro ⟨p, s, ⟨rfl, hp⟩, hmem⟩
        exact ⟨p, hp, hmem⟩
    · rw [h.results n g hg]
      simp only [hunited.group?_eq_iff h.wellFormed hn, hmet, not_false_eq_true, true_and]

end Cycle

end Reflects

theorem DistinctIds.of_subset {updates updates' : List Update} (h : DistinctIds updates')
    (hsub : updates ⊆ updates') : DistinctIds updates :=
  fun p s i t p' s' i' t' hmem hmem' ↦ h p s i t p' s' i' t' (hsub hmem) (hsub hmem')

/-- After every history keys lead to one group exactly for connected paths. -/
theorem reflects_after (updates : List Update) (hids : DistinctIds updates) :
    Reflects updates (after updates).table := by
  induction updates using List.reverseRecOn with
  | nil => exact .nil
  | append_singleton updates u ih =>
    have hbefore := hids.of_subset (List.subset_append_left _ _)
    have h := ih hbefore
    rw [after_concat]
    cases u with
    | result path snapshot fileId tree =>
      change Reflects _ ((after updates).table.setResults ⟨path, snapshot⟩ fileId tree)
      cases hkey : (after updates).table.group? ⟨path, snapshot⟩ with
      | some id => exact h.insert hids hkey
      | none => exact h.cons hkey
    | cycle paths snapshot =>
      obtain ⟨united, hunited⟩ :=
        GroupTable.exists_united h.wellFormed (h.agree hbefore) h.ordered paths snapshot
      exact h.unite hunited

/-- The results of a path are those of the paths that it is connected to. -/
theorem Reflects.exists_entries {c : IncludeCache} {updates : List Update}
    (h : Reflects updates c.table) (path : Path) (snapshot : Snapshot) :
    ∃ entries : List (Nat × Nat), c.results path snapshot = entries.map Prod.snd ∧
      entries.Pairwise (fun a b ↦ a.1 < b.1) ∧
      ∀ i, i ∈ entries ↔ ∃ other, Connected updates snapshot path other ∧
        Update.result other snapshot i.1 i.2 ∈ updates := by
  unfold IncludeCache.results GroupTable.results
  cases hkey : c.table.group? ⟨path, snapshot⟩ with
  | none =>
    refine ⟨[], rfl, .nil, fun i ↦ ⟨fun hi ↦ (List.not_mem_nil hi).elim, ?_⟩⟩
    rintro ⟨other, hconnected, hmem⟩
    obtain ⟨id, hother⟩ := (h.mentioned ⟨other, snapshot⟩).2 ⟨_, hmem, rfl, other.same_self⟩
    have hpath := (h.connected snapshot other id hother path).2 (.symm _ _ hconnected)
    exact absurd (hkey.symm.trans hpath) (by simp)
  | some id =>
    obtain ⟨g, hg⟩ := h.wellFormed.alive _ id hkey
    rw [Option.bind_some, hg]
    refine ⟨g.results, rfl, h.ordered id g hg, fun i ↦ ?_⟩
    rw [h.results id g hg]
    constructor
    · rintro ⟨other, s, hother, hmem⟩
      obtain rfl : s = snapshot := h.wellFormed.snapshot_eq hother hkey
      exact ⟨other, (h.connected s path id hkey other).1 hother, hmem⟩
    · rintro ⟨other, hconnected, hmem⟩
      exact ⟨other, snapshot, (h.connected snapshot path id hkey other).2 hconnected, hmem⟩

/-- Whatever a cache was told, a path has the results of the paths that it is connected to, under
its own snapshot, each once and in the order of the file ids. Keys are there for the paths that were
mentioned, they lead to one group exactly for connected paths, and no key leads to a group that was
removed: every group has the files whose keys lead to it, under one snapshot. -/
theorem results_after (updates : List Update) (hids : DistinctIds updates) (path : Path)
    (snapshot : Snapshot) :
    (∃ entries : List (Nat × Nat), (after updates).results path snapshot = entries.map Prod.snd ∧
        entries.Pairwise (fun a b ↦ a.1 < b.1) ∧ (entries.map Prod.snd).Nodup ∧
        ∀ i, i ∈ entries ↔ ∃ other, Connected updates snapshot path other ∧
          Update.result other snapshot i.1 i.2 ∈ updates) ∧
      ((∃ id, (after updates).table.group? ⟨path, snapshot⟩ = some id) ↔
        ∃ u ∈ updates, u.Mentions path snapshot) ∧
      (∀ id, (after updates).table.group? ⟨path, snapshot⟩ = some id →
        ∀ other, (after updates).table.group? ⟨other, snapshot⟩ = some id ↔
          Connected updates snapshot path other) ∧
      (after updates).table.WellFormed := by
  have h := reflects_after updates hids
  refine ⟨?_, h.mentioned _, h.connected snapshot path, h.wellFormed⟩
  obtain ⟨entries, hresults, hordered, hmem⟩ := h.exists_entries path snapshot
  refine ⟨entries, hresults, hordered, ?_, hmem⟩
  -- Entries with different ids have different trees.
  rw [List.nodup_iff_pairwise_ne, List.pairwise_map]
  apply hordered.imp_of_mem
  intro i j hi hj hlt heq
  obtain ⟨p, -, hi⟩ := (hmem i).1 hi
  obtain ⟨q, -, hj⟩ := (hmem j).1 hj
  exact Nat.ne_of_lt hlt ((hids _ _ _ _ _ _ _ _ hi hj).2 heq)

/-- A result before the cycles, one between them, one after them, and one under another snapshot. -/
def overlap : List Update :=
  [.result ⟨"a.h"⟩ {} 3 7, .cycle [⟨"b.h"⟩, ⟨"a.h"⟩] {}, .result ⟨"c.h"⟩ {} 1 9,
    .cycle [⟨"c.h"⟩, ⟨"b.h"⟩] {}, .result ⟨"b.h"⟩ {} 2 4,
    .result ⟨"b.h"⟩ { pending := "Q" } 0 2]

theorem distinctIds_overlap : DistinctIds overlap := by
  intro p s i t p' s' i' t' hmem hmem'
  simp only [overlap, List.mem_cons, List.not_mem_nil, Update.result.injEq, reduceCtorEq, or_false,
    false_or] at hmem hmem'
  omega

/-- The group of the first two files is united with that of the third. -/
theorem results_after_overlap :
    (after overlap).results ⟨"a.h"⟩ {} = [9, 4, 7] ∧
      (after overlap).results ⟨"b.h"⟩ { pending := "Q" } = [2] ∧
      (after overlap).table.group? ⟨⟨"a.h"⟩, {}⟩ = some 3 ∧
      (∃ entries : List (Nat × Nat),
        (after overlap).results ⟨"a.h"⟩ {} = entries.map Prod.snd ∧
          entries.Pairwise (fun a b ↦ a.1 < b.1) ∧ (entries.map Prod.snd).Nodup ∧
          ∀ i, i ∈ entries ↔ ∃ other, Connected overlap {} ⟨"a.h"⟩ other ∧
            Update.result other {} i.1 i.2 ∈ overlap) ∧
      ((after overlap).table.group? ⟨⟨"c.h"⟩, {}⟩ = some 3 ↔
        Connected overlap {} ⟨"a.h"⟩ ⟨"c.h"⟩) ∧
      (after overlap).table.WellFormed := by
  have hkey : (after overlap).table.group? ⟨⟨"a.h"⟩, {}⟩ = some 3 := by decide +kernel
  obtain ⟨hresults, -, hconnected, hwell⟩ := results_after overlap distinctIds_overlap ⟨"a.h"⟩ {}
  exact ⟨by decide +kernel, by decide +kernel, hkey, hresults, hconnected 3 hkey _, hwell⟩

end IncludeCache

end Harvest
