import Harvest.Proofs.Extract.Readings
import Harvest.Proofs.Extract.Sessions
import Harvest.Proofs.NormalPath
import Harvest.Proofs.Scope.Learning

/-!
# Sessions that hold what is expected

Of some files it is expected which messages they have, and of some headers which snapshot they end in
and what they teach. A session is good if its cache and its forest hold nothing else about them. This
module says what keeps a session good while a file is read: changes on behalf of that file, includes
of headers whose results are known, and the reading of another file on its own, if it ends as
expected. The trees of the files that wait stay as they are meanwhile, and other trees are kept.
-/

namespace Harvest

open IncludeCache (Update)

/-- What is expected of the files of a run. -/
structure Canon where
  files : FileTree
  /-- The files that may be read in place of an include. -/
  Insertable : Path → Prop
  /-- The files whose messages are to be as expected. -/
  Counts : Path → Prop
  messages : Path → List Message
  /-- What is read in place of an include, on behalf of the files that count. -/
  Inserts : Path → Path → Prop
  /-- The headers whose scopes are to be as expected. -/
  Shared : Path → Prop
  snapshot : Path → Snapshot
  lore : Path → Lore
  clean : ∀ path, Counts path → path.clean = path
  counts : ∀ path, Shared path → Counts path

theorem Path.eq_of_same {p q : Path} (hp : p.clean = p) (hq : q.clean = q) (h : p.same q = true) :
    p = q := by
  rw [← hp, ← hq] at h
  rw [← hp, ← hq, Path.same_clean_iff.1 h]

theorem FileTree.clean_of_mem_readable {files : FileTree} {path : Path} (h : path ∈ files.readable) :
    path.clean = path := by
  obtain ⟨⟨p, rfl⟩, -⟩ := h
  exact p.clean_clean

theorem IncludeCache.messagesOf_setMessages_of_or {c : IncludeCache} {path : Path}
    {messages : List Message} (h : c.messagesOf path = [] ∨ c.messagesOf path = messages) :
    (c.setMessages path messages).messagesOf path = messages := by
  cases messages with
  | nil => exact h.elim id id
  | cons m messages => simp [setMessages, messagesOf, Path.same_self]

theorem IncludeCache.messagesOf_addBlacklisted (c : IncludeCache) (path other : Path) :
    (c.addBlacklisted path).messagesOf other = c.messagesOf other := by
  unfold addBlacklisted
  split <;> rfl

/-- A result of the session is as expected, and its tree is none of those that are being read. -/
structure Canon.Meets (C : Canon) (opened : Set Nat) (s : Session) (path : Path)
    (snapshot : Snapshot) (tree : Nat) : Prop where
  header : path.isHeader = true
  readable : path ∈ C.files.readable
  closed : tree ∉ opened
  messages : C.Counts path → s.cache.messagesOf path = C.messages path
  inserts : C.Counts path → ∀ y, C.Inserts path y → s.cache.isBlacklisted y = true
  snapshot : C.Shared path → snapshot = C.snapshot path
  settled : C.Shared path → s.forest.Settled tree
  teaches : C.Shared path → s.forest.Teaches tree = C.lore path

namespace Session

variable {C : Canon} {opened : Set Nat} {updates : List Update} {s s' s₀ : Session} {t u : Nat}
  {path : Path} {f : Forest}

/-- The session holds nothing but what is expected, while the trees `opened` are being read. -/
structure Good (C : Canon) (opened : Set Nat) (updates : List Update) (s : Session) : Prop where
  sound : s.Sound updates
  lt : ∀ t ∈ opened, t < s.forest.trees.size
  apart : ∀ t ∈ opened, ∀ u, t ∉ s.forest.included u
  results : ∀ update ∈ updates, ∃ path snapshot tree,
    update = .result path snapshot tree tree ∧ C.Meets opened s path snapshot tree
  messages : ∀ path, C.Counts path →
    s.cache.messagesOf path = [] ∨ s.cache.messagesOf path = C.messages path
  blacklist : ∀ path : Path, path.clean = path → s.cache.isBlacklisted path = true →
    path.isHeader = false ∧ C.Insertable path

namespace Good

theorem empty (C : Canon) : ({} : Session).Good C ∅ [] where
  sound := ⟨.empty, fun t ht ↦ (Nat.not_lt_zero t ht).elim, fun _ _ hi ↦ (List.not_mem_nil hi).elim,
    rfl, rfl, fun _ _ _ _ hmem ↦ (List.not_mem_nil hmem).elim⟩
  lt _ ht := ht.elim
  apart _ ht := ht.elim
  results _ hmem := (List.not_mem_nil hmem).elim
  messages _ _ := .inl rfl
  blacklist _ _ h := Bool.noConfusion h

theorem mono {other : Set Nat} (h : s.Good C other updates) (hsub : opened ⊆ other) :
    s.Good C opened updates where
  sound := h.sound
  lt t ht := h.lt t (hsub ht)
  apart t ht := h.apart t (hsub ht)
  results update hmem := by
    obtain ⟨path, snapshot, tree, heq, hmeets⟩ := h.results update hmem
    exact ⟨path, snapshot, tree, heq, { hmeets with closed := fun ht ↦ hmeets.closed (hsub ht) }⟩
  messages := h.messages
  blacklist := h.blacklist

theorem notMem_of_included (h : s.Good C opened updates) {v : Nat} (hu : u ∈ s.forest.included v) :
    u ∉ opened :=
  fun hopened ↦ h.apart u hopened v hu

theorem notMem_of_sees (h : s.Good C opened updates) {v : Nat} (hu : u ∉ opened)
    (hsees : s.forest.Sees u v) : v ∉ opened := by
  rcases hsees.cases_tail with rfl | ⟨w, -, hv⟩
  · exact hu
  · exact h.notMem_of_included hv

/-- No header was read in place of an include. -/
theorem isBlacklisted_eq_false (h : s.Good C opened updates) (hclean : path.clean = path)
    (hheader : path.isHeader = true) : s.cache.isBlacklisted path = false := by
  rw [Bool.eq_false_iff]
  intro hblacklisted
  rw [(h.blacklist path hclean hblacklisted).1] at hheader
  cases hheader

/-- What is known of a header is as expected. -/
theorem meets_of_mem_results (h : s.Good C opened updates) (hclean : path.clean = path)
    {snapshot : Snapshot} (ht : t ∈ s.cache.results path snapshot) :
    t < s.forest.trees.size ∧ C.Meets opened s path snapshot t := by
  refine ⟨h.sound.lt_of_mem_results ht, ?_⟩
  obtain ⟨entries, hresults, -, hmem⟩ := h.sound.reflects.exists_entries path snapshot
  rw [hresults] at ht
  obtain ⟨i, hi, rfl⟩ := List.mem_map.1 ht
  obtain ⟨other, hconnected, hupdate⟩ := (hmem i).1 hi
  obtain ⟨_, _, tree, heq, hmeets⟩ := h.results _ hupdate
  injection heq with hother hsnapshot hid htree
  subst hother hsnapshot
  rw [← htree] at hmeets
  -- No cycle has connected files with each other.
  have hsame : path.same other = true := by
    refine hconnected.of_kept (fun x ↦ path.same x = true) ?_ path.same_self
    rintro x y (hxy | ⟨paths, hcycle, -⟩) hx
    · rwa [← Path.same_congr hxy]
    · obtain ⟨_, _, _, heq, -⟩ := h.results _ hcycle
      cases heq
  rw [Path.eq_of_same hclean (FileTree.clean_of_mem_readable hmeets.readable) hsame]
  exact hmeets

/-- The forest changes in trees that are being read, or in such a way that the others are kept. -/
theorem congr (h : s.Good C opened updates) (hsound : s'.Sound updates)
    (hlt : ∀ t ∈ opened, t < s'.forest.trees.size)
    (hapart : ∀ t ∈ opened, ∀ u, t ∉ s'.forest.included u)
    (hkeeps : ∀ u < s.forest.trees.size, u ∉ opened → s.forest.Keeps s'.forest u)
    (hmessages : ∀ path, s'.cache.messagesOf path = s.cache.messagesOf path)
    (hblacklist : ∀ path, s'.cache.isBlacklisted path = s.cache.isBlacklisted path) :
    s'.Good C opened updates where
  sound := hsound
  lt := hlt
  apart := hapart
  results update hmem := by
    obtain ⟨path, snapshot, tree, rfl, hmeets⟩ := h.results update hmem
    have htree := (h.sound.results _ _ _ _ hmem).2
    have hseen : ∀ v, s.forest.Sees tree v → s.forest.Keeps s'.forest v := by
      intro v hv
      refine hkeeps v ?_ (h.notMem_of_sees hmeets.closed hv)
      rcases hv.cases_tail with rfl | ⟨w, -, hv⟩
      · exact htree
      · exact h.sound.forest.includes w v hv
    have hkept := fun hshared ↦
      Forest.teaches_of_keeps hseen h.sound.forest (hmeets.settled hshared)
    exact ⟨path, snapshot, tree, rfl, hmeets.header, hmeets.readable, hmeets.closed,
      fun hcounts ↦ (hmessages path).trans (hmeets.messages hcounts),
      fun hcounts y hy ↦ (hblacklist y).trans (hmeets.inserts hcounts y hy), hmeets.snapshot,
      fun hshared ↦ (hkept hshared).2, fun hshared ↦ (hkept hshared).1.trans (hmeets.teaches hshared)⟩
  messages path hcounts := by
    rw [hmessages path]
    exact h.messages path hcounts
  blacklist path hclean hblacklisted := by
    rw [hblacklist] at hblacklisted
    exact h.blacklist path hclean hblacklisted

theorem addBlacklisted (h : s.Good C opened updates) (hclean : path.clean = path)
    (hheader : path.isHeader = false) (hinsertable : C.Insertable path) :
    Good C opened updates { s with cache := s.cache.addBlacklisted path } where
  sound := h.sound.setCache (IncludeCache.nextFileId_addBlacklisted s.cache path)
    (IncludeCache.table_addBlacklisted s.cache path)
  lt := h.lt
  apart := h.apart
  results update hmem := by
    obtain ⟨other, snapshot, tree, heq, hmeets⟩ := h.results update hmem
    refine ⟨other, snapshot, tree, heq,
      { hmeets with messages := fun hcounts ↦ ?_, inserts := fun hcounts y hy ↦ ?_ }⟩
    · rw [IncludeCache.messagesOf_addBlacklisted]
      exact hmeets.messages hcounts
    · rw [IncludeCache.isBlacklisted_addBlacklisted, hmeets.inserts hcounts y hy, Bool.true_or]
  messages other hcounts := by
    rw [IncludeCache.messagesOf_addBlacklisted]
    exact h.messages other hcounts
  blacklist other hother hblacklisted := by
    rw [IncludeCache.isBlacklisted_addBlacklisted, Bool.or_eq_true] at hblacklisted
    rcases hblacklisted with hold | hsame
    · exact h.blacklist other hother hold
    · rw [Path.eq_of_same hother hclean hsame]
      exact ⟨hheader, hinsertable⟩

end Good

/-- What counts of the first session is still so in the second, and the trees `opened` are as they
were. -/
structure Kept (C : Canon) (opened : Set Nat) (s s' : Session) : Prop where
  size : s.forest.trees.size ≤ s'.forest.trees.size
  keeps : ∀ u < s.forest.trees.size, s.forest.Keeps s'.forest u
  opened : ∀ u ∈ opened, s'.forest.tree u = s.forest.tree u
  recalls : ∀ path, C.Counts path → s.cache.messagesOf path = C.messages path →
    s'.cache.messagesOf path = C.messages path
  inserts : ∀ path, s.cache.isBlacklisted path = true → s'.cache.isBlacklisted path = true

namespace Kept

variable {s'' : Session}

theorem refl (C : Canon) (opened : Set Nat) (s : Session) : s.Kept C opened s :=
  ⟨Nat.le_refl _, fun u _ ↦ .refl _ u, fun _ _ ↦ rfl, fun _ _ h ↦ h, fun _ h ↦ h⟩

theorem trans (h : s.Kept C opened s') (h' : s'.Kept C opened s'') : s.Kept C opened s'' where
  size := h.size.trans h'.size
  keeps u hu := (h.keeps u hu).trans (h'.keeps u (Nat.lt_of_lt_of_le hu h.size))
  opened u hu := (h'.opened u hu).trans (h.opened u hu)
  recalls path hcounts hmessages := h'.recalls path hcounts (h.recalls path hcounts hmessages)
  inserts path hinserted := h'.inserts path (h.inserts path hinserted)

/-- What happens next changes a tree `t` that is new, and keeps the others. -/
theorem next (h : s₀.Kept C opened s) (hnew : s₀.forest.trees.size ≤ t)
    (hsize : s.forest.trees.size ≤ s'.forest.trees.size)
    (hkeeps : ∀ u < s.forest.trees.size, u ≠ t → s.forest.Keeps s'.forest u)
    (hopened : ∀ u ∈ opened, s'.forest.tree u = s.forest.tree u)
    (hrecalls : ∀ path, C.Counts path → s.cache.messagesOf path = C.messages path →
      s'.cache.messagesOf path = C.messages path)
    (hinserts : ∀ path, s.cache.isBlacklisted path = true → s'.cache.isBlacklisted path = true) :
    s₀.Kept C opened s' where
  size := h.size.trans hsize
  keeps u hu := (h.keeps u hu).trans
    (hkeeps u (Nat.lt_of_lt_of_le hu h.size) (Nat.ne_of_lt (Nat.lt_of_lt_of_le hu hnew)))
  opened u hu := (hopened u hu).trans (h.opened u hu)
  recalls path hcounts hrecalled := hrecalls path hcounts (h.recalls path hcounts hrecalled)
  inserts path hinserted := hinserts path (h.inserts path hinserted)

end Kept

/-- The tree `t` is being read, from the session `s₀` on. -/
structure Tended (C : Canon) (opened : Set Nat) (s₀ s : Session) (t : Nat) : Prop where
  good : ∃ updates, s.Good C (insert t opened) updates
  kept : s₀.Kept C opened s
  new : s₀.forest.trees.size ≤ t
  closed : t ∉ opened

namespace Tended

theorem lt (h : Tended C opened s₀ s t) : t < s.forest.trees.size := by
  obtain ⟨updates, hgood⟩ := h.good
  exact hgood.lt t (Set.mem_insert t opened)

/-- A file that is read on its own gets a tree of its own. -/
theorem planted (h : s.Good C opened updates) :
    Tended C opened s (Parser.planted s) s.forest.trees.size := by
  have hsize : (Parser.planted s).forest.trees.size = s.forest.trees.size + 1 := Array.size_push _
  have hne : ∀ u < s.forest.trees.size, u ≠ s.forest.trees.size := fun u hu ↦ Nat.ne_of_lt hu
  have hkeeps : ∀ u < s.forest.trees.size, s.forest.Keeps (Parser.planted s).forest u := fun u hu ↦
    Forest.keeps_of_tree_eq (Forest.tree_plant_of_ne _ _ (hne u hu))
  have hclosed : s.forest.trees.size ∉ opened := fun hmem ↦ Nat.lt_irrefl _ (h.lt _ hmem)
  have hincluded : ∀ u, (Parser.planted s).forest.included u = s.forest.included u :=
    s.forest.included_plant _
  refine ⟨⟨updates, h.sound.planted, ?_, ?_, ?_, h.messages, h.blacklist⟩,
    ⟨hsize ▸ Nat.le_succ _, hkeeps, fun u hu ↦ Forest.tree_plant_of_ne _ _ (hne u (h.lt u hu)),
      fun _ _ h ↦ h, fun _ h ↦ h⟩, Nat.le_refl _, hclosed⟩
  · rintro t (rfl | ht)
    · exact hsize ▸ Nat.lt_succ_self _
    · exact hsize ▸ Nat.lt_succ_of_lt (h.lt t ht)
  · rintro t (rfl | ht) u hu
    · rw [hincluded] at hu
      exact Nat.lt_irrefl _ (h.sound.forest.includes u _ hu)
    · rw [hincluded] at hu
      exact h.apart t ht u hu
  · intro update hmem
    have hplanted : (Parser.planted s).Good C opened updates := by
      refine h.congr h.sound.planted (fun t ht ↦ hsize ▸ Nat.lt_succ_of_lt (h.lt t ht))
        (fun t ht u ↦ ?_) (fun u hu _ ↦ hkeeps u hu) (fun _ ↦ rfl) fun _ ↦ rfl
      rw [hincluded]
      exact h.apart t ht u
    obtain ⟨path, snapshot, tree, rfl, hmeets⟩ := hplanted.results update hmem
    refine ⟨path, snapshot, tree, rfl, { hmeets with closed := ?_ }⟩
    rintro (rfl | htree)
    · exact Nat.lt_irrefl _ (h.sound.results _ _ _ _ hmem).2
    · exact hmeets.closed htree

/-- Something is done on behalf of the file that is being read. -/
theorem spares (h : Tended C opened s₀ s t) (hspares : s.forest.Spares t f) (hformed : f.WellFormed)
    (diagnostics : Array Diagnostic) :
    Tended C opened s₀ { s with forest := f, diagnostics := diagnostics } t := by
  obtain ⟨⟨updates, hgood⟩, hkept, hnew, hclosed⟩ := h
  have hincluded := hspares.files.included_eq
  constructor
  · refine ⟨updates, hgood.congr (hgood.sound.congr hformed hspares.files rfl) ?_ ?_ ?_ (fun _ ↦ rfl)
      fun _ ↦ rfl⟩
    · intro u hu
      exact hspares.files.size.symm ▸ hgood.lt u hu
    · intro u hu v
      rw [hincluded]
      exact hgood.apart u hu v
    · intro u _ hu
      exact hspares.keeps u fun heq ↦ hu (heq ▸ Set.mem_insert t opened)
  · refine hkept.next hnew hspares.files.size.symm.le (fun u _ hu ↦ hspares.keeps u hu) ?_
      (fun _ _ h ↦ h) fun _ h ↦ h
    intro u hu
    apply hspares.unseen
    intro hsees
    rcases hsees.cases_tail with rfl | ⟨w, -, hw⟩
    · exact hclosed hu
    · exact hgood.apart u (Set.mem_insert_of_mem t hu) w hw
  · exact hnew
  · exact hclosed

/-- The file that is being read comes to include another one. -/
theorem addInclude (h : Tended C opened s₀ s t) (hu : u < s.forest.trees.size)
    (hclosed : u ∉ insert t opened) :
    Tended C opened s₀ { s with forest := s.forest.addInclude t u } t := by
  have ht := h.lt
  obtain ⟨⟨updates, hgood⟩, hkept, hnew, hopened⟩ := h
  have hsize := s.forest.size_addInclude t u
  have hothers : ∀ v ≠ t, (s.forest.addInclude t u).tree v = s.forest.tree v := by
    intro v hv
    rw [Forest.tree_addInclude ht, if_neg hv]
  constructor
  · refine ⟨updates, hgood.congr (hgood.sound.addInclude ht hu) ?_ ?_ ?_ (fun _ ↦ rfl)
      fun _ ↦ rfl⟩
    · intro v hv
      exact hsize.symm ▸ hgood.lt v hv
    · intro v hv w hw
      by_cases hwt : w = t
      · subst hwt
        rw [Forest.included, Forest.tree_addInclude ht, if_pos rfl, List.mem_map] at hw
        obtain ⟨i, hi, rfl⟩ := hw
        rcases Forest.mem_insertAbsent hi with rfl | hi
        · exact hclosed hv
        · exact hgood.apart _ hv w (List.mem_map_of_mem hi)
      · rw [Forest.included, hothers w hwt] at hw
        exact hgood.apart v hv w hw
    · intro v _ hv
      exact Forest.keeps_of_tree_eq (hothers v fun heq ↦ hv (heq ▸ Set.mem_insert t opened))
  · exact hkept.next hnew hsize.symm.le (fun v _ hv ↦ Forest.keeps_of_tree_eq (hothers v hv))
      (fun v hv ↦ hothers v (ne_of_mem_of_not_mem hv hopened)) (fun _ _ h ↦ h) fun _ h ↦ h
  · exact hnew
  · exact hopened

theorem addIncludes (h : Tended C opened s₀ s t) {us : List Nat}
    (hus : ∀ u ∈ us, u < s.forest.trees.size ∧ u ∉ insert t opened) :
    Tended C opened s₀
      { s with forest := us.foldl (fun forest u ↦ forest.addInclude t u) s.forest } t := by
  induction us generalizing s with
  | nil => exact h
  | cons u us ih =>
    obtain ⟨hu, hclosed⟩ := hus u List.mem_cons_self
    apply ih (h.addInclude hu hclosed)
    intro v hv
    rw [Forest.size_addInclude]
    exact hus v (List.mem_cons_of_mem u hv)

theorem addBlacklisted (h : Tended C opened s₀ s t) (hclean : path.clean = path)
    (hheader : path.isHeader = false) (hinsertable : C.Insertable path) :
    Tended C opened s₀ { s with cache := s.cache.addBlacklisted path } t := by
  obtain ⟨⟨updates, hgood⟩, hkept, hnew, hclosed⟩ := h
  refine ⟨⟨updates, hgood.addBlacklisted hclean hheader hinsertable⟩, ?_, hnew, hclosed⟩
  refine hkept.next hnew (Nat.le_refl _) (fun u _ _ ↦ .refl _ u) (fun _ _ ↦ rfl)
    (fun path _ h ↦ ?_) fun path h ↦ ?_
  · rwa [IncludeCache.messagesOf_addBlacklisted]
  · rw [IncludeCache.isBlacklisted_addBlacklisted, h, Bool.true_or]

end Tended

end Session

namespace Parser

theorem representative_cases (f : Forest) (d : Detached) : representative f d = d.tree ∨
    f.isForwarding d.tree = true ∧ f.included d.tree = [representative f d] := by
  unfold representative
  split
  · rename_i id included hincludes
    by_cases hforwarding : (d.messages.isEmpty && f.isForwarding d.tree) = true
    · rw [if_pos hforwarding, Forest.included, hincludes]
      exact .inr ⟨(Bool.and_eq_true_iff.1 hforwarding).2, rfl⟩
    · rw [if_neg hforwarding]
      exact .inl rfl
  · exact .inl rfl

theorem standIn_cases (p : Parser) : p.standIn = p.tree ∨
    p.session.forest.isForwarding p.tree = true ∧
      p.session.forest.included p.tree = [p.standIn] :=
  representative_cases p.session.forest (p.outcome p.tree)

/-- The tree that stands for a file teaches what the file teaches. -/
theorem teaches_standIn (p : Parser) :
    p.session.forest.Teaches p.standIn = p.session.forest.Teaches p.tree := by
  rcases p.standIn_cases with heq | ⟨hforwarding, hincluded⟩
  · rw [heq]
  · exact (Forest.teaches_of_isForwarding hforwarding hincluded).symm

theorem sees_standIn (p : Parser) : p.session.forest.Sees p.tree p.standIn := by
  rcases p.standIn_cases with heq | ⟨-, hincluded⟩
  · rw [heq]
    exact .refl
  · exact .single (hincluded ▸ List.mem_singleton_self _)

end Parser

/-- The parser has read its file on its own, and the file is as expected. -/
structure Canon.Yields (C : Canon) (p : Parser) : Prop where
  clean : p.file.clean = p.file
  messages : C.Counts p.file → p.messages.toList = C.messages p.file
  inserts : C.Counts p.file → ∀ y, C.Inserts p.file y → p.session.cache.isBlacklisted y = true
  snapshot : C.Shared p.file → p.snapshot = C.snapshot p.file
  settled : C.Shared p.file → p.session.forest.Settled p.tree
  teaches : C.Shared p.file → p.session.forest.Teaches p.tree = C.lore p.file

namespace Session

variable {C : Canon} {opened : Set Nat} {updates : List Update} {s s₀ : Session} {t : Nat}
  {path : Path} {p : Parser}

theorem isBlacklisted_store (p : Parser) (header : Bool) (path : Path) :
    (Parser.store p.session p.file (p.outcome p.tree) header).cache.isBlacklisted path =
      p.session.cache.isBlacklisted path := by
  rw [IncludeCache.isBlacklisted, Parser.blacklist_store, IncludeCache.isBlacklisted]

/-- The messages of a file that counts, when the results of another file or its own are stored. -/
theorem messagesOf_store_of_counts (hyields : C.Yields p) (header : Bool) (hcounts : C.Counts path)
    (hmessages : p.session.cache.messagesOf path = [] ∨
      p.session.cache.messagesOf path = C.messages path) :
    (Parser.store p.session p.file (p.outcome p.tree) header).cache.messagesOf path =
      if path = p.file then C.messages path else p.session.cache.messagesOf path := by
  rw [IncludeCache.messagesOf, Parser.messages_store, ← IncludeCache.messagesOf]
  split_ifs with hpath
  · subst hpath
    rw [Parser.outcome, hyields.messages hcounts]
    exact IncludeCache.messagesOf_setMessages_of_or hmessages
  · apply IncludeCache.messagesOf_setMessages_of_not_same
    rw [Bool.eq_false_iff]
    intro hsame
    exact hpath (Path.eq_of_same hyields.clean (C.clean path hcounts) hsame).symm

/-- What counts stays so when a file that is as expected is stored. -/
theorem recalls_store (hgood : p.session.Good C opened updates) (hyields : C.Yields p)
    (header : Bool) (hcounts : C.Counts path)
    (hmessages : p.session.cache.messagesOf path = C.messages path) :
    (Parser.store p.session p.file (p.outcome p.tree) header).cache.messagesOf path = C.messages path := by
  rw [messagesOf_store_of_counts hyields header hcounts (hgood.messages path hcounts), hmessages]
  split_ifs <;> rfl

theorem Good.store (h : p.session.Good C opened updates)
    (htree : p.tree < p.session.forest.trees.size) (hclosed : p.tree ∉ opened)
    (hyields : C.Yields p) (header : Bool)
    (hheader : header = true → p.file.isHeader = true ∧ p.file ∈ C.files.readable) :
    (Parser.store p.session p.file (p.outcome p.tree) header).Good C opened
      (updates ++ if header then [p.result] else []) := by
  have hforest : (Parser.store p.session p.file (p.outcome p.tree) header).forest =
      p.session.forest := by cases header <;> rfl
  have hblacklist := isBlacklisted_store p header
  have hown : C.Counts p.file → (Parser.store p.session p.file (p.outcome p.tree)
      header).cache.messagesOf p.file = C.messages p.file := fun hcounts ↦
    (messagesOf_store_of_counts hyields header hcounts (h.messages _ hcounts)).trans (if_pos rfl)
  refine ⟨Parser.sound_store h.sound htree header, ?_, ?_, ?_, ?_, ?_⟩
  · rw [hforest]
    exact h.lt
  · rw [hforest]
    exact h.apart
  · intro update hmem
    rcases List.mem_append.1 hmem with hmem | hmem
    · obtain ⟨path, snapshot, tree, heq, hmeets⟩ := h.results update hmem
      exact ⟨path, snapshot, tree, heq, hmeets.header, hmeets.readable, hmeets.closed,
        fun hcounts ↦ recalls_store h hyields header hcounts (hmeets.messages hcounts),
        fun hcounts y hy ↦ (hblacklist y).trans (hmeets.inserts hcounts y hy), hmeets.snapshot,
        hforest ▸ hmeets.settled, hforest ▸ hmeets.teaches⟩
    · split_ifs at hmem with htrue
      · obtain rfl := List.mem_singleton.1 hmem
        obtain ⟨hisHeader, hreadable⟩ := hheader htrue
        refine ⟨p.file, p.snapshot, p.standIn, rfl, hisHeader, hreadable, ?_, hown,
          fun hcounts y hy ↦ (hblacklist y).trans (hyields.inserts hcounts y hy),
          hyields.snapshot, fun hshared ↦ ?_, fun hshared ↦ ?_⟩
        · exact h.notMem_of_sees hclosed p.sees_standIn
        · rw [hforest]
          exact (hyields.settled hshared).of_sees p.sees_standIn
        · rw [hforest, p.teaches_standIn]
          exact hyields.teaches hshared
      · cases hmem
  · intro path hcounts
    rw [messagesOf_store_of_counts hyields header hcounts (h.messages path hcounts)]
    split_ifs
    · exact .inr rfl
    · exact h.messages path hcounts
  · intro path hclean hblacklisted
    rw [hblacklist] at hblacklisted
    exact h.blacklist path hclean hblacklisted

namespace Tended

/-- A header whose results are known is included. -/
theorem known (h : Tended C opened s₀ s t) (hclean : path.clean = path) (snapshot : Snapshot) :
    Tended C opened s₀
        { s with
          forest := (s.cache.results path snapshot).foldl (fun f u ↦ f.addInclude t u) s.forest } t ∧
      (C.Shared path → s.cache.results path snapshot ≠ [] → s.forest.Current t →
        s.forest.Learns t (C.lore path)
          ((s.cache.results path snapshot).foldl (fun f u ↦ f.addInclude t u) s.forest)) := by
  obtain ⟨updates, hgood⟩ := h.good
  have hresults : ∀ {u}, u ∈ s.cache.results path snapshot → u < s.forest.trees.size ∧
      C.Meets (insert t opened) s path snapshot u := hgood.meets_of_mem_results hclean
  refine ⟨h.addIncludes fun u hu ↦ ⟨(hresults hu).1, (hresults hu).2.closed⟩, ?_⟩
  intro hshared hne hcurrent
  have hlearns := hcurrent.learns_addIncludes (hgood.sound.entries t) fun u hu ↦
    ⟨(hresults hu).1, fun heq ↦ (hresults hu).2.closed (heq ▸ Set.mem_insert t opened),
      (hresults hu).2.settled hshared⟩
  refine hlearns.congr fun topic a ↦ ?_
  constructor
  · rintro ⟨u, hu, hteaches⟩
    rwa [(hresults hu).2.teaches hshared] at hteaches
  · intro hlore
    obtain ⟨u, hu⟩ := List.exists_mem_of_ne_nil _ hne
    exact ⟨u, hu, by rwa [(hresults hu).2.teaches hshared]⟩

/-- A header that was read on its own is included. -/
theorem alone (h : Tended C opened s₀ s t)
    (hp : Tended C (insert t opened) s p.session p.tree) (hyields : C.Yields p)
    (hheader : p.file.isHeader = true) (hreadable : p.file ∈ C.files.readable) :
    Tended C opened s₀ { Parser.store p.session p.file (p.outcome p.tree) true with
        forest := p.session.forest.addInclude t p.standIn } t ∧
      (C.Shared p.file → s.forest.Current t →
        s.forest.Learns t (C.lore p.file) (p.session.forest.addInclude t p.standIn)) := by
  obtain ⟨-, hkept, hnew, hclosed⟩ := h
  have htree := hp.lt
  obtain ⟨⟨updates, hgood⟩, hkept', -, hclosed'⟩ := hp
  have hsub : insert t opened ⊆ insert p.tree (insert t opened) := Set.subset_insert _ _
  have hlt : p.standIn < p.session.forest.trees.size := Parser.representative_lt hgood.sound htree
  have hstandIn : p.standIn ∉ insert t opened :=
    (hgood.mono hsub).notMem_of_sees hclosed' p.sees_standIn
  constructor
  · have hstored := (hgood.mono hsub).store htree hclosed' hyields true fun _ ↦ ⟨hheader, hreadable⟩
    have htended : Tended C opened s₀ (Parser.store p.session p.file (p.outcome p.tree) true) t := by
      refine ⟨⟨_, hstored⟩, hkept.trans ⟨hkept'.size, hkept'.keeps, fun u hu ↦ ?_,
        fun path hcounts hmessages ↦ ?_, fun path hinserted ↦ ?_⟩, hnew, hclosed⟩
      · exact hkept'.opened u (Set.mem_insert_of_mem t hu)
      · exact recalls_store hgood hyields true hcounts (hkept'.recalls path hcounts hmessages)
      · exact (isBlacklisted_store p true path).trans (hkept'.inserts path hinserted)
    exact htended.addInclude hlt hstandIn
  · intro hshared hcurrent
    have hopened : t ∈ insert p.tree (insert t opened) := hsub (Set.mem_insert t opened)
    have hread := hcurrent.learns_of_keeps hgood.sound.forest hkept'.size hgood.sound.ids
      (hgood.apart t hopened) (hkept'.opened t (Set.mem_insert t opened)) hkept'.keeps
    have hincluded := hread.current.learns_addInclude (hgood.sound.entries t) hlt
      (fun heq ↦ hstandIn (heq ▸ Set.mem_insert t opened))
      ((hyields.settled hshared).of_sees p.sees_standIn)
    refine (hread.trans hincluded).congr fun topic a ↦ ?_
    rw [p.teaches_standIn, hyields.teaches hshared, false_or]

/-- An input was read to its end. -/
theorem close (h : Tended C opened s₀ p.session p.tree) (hyields : C.Yields p)
    (hreadable : p.file ∈ C.files.readable) :
    (∃ updates, p.close.Good C opened updates) ∧ s₀.Kept C opened p.close ∧
      (C.Counts p.file → p.close.cache.messagesOf p.file = C.messages p.file ∧
        ∀ y, C.Inserts p.file y → p.close.cache.isBlacklisted y = true) := by
  have htree := h.lt
  obtain ⟨⟨updates, hgood⟩, hkept, hnew, hclosed⟩ := h
  have hforest : p.close.forest = p.session.forest := by
    unfold Parser.close Parser.store
    split <;> rfl
  have hblacklist : ∀ y, p.close.cache.isBlacklisted y = p.session.cache.isBlacklisted y :=
    isBlacklisted_store p p.file.isHeader
  have hstored := (hgood.mono (Set.subset_insert _ _)).store htree hclosed hyields
    p.file.isHeader fun hheader ↦ ⟨hheader, hreadable⟩
  refine ⟨⟨_, hstored⟩, ⟨hforest ▸ hkept.size, hforest ▸ hkept.keeps, hforest ▸ hkept.opened, ?_, ?_⟩,
    fun hcounts ↦ ⟨?_, fun y hy ↦ ?_⟩⟩
  · intro path hcounts hmessages
    exact recalls_store hgood hyields _ hcounts (hkept.recalls path hcounts hmessages)
  · intro path hinserted
    rw [hblacklist]
    exact hkept.inserts path hinserted
  · exact (messagesOf_store_of_counts hyields _ hcounts (hgood.messages _ hcounts)).trans (if_pos rfl)
  · rw [hblacklist]
    exact hyields.inserts hcounts y hy

end Tended

end Session

end Harvest
