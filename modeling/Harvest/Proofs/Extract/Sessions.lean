import Harvest.Proofs.Extract.Stages
import Harvest.Proofs.Scope.Formation

/-!
# Sessions

What is true of the session at every stage of every extraction that one extractor does: the scope
forest is well formed, files are numbered in the order in which they were first read, and the
include cache holds what it was told at the stages before, where all results are files of the forest.
-/

namespace Harvest

open IncludeCache (Update)

/-- A session whose cache was told the updates. -/
structure Session.Sound (s : Session) (updates : List Update) : Prop where
  forest : s.forest.WellFormed
  ids : ∀ t < s.forest.trees.size, s.forest.fileId t = t
  entries : ∀ t, ∀ i ∈ (s.forest.tree t).includes, i.1 = i.2
  next : s.cache.nextFileId = s.forest.trees.size
  table : s.cache.table = (IncludeCache.after updates).table
  results : ∀ path snapshot fileId tree, Update.result path snapshot fileId tree ∈ updates →
    fileId = tree ∧ tree < s.forest.trees.size

namespace Session.Sound

variable {s s' : Session} {updates : List Update} {path other : Path} {snapshot : Snapshot}
  {t u fileId : Nat}

theorem reflects (h : s.Sound updates) : IncludeCache.Reflects updates s.cache.table := by
  rw [h.table]
  apply IncludeCache.reflects_after
  intro p s i t p' s' i' t' hmem hmem'
  rw [(h.results _ _ _ _ hmem).1, (h.results _ _ _ _ hmem').1]

/-- What is known of a header is a file of the forest. -/
theorem lt_of_mem_results (h : s.Sound updates) (ht : t ∈ s.cache.results path snapshot) :
    t < s.forest.trees.size := by
  obtain ⟨entries, hresults, -, hmem⟩ := h.reflects.exists_entries path snapshot
  rw [hresults] at ht
  obtain ⟨i, hi, rfl⟩ := List.mem_map.1 ht
  obtain ⟨other, -, hupdate⟩ := (hmem i).1 hi
  exact (h.results _ _ _ _ hupdate).2

/-- What the cache was told of a header is known. -/
theorem mem_results (h : s.Sound updates) (htold : Update.result other snapshot fileId t ∈ updates)
    (hsame : path.same other = true) : t ∈ s.cache.results path snapshot := by
  obtain ⟨entries, hresults, -, hmem⟩ := h.reflects.exists_entries path snapshot
  rw [hresults]
  exact List.mem_map.2 ⟨(fileId, t), (hmem _).2 ⟨other, .rel _ _ (.inl hsame), htold⟩, rfl⟩

/-- Changes inside of the trees of a forest. -/
theorem congr (h : s.Sound updates) (hformed : s'.forest.WellFormed)
    (hfiles : s.forest.SameFiles s'.forest) (hcache : s'.cache = s.cache) : s'.Sound updates where
  forest := hformed
  ids t ht := (hfiles.fileId t).trans (h.ids t (hfiles.size ▸ ht))
  entries t i hi := h.entries t i (hfiles.includes t ▸ hi)
  next := by rw [hcache, h.next, hfiles.size]
  table := by rw [hcache, h.table]
  results := by
    rw [hfiles.size]
    exact h.results

/-- Changes of the cache beside its groups. -/
theorem setCache (h : s.Sound updates) {c : IncludeCache}
    (hnext : c.nextFileId = s.cache.nextFileId) (htable : c.table = s.cache.table) :
    Sound { s with cache := c } updates where
  forest := h.forest
  ids := h.ids
  entries := h.entries
  next := hnext.trans h.next
  table := htable.trans h.table
  results := h.results

theorem planted (h : s.Sound updates) : (Parser.planted s).Sound updates := by
  have hsize : (Parser.planted s).forest.trees.size = s.forest.trees.size + 1 := Array.size_push _
  refine ⟨h.forest.plant _, fun t ht ↦ ?_, fun t i hi ↦ ?_, ?_, h.table,
    fun p snapshot i t htold ↦ ?_⟩
  · change ((s.forest.plant s.cache.nextFileId).tree t).fileId = t
    rw [hsize] at ht
    by_cases htree : t = s.forest.trees.size
    · rw [htree, Forest.tree_plant, h.next]
    · rw [Forest.tree_plant_of_ne _ _ htree]
      exact h.ids t (Nat.lt_of_le_of_ne (Nat.le_of_lt_succ ht) htree)
  · change i ∈ ((s.forest.plant s.cache.nextFileId).tree t).includes at hi
    by_cases htree : t = s.forest.trees.size
    · rw [htree, Forest.tree_plant] at hi
      exact (List.not_mem_nil hi).elim
    · rw [Forest.tree_plant_of_ne _ _ htree] at hi
      exact h.entries t i hi
  · rw [hsize]
    exact congrArg (· + 1) h.next
  · rw [hsize]
    exact ⟨(h.results p snapshot i t htold).1,
      Nat.lt_succ_of_lt (h.results p snapshot i t htold).2⟩

theorem addInclude (h : s.Sound updates) (ht : t < s.forest.trees.size)
    (hu : u < s.forest.trees.size) :
    Sound { s with forest := s.forest.addInclude t u } updates := by
  have hsize := s.forest.size_addInclude t u
  refine ⟨h.forest.addInclude ht hu, fun v hv ↦ ?_, fun v i hi ↦ ?_, ?_, h.table, ?_⟩
  · change ((s.forest.addInclude t u).tree v).fileId = v
    have hid : (s.forest.tree v).fileId = v := h.ids v (hsize ▸ hv)
    rw [Forest.tree_addInclude ht]
    split_ifs with heq
    · subst heq
      exact hid
    · exact hid
  · change i ∈ ((s.forest.addInclude t u).tree v).includes at hi
    rw [Forest.tree_addInclude ht] at hi
    split_ifs at hi
    · rcases Forest.mem_insertAbsent hi with rfl | hi
      · exact h.ids u hu
      · exact h.entries t i hi
    · exact h.entries v i hi
  · exact h.next.trans hsize.symm
  · rw [hsize]
    exact h.results

/-- The file `t` includes the file `u` then. -/
theorem mem_included_addInclude (h : s.Sound updates) (ht : t < s.forest.trees.size)
    (hu : u < s.forest.trees.size) : u ∈ (s.forest.addInclude t u).included t := by
  have hid : (s.forest.tree u).fileId = u := h.ids u hu
  rw [Forest.included, Forest.tree_addInclude ht, if_pos rfl, hid]
  refine List.mem_map.2 ⟨(u, u), ?_, rfl⟩
  rw [Forest.mem_insertAbsent_iff]
  · exact .inl rfl
  · intro i hi hkey
    rw [← h.entries t i hi, hkey]

theorem addIncludes (h : s.Sound updates) (ht : t < s.forest.trees.size) {trees : List Nat}
    (htrees : ∀ u ∈ trees, u < s.forest.trees.size) :
    Sound { s with forest := trees.foldl (fun forest u ↦ forest.addInclude t u) s.forest }
      updates := by
  induction trees generalizing s with
  | nil => exact h
  | cons u trees ih =>
    have hadded := h.addInclude ht (htrees u List.mem_cons_self)
    have hsize := s.forest.size_addInclude t u
    apply ih hadded (hsize ▸ ht)
    intro v hv
    exact hsize.symm ▸ htrees v (List.mem_cons_of_mem _ hv)

theorem mem_included_addIncludes (h : s.Sound updates) (ht : t < s.forest.trees.size)
    {trees : List Nat} (htrees : ∀ u ∈ trees, u < s.forest.trees.size) (hu : u ∈ trees) :
    u ∈ (trees.foldl (fun forest u ↦ forest.addInclude t u) s.forest).included t := by
  induction trees generalizing s with
  | nil => exact (List.not_mem_nil hu).elim
  | cons v trees ih =>
    have hv := htrees v List.mem_cons_self
    have hadded := h.addInclude ht hv
    have hsize := s.forest.size_addInclude t v
    rcases List.mem_cons.1 hu with rfl | hu
    · exact Forest.subset_included_addIncludes (hsize ▸ ht) trees t
        (h.mem_included_addInclude ht hv)
    · exact ih hadded (hsize ▸ ht) (fun w hw ↦ hsize.symm ▸ htrees w (List.mem_cons_of_mem _ hw)) hu

/-- The cache is told one thing more. -/
theorem told (h : s.Sound updates) {u : Update}
    (hu : ∀ path snapshot fileId tree, u = .result path snapshot fileId tree →
      fileId = tree ∧ tree < s.forest.trees.size) :
    Sound { s with cache := s.cache.update u } (updates ++ [u]) where
  forest := h.forest
  ids := h.ids
  entries := h.entries
  next := by
    rw [← h.next]
    cases u <;> rfl
  table := by
    rw [IncludeCache.after_concat]
    exact IncludeCache.table_update h.table u
  results path snapshot fileId tree hmem := by
    rcases List.mem_append.1 hmem with hmem | hmem
    · exact h.results path snapshot fileId tree hmem
    · exact hu path snapshot fileId tree (List.mem_singleton.1 hmem).symm

end Session.Sound

namespace Parser

variable {s : Session} {updates : List Update}

theorem representative_lt (h : s.Sound updates) {d : Detached} (hd : d.tree < s.forest.trees.size) :
    representative s.forest d < s.forest.trees.size := by
  unfold representative
  split
  · rename_i id included hincludes
    split
    · apply h.forest.includes d.tree
      rw [Forest.included, hincludes]
      exact List.mem_singleton_self _
    · exact hd
  · exact hd

/-- The tree that stands for a file that was read on its own. -/
def standIn (p : Parser) : Nat := representative p.session.forest (p.outcome p.tree)

/-- The result that is stored of a file that was read on its own. -/
def result (p : Parser) : Update := .result p.file p.snapshot p.standIn p.standIn

theorem sound_store {p : Parser} (h : p.session.Sound updates)
    (htree : p.tree < p.session.forest.trees.size) (header : Bool) :
    (store p.session p.file (p.outcome p.tree) header).Sound
      (updates ++ if header then [p.result] else []) := by
  have hmessages : Session.Sound { p.session with
      cache := p.session.cache.setMessages p.file p.messages.toList } updates :=
    h.setCache (IncludeCache.nextFileId_setMessages _ _ _) (IncludeCache.table_setMessages _ _ _)
  cases header with
  | false =>
    rw [if_neg Bool.false_ne_true, List.append_nil]
    exact hmessages
  | true =>
    have hlt : p.standIn < p.session.forest.trees.size := representative_lt h htree
    have htold := hmessages.told (u := p.result) fun path snapshot fileId tree heq ↦ by
      injection heq with hpath hsnapshot hid htree'
      rw [← hid, ← htree']
      exact ⟨rfl, hlt⟩
    have hid : (p.session.forest.tree p.standIn).fileId = p.standIn := h.ids _ hlt
    rw [standIn] at hid
    unfold store
    simp only [if_true, hid]
    exact htold

/-- The second parser comes from the first, which has done something to its tree and to no other. -/
structure Tends (p q : Parser) : Prop where
  formed : q.session.forest.WellFormed
  files : p.session.forest.SameFiles q.session.forest
  cache : q.session.cache = p.session.cache
  tree : q.tree = p.tree

/-- Sessions that come from that of `p`, with themselves. -/
def Tending (p : Parser) (s : Session) (t : Nat) (s' : Session) (t' : Nat) : Prop :=
  s' = s ∧ t' = t ∧ s.forest.WellFormed ∧ p.session.forest.SameFiles s.forest ∧
    s.cache = p.session.cache ∧ t = p.tree ∧ p.tree < p.session.forest.trees.size

theorem fair_tending {α : Type} (p : Parser) {ask : Forest → Nat → α × Forest}
    (hask : ∀ f t, f.WellFormed → t < f.trees.size →
      (ask f t).2.WellFormed ∧ f.SameFiles (ask f t).2) : Fair p.Tending ask := by
  rintro s t _ _ ⟨rfl, rfl, hformed, hfiles, hcache, rfl, htree⟩
  obtain ⟨hasked, hsame⟩ := hask _ _ hformed (hfiles.size ▸ htree)
  exact ⟨rfl, rfl, rfl, hasked, hfiles.trans hsame, hcache, rfl, htree⟩

theorem fair_tending_of_sameShape {α : Type} (p : Parser) {ask : Forest → Nat → α × Forest}
    (hask : ∀ (f : Forest) t, f.SameShape (ask f t).2) : Fair p.Tending ask :=
  p.fair_tending fun f t hformed _ ↦ ⟨hformed.congr (hask f t), (hask f t).files⟩

theorem tending_report (p : Parser) {s s' : Session} {t t' : Nat} {d : Diagnostic}
    (h : p.Tending s t s' t') :
    p.Tending { s with diagnostics := s.diagnostics.push d } t
      { s' with diagnostics := s'.diagnostics.push d } t' := by
  obtain ⟨rfl, rfl, h⟩ := h
  exact ⟨rfl, rfl, h⟩

/-- A parser by itself: its forest stays well formed, and the files and the cache stay as they
are. -/
def tended (p : Parser) : Bond where
  options := p.options
  files := p.files
  stack := p.stack
  stack' := p.stack
  Rel := p.Tending
  Lists _ _ := True
  Follows _ := True
  qualify here count segments declaration := p.fair_tending_of_sameShape fun f t ↦
    f.sameShape_qualify t here count segments declaration
  unqualifiedContext place := (p.fair_tending_of_sameShape fun f t ↦
    f.sameShape_unqualifiedContext t place).attributes fun _ ↦ p.tending_report
  qualifiedContext place written := (p.fair_tending_of_sameShape fun f t ↦
    f.sameShape_qualifiedContext t place written).attributes fun _ ↦ p.tending_report
  enter place := p.fair_tending fun _ _ hformed ht ↦ hformed.enter ht place
  modifyAt place _ hlocal hchildren := p.fair_tending fun _ _ hformed ht ↦
    hformed.modifyAt ht place hlocal hchildren
  report _ := p.tending_report
  push _ _ := trivial

variable {p q : Parser}

theorem tandem_tended (h : p.session.Sound updates) (htree : p.tree < p.session.forest.trees.size) :
    Tandem p.tended p.file p p :=
  ⟨rfl, rfl, rfl, rfl, rfl, rfl, ⟨rfl, rfl, h.forest, .refl _, rfl, rfl, htree⟩, trivial,
    fun _ _ _ _ ↦ trivial⟩

theorem Tandem.tends (h : Tandem p.tended p.file q q) : Tends p q := by
  obtain ⟨-, -, hformed, hfiles, hcache, htree, -⟩ := h.rel
  exact ⟨hformed, hfiles, hcache, htree⟩

end Parser

namespace Stage

variable {e : Extractor} {s s' : Stage} {updates : List Update} {p q : Parser}
  {waiting : List Parser} {left : List (Path × String)}

def forest : Stage → Forest
  | between session _ => session.forest
  | reading p _ _ => p.session.forest

/-- The session is sound, and each parser has one of its trees. -/
def Sound (updates : List Update) : Stage → Prop
  | between session _ => session.Sound updates
  | reading p waiting _ => p.session.Sound updates ∧
      ∀ q ∈ p :: waiting, q.tree < p.session.forest.trees.size

/-- What the next step tells the cache. -/
def tells : Stage → List Update
  | between _ _ => []
  | reading p waiting _ =>
    if p.token = .eof then
      if waiting.isEmpty then if p.file.isHeader then [p.finish.result] else []
      else if p.inPlace then [] else [p.finish.result]
    else
      match p.include? with
      | none => []
      | some found =>
        match p.way found.clean with
        | .cycle paths => [.cycle paths p.snapshot]
        | _ => []

namespace Sound

theorem wellFormed (h : s.Sound updates) : s.forest.WellFormed := by
  cases s with
  | between session left => exact h.forest
  | reading p waiting left => exact h.1.forest

/-- A parser goes on with its tree in another session. -/
theorem inSession {session : Session} (h : session.Sound updates)
    (htrees : ∀ r ∈ p :: waiting, r.tree < session.forest.trees.size)
    (hsession : q.session = session) (htree : q.tree = p.tree) :
    Sound updates (.reading q waiting left) := by
  subst hsession
  refine ⟨h, fun r hr ↦ ?_⟩
  rcases List.mem_cons.1 hr with rfl | hr
  · rw [htree]
    exact htrees p List.mem_cons_self
  · exact htrees r (List.mem_cons_of_mem _ hr)

theorem tends (h : Sound updates (.reading p waiting left)) (hq : p.Tends q) :
    Sound updates (.reading q waiting left) := by
  refine inSession (h.1.congr hq.formed hq.files hq.cache) ?_ rfl hq.tree
  rw [hq.files.size]
  exact h.2

theorem tandem (h : Sound updates (.reading p waiting left)) : Parser.Tandem p.tended p.file p p :=
  Parser.tandem_tended h.1 (h.2 p List.mem_cons_self)

theorem advance (h : Sound updates (.reading p waiting left)) :
    Sound updates (.reading p.advance waiting left) :=
  h.tends h.tandem.advance.tends

theorem begin (h : Sound updates (.reading p waiting left)) :
    Sound updates (.reading p.begin waiting left) :=
  h.tends h.tandem.ready.advance.tends

theorem finish (h : Sound updates (.reading p waiting left)) :
    Sound updates (.reading p.finish waiting left) :=
  h.tends (h.tandem.notes p.trailing).tends

/-- A file that is read on its own gets a tree of its own. -/
theorem planted {session : Session} (h : session.Sound updates)
    (hwaiting : ∀ q ∈ waiting, q.tree < session.forest.trees.size)
    (hsession : q.session = Parser.planted session) (htree : q.tree = session.forest.trees.size) :
    Sound updates (.reading q waiting left) := by
  have hsize : q.session.forest.trees.size = session.forest.trees.size + 1 := by
    rw [hsession]
    exact Array.size_push _
  refine ⟨hsession ▸ h.planted, fun r hr ↦ ?_⟩
  rw [hsize]
  rcases List.mem_cons.1 hr with rfl | hr
  · exact htree ▸ Nat.lt_succ_self _
  · exact Nat.lt_succ_of_lt (hwaiting r hr)

theorem close (h : Sound updates (.reading p [] left)) (htoken : p.token = .eof) :
    Sound (updates ++ tells (.reading p [] left)) (.between p.finish.close left) := by
  have hfile : p.finish.file = p.file := congrArg (·.2.2.1) p.frame_finish
  have hstore := Parser.sound_store h.finish.1 (h.finish.2 _ List.mem_cons_self)
    p.finish.file.isHeader
  simp only [tells, htoken, if_true, List.isEmpty_nil]
  rwa [← hfile]

/-- The includer goes on in the session in which the included file ended. -/
theorem rejoin {includer : Parser} (h : Sound updates (.reading p (includer :: waiting) left))
    (htoken : p.token = .eof) :
    Sound (updates ++ tells (.reading p (includer :: waiting) left))
      (.reading (includer.rejoin p.finish) waiting left) := by
  have hinPlace : p.finish.inPlace = p.inPlace := congrArg (·.2.2.2.1) p.frame_finish
  obtain ⟨hsession, htrees⟩ := h.finish
  have hwaiting : ∀ q ∈ includer :: waiting, q.tree < p.finish.session.forest.trees.size :=
    fun q hq ↦ htrees q (List.mem_cons_of_mem _ hq)
  simp only [tells, htoken, if_true, List.isEmpty_cons, Bool.false_eq_true, if_false]
  unfold Parser.rejoin
  rw [hinPlace]
  cases p.inPlace with
  | true =>
    simp only [if_true, List.append_nil]
    have hblacklisted := hsession.setCache
      (IncludeCache.nextFileId_addBlacklisted p.finish.session.cache p.finish.file)
      (IncludeCache.table_addBlacklisted p.finish.session.cache p.finish.file)
    apply Sound.advance
    exact inSession hblacklisted hwaiting rfl rfl
  | false =>
    simp only [Bool.false_eq_true, if_false]
    have htree := htrees _ List.mem_cons_self
    have hstore := Parser.sound_store hsession htree true
    have hincluder := hwaiting includer List.mem_cons_self
    have hlt : p.finish.standIn < p.finish.session.forest.trees.size :=
      Parser.representative_lt hsession htree
    have hincluded := hstore.addInclude hincluder hlt
    apply Sound.advance
    refine inSession (p := includer) hincluded (fun r hr ↦ ?_) rfl rfl
    rw [Forest.size_addInclude]
    exact hwaiting r hr

theorem known {trees : List Nat} (h : Sound updates (.reading p waiting left))
    (hlt : ∀ t ∈ trees, t < p.session.forest.trees.size) (path : Path) :
    Sound updates (.reading ((Parser.Way.known trees).take id path p) waiting left) := by
  have hincluded := h.1.addIncludes (h.2 p List.mem_cons_self) hlt
  refine inSession (p := p) hincluded (fun r hr ↦ ?_) rfl rfl
  rw [Forest.size_addIncludes]
  exact h.2 r hr

/-- The ways to follow an include without reading a file. -/
theorem without {found : Path} (h : Sound updates (.reading p waiting left))
    (htoken : p.token ≠ .eof) (hinclude : p.include? = some found)
    (halone : ∀ source, p.way found.clean ≠ .alone source)
    (hinPlace : ∀ source, p.way found.clean ≠ .inPlace source) :
    Sound (updates ++ tells (.reading p waiting left))
      (.reading ((p.way found.clean).take id found.clean p).advance waiting left) := by
  simp only [tells, htoken, if_false, hinclude]
  cases hway : p.way found.clean with
  | skip =>
    rw [List.append_nil]
    exact h.advance
  | cycle paths =>
    have htold := h.1.told (u := .cycle paths p.snapshot) fun _ _ _ _ heq ↦ by cases heq
    apply Sound.advance
    exact inSession htold h.2 rfl rfl
  | known trees =>
    rw [List.append_nil]
    have hlt : ∀ t ∈ trees, t < p.session.forest.trees.size := by
      have htakes := p.takes_way found.clean
      rw [hway] at htakes
      cases htakes
      exact fun t ht ↦ h.1.lt_of_mem_results ht
    exact (h.known hlt found.clean).advance
  | unreadable e =>
    rw [List.append_nil]
    exact (h.tends (h.tandem.report _ _).tends).advance
  | alone source => exact (halone source hway).elim
  | inPlace source => exact (hinPlace source hway).elim

theorem step (hstep : Step e s s') (h : s.Sound updates) : s'.Sound (updates ++ s.tells) := by
  cases hstep with
  | pass hparsed =>
    rw [tells, List.append_nil]
    exact h
  | input hnew =>
    rw [tells, List.append_nil]
    exact (planted h (fun _ hq ↦ (List.not_mem_nil hq).elim) rfl rfl).begin
  | close htoken => exact h.close htoken
  | rejoin htoken => exact h.rejoin htoken
  | turn htoken hinclude =>
    simp only [tells, htoken, if_false, hinclude, List.append_nil]
    exact h.tends (h.tandem.turn fun _ _ _ ↦ h.tandem).tends
  | alone htoken hinclude hway =>
    simp only [tells, htoken, if_false, hinclude, hway, List.append_nil]
    exact (planted h.1 h.2 rfl rfl).begin
  | inPlace htoken hinclude hway =>
    simp only [tells, htoken, if_false, hinclude, hway, List.append_nil]
    apply Sound.begin
    exact inSession h.1 (List.forall_mem_cons.2 ⟨h.2 _ List.mem_cons_self, h.2⟩) rfl rfl
  | without htoken hinclude halone hinPlace => exact h.without htoken hinclude halone hinPlace

end Sound

/-- What comes after a stage: the next stage of the extraction, or the first stage of another one
when the extraction is over. -/
inductive Next (e : Extractor) : Stage → Stage → Prop
  | step {s s' : Stage} (h : s.step e = some s') : Next e s s'
  | again (session : Session) (inputs : List (Path × String)) :
      Next e (.between session [])
        (Extractor.start { e with forest := session.forest, cache := session.cache } inputs)

/-- The second stage comes after the first, in the same extraction or in a later one. -/
def Later (e : Extractor) : Stage → Stage → Prop := Relation.ReflTransGen (Next e)

theorem Reaches.later (h : Reaches e s s') : Later e s s' := by
  apply Relation.ReflTransGen.mono _ _ _ h
  intro s s' hstep
  exact .step hstep

namespace Sound

theorem next (hnext : Next e s s') (h : s.Sound updates) : s'.Sound (updates ++ s.tells) := by
  cases hnext with
  | step hstep => exact h.step (.of_eq hstep)
  | again session inputs =>
    rw [tells, List.append_nil]
    exact Session.Sound.congr h h.forest (.refl _) rfl

/-- Nothing that the cache was told is forgotten. -/
theorem later (hlater : Later e s s') (h : s.Sound updates) :
    ∃ updates', updates ⊆ updates' ∧ s'.Sound updates' := by
  induction hlater with
  | refl => exact ⟨updates, List.Subset.refl _, h⟩
  | tail _ hnext ih =>
    obtain ⟨updates', hsubset, hs⟩ := ih
    exact ⟨_, List.subset_append_of_subset_left _ hsubset, hs.next hnext⟩

end Sound

end Stage

namespace Extractor

theorem sound_new (options : Options) (files : FileTree) (inputs : List (Path × String)) :
    (start { options, files } inputs).Sound [] where
  forest := .empty
  ids t ht := (Nat.not_lt_zero t ht).elim
  entries _ _ hi := (List.not_mem_nil hi).elim
  next := rfl
  table := rfl
  results _ _ _ _ hmem := (List.not_mem_nil hmem).elim

/-- One extraction after the other. -/
theorem later_extractFiles (e : Extractor) (inputs inputs' : List (Path × String)) :
    Stage.Later e (e.start inputs) ((e.extractFiles inputs).2.start inputs') := by
  have hend := (Stage.reaches_end e { forest := e.forest, cache := e.cache }
    (inputs.map fun input ↦ (input.1.clean, input.2))).later
  exact hend.tail (.again _ inputs')

/-- The extractor after some extractions. -/
def after (e : Extractor) (runs : List (List (Path × String))) : Extractor :=
  runs.foldl (fun e inputs ↦ (e.extractFiles inputs).2) e

theorem sound_after (options : Options) (files : FileTree) (runs : List (List (Path × String)))
    (inputs : List (Path × String)) :
    ∃ updates, ((after { options, files } runs).start inputs).Sound updates := by
  induction runs using List.reverseRecOn generalizing inputs with
  | nil => exact ⟨[], sound_new options files inputs⟩
  | append_singleton runs run ih =>
    obtain ⟨updates, hsound⟩ := ih run
    rw [after, List.foldl_append, List.foldl_cons, List.foldl_nil, ← after]
    obtain ⟨updates', -, hlater⟩ := hsound.later (later_extractFiles _ run inputs)
    exact ⟨updates', hlater⟩

/-- The forest is well formed at every stage of every extraction, and after all of them. Each of its
scopes then sits at exactly one path. -/
theorem wellFormed_stages (options : Options) (files : FileTree)
    (runs : List (List (Path × String))) (inputs : List (Path × String)) :
    (∀ s, Stage.Reaches (after { options, files } runs)
        ((after { options, files } runs).start inputs) s →
      s.forest.WellFormed ∧
        ∀ r, s.forest.Has r → ∃! path, s.forest.walk r.tree path = some r) ∧
      (after { options, files } (runs ++ [inputs])).forest.WellFormed := by
  obtain ⟨updates, hsound⟩ := sound_after options files runs inputs
  constructor
  · intro s hs
    obtain ⟨updates', -, hstage⟩ := hsound.later hs.later
    exact ⟨hstage.wellFormed, fun r hr ↦ hstage.wellFormed.existsUnique_walk hr⟩
  · obtain ⟨updates', hend⟩ := sound_after options files (runs ++ [inputs]) []
    exact hend.wellFormed

end Extractor

end Harvest
