import Harvest.Proofs.Extract.Sessions

/-!
# Headers that are read once

A header that was read on its own leaves its result in the cache, under the snapshot in which it
ended. Main statement: an include of it in that snapshot, in the same file or in a later one, takes
the result and reads nothing. An include in another snapshot finds nothing, so that a header may be
read again and again for includes that stand in one snapshot.
-/

namespace Harvest

namespace Parser

variable {p c : Parser} {path : Path}

/-- The last token of a header that is read on its own. -/
structure Completes (c : Parser) : Prop where
  token : c.token = .eof
  alone : c.inPlace = false
  header : c.file.isHeader = true

/-- An include of the file at `path` that may be answered from the cache: the file is a header that
is neither excluded nor being read nor blacklisted. -/
structure Asks (p : Parser) (path : Path) : Prop where
  directive : p.include?.map Path.clean = some path
  included : p.options.excludes path = false
  apart : p.stack.findIdx? path.same = none
  trusted : p.session.cache.isBlacklisted path = false
  header : path.isHeader = true

instance (c : Parser) : Decidable c.Completes :=
  decidable_of_iff (c.token = .eof ∧ c.inPlace = false ∧ c.file.isHeader = true)
    ⟨fun h ↦ ⟨h.1, h.2.1, h.2.2⟩, fun h ↦ ⟨h.token, h.alone, h.header⟩⟩

instance (p : Parser) (path : Path) : Decidable (p.Asks path) :=
  decidable_of_iff (p.include?.map Path.clean = some path ∧
      p.options.excludes path = false ∧
      p.stack.findIdx? path.same = none ∧ p.session.cache.isBlacklisted path = false ∧
      path.isHeader = true)
    ⟨fun h ↦ ⟨h.1, h.2.1, h.2.2.1, h.2.2.2.1, h.2.2.2.2⟩,
      fun h ↦ ⟨h.directive, h.included, h.apart, h.trusted, h.header⟩⟩

theorem include?_of_token (h : p.token = .eof) : p.include? = none := by
  unfold include?
  rw [h]
  split <;> rfl

theorem Asks.token_ne (h : p.Asks path) : p.token ≠ .eof := by
  intro htoken
  have hdirective := h.directive
  rw [include?_of_token htoken] at hdirective
  cases hdirective

theorem Asks.way_eq (h : p.Asks path) (hknown : p.session.cache.results path p.snapshot ≠ []) :
    p.way path = .known (p.session.cache.results path p.snapshot) := by
  simp [way, h.included, h.apart, h.trusted, h.header, hknown]

end Parser

namespace Stage

variable {e : Extractor} {updates : List IncludeCache.Update} {p c : Parser} {path : Path}
  {waiting : List Parser} {left : List (Path × String)}

theorem tells_of_completes (hc : c.Completes) (waiting : List Parser)
    (left : List (Path × String)) : tells (.reading c waiting left) = [c.finish.result] := by
  cases waiting <;> simp [tells, hc.token, hc.alone, hc.header]

/-- From the end of a header on, the cache knows its result. -/
theorem Sound.told_of_later (h : Sound updates (.reading c waiting left)) (hc : c.Completes)
    {s : Stage} (hlater : Later e (.reading c waiting left) s)
    (hne : s ≠ .reading c waiting left) :
    ∃ updates', c.finish.result ∈ updates' ∧ s.Sound updates' := by
  rcases hlater.cases_head with heq | ⟨s', hnext, hrest⟩
  · exact (hne heq.symm).elim
  · obtain ⟨updates', hsubset, hs⟩ := (h.next hnext).later hrest
    refine ⟨updates', hsubset ?_, hs⟩
    rw [tells_of_completes hc]
    exact List.mem_append_right _ (List.mem_singleton_self _)

/-- An include whose results are known makes its file include all of them. -/
theorem Sound.step_of_known (h : Sound updates (.reading p waiting left)) (hp : p.Asks path)
    {t : Nat} (ht : t ∈ p.session.cache.results path p.snapshot) :
    ∃ q, (Stage.reading p waiting left).step e = some (.reading q waiting left) ∧
      q.session.cache = p.session.cache ∧
      q.session.forest.trees.size = p.session.forest.trees.size ∧
      t ∈ q.session.forest.included p.tree := by
  obtain ⟨found, hfound, rfl⟩ := Option.map_eq_some_iff.1 hp.directive
  have hway := hp.way_eq (List.ne_nil_of_mem ht)
  have htree := h.2 p List.mem_cons_self
  have hlt : ∀ u ∈ p.session.cache.results found.clean p.snapshot,
      u < p.session.forest.trees.size := fun u hu ↦ h.1.lt_of_mem_results hu
  generalize p.session.cache.results found.clean p.snapshot = trees at hway ht hlt
  have hstep : (Stage.reading p waiting left).step e =
      some (.reading ((Parser.Way.known trees).take id found.clean p).advance waiting left) := by
    simp only [Stage.step, hp.token_ne, if_false, hfound]
    rw [follow, hway]
  have hnext := (h.known hlt found.clean).tandem.advance.tends
  refine ⟨_, hstep, hnext.cache, ?_, ?_⟩
  · exact hnext.files.size.trans (Forest.size_addIncludes _ _ _)
  · rw [hnext.files.included_eq]
    exact h.1.mem_included_addIncludes htree hlt ht

/-- The stage after `n` steps, if there are so many. -/
def stepped (s : Stage) (e : Extractor) : Nat → Option Stage
  | 0 => some s
  | n + 1 => (s.stepped e n).bind fun s ↦ s.step e

theorem reaches_of_stepped {n : Nat} {s s' : Stage} (h : s.stepped e n = some s') :
    Reaches e s s' := by
  induction n generalizing s' with
  | zero =>
    obtain rfl := Option.some.inj h
    exact .refl
  | succ n ih =>
    obtain ⟨last, hlast, hstep⟩ := Option.bind_eq_some_iff.1 h
    exact (ih hlast).tail hstep

/-- A file is read at both stages, and the parsers have a property. -/
def both (P : Parser → Parser → Bool) : Stage → Stage → Bool
  | .reading p _ _, .reading q _ _ => P p q
  | _, _ => false

theorem exists_readings {P : Parser → Parser → Bool} {n m : Nat} {s : Stage}
    (h : (s.stepped e n).any (fun s ↦ (s.stepped e m).any (both P s)) = true) :
    ∃ p waiting left q waiting' left', Reaches e s (.reading p waiting left) ∧
      Reaches e (.reading p waiting left) (.reading q waiting' left') ∧ P p q = true := by
  obtain ⟨s₁, hfirst, hrest⟩ := (Option.any_eq_true _ _).1 h
  obtain ⟨s₂, hsecond, hboth⟩ := (Option.any_eq_true _ _).1 hrest
  cases s₁ with
  | between session left => exact (Bool.false_ne_true hboth).elim
  | reading p waiting left =>
    cases s₂ with
    | between session left => exact (Bool.false_ne_true hboth).elim
    | reading q waiting' left' =>
      exact ⟨p, waiting, left, q, waiting', left', reaches_of_stepped hfirst,
        reaches_of_stepped hsecond, hboth⟩

end Stage

namespace Extractor

/-- An include of a header that was read on its own before, as an input or for another include, and
that ended in the snapshot in which the include stands: no file is read, and the including file
includes what stands for the header. -/
theorem header_reused (options : Options) (files : FileTree) (inputs : List (Path × String))
    {c p : Parser} {waiting waiting' : List Parser} {left left' : List (Path × String)}
    {path : Path} (hreached : Stage.Later { options, files } (start { options, files } inputs)
      (.reading c waiting left))
    (hc : c.Completes)
    (hlater : Stage.Later { options, files } (.reading c waiting left) (.reading p waiting' left'))
    (hp : p.Asks path) (hsame : path.same c.file = true)
    (hsnapshot : p.snapshot = c.finish.snapshot) :
    ∃ q, (Stage.reading p waiting' left').step { options, files } =
        some (.reading q waiting' left') ∧
      q.session.cache = p.session.cache ∧
      q.session.forest.trees.size = p.session.forest.trees.size ∧
      c.finish.standIn ∈ q.session.forest.included p.tree := by
  obtain ⟨updates, -, hsound⟩ := (sound_new options files inputs).later hreached
  have hne : Stage.reading p waiting' left' ≠ .reading c waiting left := by
    intro heq
    injection heq with hpc
    exact hp.token_ne (hpc ▸ hc.token)
  obtain ⟨updates', htold, hs⟩ := hsound.told_of_later hc hlater hne
  have hfile : c.finish.file = c.file := congrArg (·.2.2.1) c.frame_finish
  have hknown : c.finish.standIn ∈ p.session.cache.results path p.snapshot := by
    rw [hsnapshot]
    exact hs.1.mem_results htold (hfile ▸ hsame)
  exact hs.step_of_known hp hknown

/-- Two files with an include of one header outside of all scopes. -/
def plainFiles : FileTree :=
  { entries := [(["h.h"], .file ⟨(Text.Utf8.encode "namespace A \x7b \x7d".toList).toArray⟩)] }

def plainInputs : List (Path × String) :=
  [(⟨"a.cpp"⟩, "#include \"h.h\"\n"), (⟨"b.cpp"⟩, "#include \"h.h\"\n")]

/-- The second file gets the header from the first one. -/
theorem header_reused_plain :
    ∃ c waiting left p waiting' left' q,
      Stage.Later { files := plainFiles } (start { files := plainFiles } plainInputs)
        (.reading c waiting left) ∧ c.Completes ∧
      Stage.Later { files := plainFiles } (.reading c waiting left) (.reading p waiting' left') ∧
      p.Asks ⟨"h.h"⟩ ∧ (⟨"h.h"⟩ : Path).same c.file = true ∧ p.snapshot = c.finish.snapshot ∧
      p.file = ⟨"b.cpp"⟩ ∧
      (Stage.reading p waiting' left').step { files := plainFiles } =
        some (.reading q waiting' left') ∧
      q.session.cache = p.session.cache ∧
      q.session.forest.trees.size = p.session.forest.trees.size ∧
      c.finish.standIn ∈ q.session.forest.included p.tree := by
  have hstages : ((start { files := plainFiles } plainInputs).stepped { files := plainFiles } 4).any
      (fun s ↦ (s.stepped { files := plainFiles } 3).any (Stage.both (fun c p ↦ c.Completes ∧
        p.Asks ⟨"h.h"⟩ ∧ (⟨"h.h"⟩ : Path).same c.file = true ∧ p.snapshot = c.finish.snapshot ∧
        p.file = ⟨"b.cpp"⟩) s)) = true := by
    decide +kernel
  obtain ⟨c, waiting, left, p, waiting', left', hreached, hlater, hstage⟩ :=
    Stage.exists_readings hstages
  obtain ⟨hc, hp, hsame, hsnapshot, hfile⟩ := of_decide_eq_true hstage
  obtain ⟨q, hq⟩ := header_reused {} plainFiles plainInputs hreached.later hc hlater.later hp hsame
    hsnapshot
  exact ⟨c, waiting, left, p, waiting', left', q, hreached.later, hc, hlater.later, hp, hsame,
    hsnapshot, hfile, hq⟩

/-- An empty header. -/
def emptyFiles : FileTree := { entries := [(["h.h"], .file ⟨#[]⟩)] }

def enclosedInputs : List (Path × String) :=
  [(⟨"main.cpp"⟩, "namespace N \x7b\n#include \"h.h\"\n#include \"h.h\"\n\x7d")]

/-- The header ends outside of the namespace in which both includes stand, and is read for each of
them. -/
theorem header_reread_enclosed :
    (∃ p waiting left q waiting' left',
      Stage.Reaches { files := emptyFiles } (start { files := emptyFiles } enclosedInputs)
        (.reading p waiting left) ∧
      Stage.Reaches { files := emptyFiles } (.reading p waiting left) (.reading q waiting' left') ∧
      p.line < q.line ∧ p.Asks ⟨"h.h"⟩ ∧ q.Asks ⟨"h.h"⟩ ∧ q.snapshot = p.snapshot ∧
      p.way ⟨"h.h"⟩ = .alone "" ∧ q.way ⟨"h.h"⟩ = .alone "") ∧
      (extractFiles { files := emptyFiles } enclosedInputs).2.cache.nextFileId = 3 := by
  have hstages : ((start { files := emptyFiles } enclosedInputs).stepped
      { files := emptyFiles } 2).any
      (fun s ↦ (s.stepped { files := emptyFiles } 2).any (Stage.both (fun p q ↦ p.line < q.line ∧
        p.Asks ⟨"h.h"⟩ ∧ q.Asks ⟨"h.h"⟩ ∧ q.snapshot = p.snapshot ∧ p.way ⟨"h.h"⟩ = .alone "" ∧
        q.way ⟨"h.h"⟩ = .alone "") s)) = true := by
    decide +kernel
  obtain ⟨p, waiting, left, q, waiting', left', hreached, hlater, hstage⟩ :=
    Stage.exists_readings hstages
  exact ⟨⟨p, waiting, left, q, waiting', left', hreached, hlater, of_decide_eq_true hstage⟩,
    by decide +kernel⟩

end Extractor

end Harvest
