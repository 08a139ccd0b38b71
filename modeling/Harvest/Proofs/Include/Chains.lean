import Harvest.Include.Search
import Harvest.Proofs.NormalPath
import Mathlib.Data.List.DropRight

/-!
# Chains of includes

A quoted include is looked for beside the including file, whose path is a cleaned one, and what is
found is cleaned again. Main statement: cleaning is a normal form that does not depend on when it is
taken, so that along a chain of includes it makes no difference whether each file is cleaned or only
the last one.
-/

namespace Harvest.Path

variable {p q : Path} {name : String} {ss body : List String} {last : String}

/-- The directory that a file lies in. -/
def directory (p : Path) : Path := p.parent?.getD ⟨""⟩

/-- The path that a quoted include in a file means first. -/
def beside (p : Path) (written : String) : Path := p.directory.join ⟨written⟩

theorem fileName?_eq_some_iff :
    p.fileName? = some name ↔ p.parts.getLast? = some (.normal name) := by
  unfold fileName?
  split <;> simp_all

theorem getLast?_inner (h : p.fileName? = some name) : p.inner.getLast? = some (.normal name) := by
  rw [fileName?_eq_some_iff, parts_eq, List.getLast?_append] at h
  cases hinner : p.inner.getLast? with
  | some part => rwa [hinner, Option.some_or] at h
  | none =>
    rw [hinner, Option.none_or] at h
    unfold anchor at h
    split_ifs at h <;> simp at h

theorem fileName?_join (p : Path) (h : q.fileName? = some name) :
    (p.join q).fileName? = some name := by
  cases hq : q.isAbsolute with
  | true => rwa [join_of_isAbsolute hq]
  | false =>
    by_cases hp : p.text = ""
    · rwa [join, hq, Bool.false_or, if_pos (by simpa using hp)]
    · rw [fileName?_eq_some_iff, parts_join hp hq, List.getLast?_append, getLast?_inner h,
        Option.some_or]

theorem trimmed_concat (ss : List String) (s : String) :
    trimmed (ss ++ [s]) = if (part? s).isNone then trimmed ss else ss ++ [s] := by
  have hblank : (s = "" || s = ".") = (part? s).isNone := by
    unfold part?
    split_ifs <;> simp_all
  rw [← hblank]
  exact List.rdropWhile_concat _ ss s

theorem trimmed_isPrefix (ss : List String) : trimmed ss <+: ss := List.rdropWhile_prefix _ ss

theorem filterMap_trimmed (ss : List String) :
    (trimmed ss).filterMap part? = ss.filterMap part? := by
  induction ss using List.reverseRecOn with
  | nil => rfl
  | append_singleton ss s ih =>
    rw [trimmed_concat]
    cases hs : part? s with
    | none =>
      rw [Option.isNone_none, if_pos rfl, ih]
      simp [hs]
    | some part => rw [Option.isNone_some, if_neg Bool.false_ne_true]

/-- What is trimmed ends in the last part. -/
theorem exists_trimmed_eq {parts : List PathPart} {part : PathPart}
    (h : ss.filterMap part? = parts ++ [part]) :
    ∃ (body : List String) (last : String),
      trimmed ss = body ++ [last] ∧ body.filterMap part? = parts := by
  induction ss using List.reverseRecOn with
  | nil => simp at h
  | append_singleton ss s ih =>
    rw [List.filterMap_append] at h
    rw [trimmed_concat]
    cases hs : part? s with
    | none =>
      rw [Option.isNone_none, if_pos rfl]
      exact ih (by simpa [hs] using h)
    | some part' =>
      rw [List.filterMap_cons_some hs] at h
      exact ⟨ss, s, rfl, (List.append_inj' h rfl).1⟩

/-- The root or the leading `.`, as slices. -/
def lead (p : Path) : List String :=
  if p.isAbsolute || p.slices.head? = some "." then p.slices.take 1 else []

theorem lead_append_drop (p : Path) : p.lead ++ p.slices.drop p.lead.length = p.slices := by
  obtain ⟨s, ss, hslices⟩ := List.exists_cons_of_ne_nil p.slices_ne_nil
  unfold lead
  split_ifs <;> simp [hslices]

theorem filterMap_lead (p : Path) : p.lead.filterMap part? = [] := by
  obtain ⟨s, ss, hslices⟩ := List.exists_cons_of_ne_nil p.slices_ne_nil
  unfold lead
  split_ifs with h
  · have hs : s = "" ∨ s = "." := by
      rw [Bool.or_eq_true, isAbsolute_iff, hslices] at h
      simpa using h.imp_left And.left
    rcases hs with rfl | rfl <;> rw [hslices] <;> rfl
  · rfl

theorem anchor_of_lead (h : p.lead = []) : p.anchor = [] := by
  have hlead : ¬(p.isAbsolute || p.slices.head? = some ".") = true := by
    intro hlead
    rw [lead, if_pos hlead] at h
    simp [slices_ne_nil] at h
  rw [Bool.or_eq_true, not_or, decide_eq_true_iff] at hlead
  rw [anchor, if_neg hlead.1, if_neg hlead.2]

theorem directory_eq (h : trimmed (p.slices.drop p.lead.length) = body ++ [last]) :
    p.directory = if p.lead ++ trimmed body = [""] then ⟨"/"⟩
      else ⟨"/".intercalate (p.lead ++ trimmed body)⟩ := by
  have hparent : p.parent? = some (if p.lead ++ trimmed body = [""] then ⟨"/"⟩
      else ⟨"/".intercalate (p.lead ++ trimmed body)⟩) := by
    have hlead : (if p.isAbsolute || p.slices.head? = some "." then p.slices.take 1 else []) =
        p.lead := rfl
    simp only [parent?, hlead, h]
    rw [if_neg (by simp), List.dropLast_concat]
    split <;> simp_all
  rw [directory, hparent, Option.getD_some]

/-- The parts of a path up to some place in its text. -/
theorem parts_of_start (hp : p.text ≠ "") (hstart : ss <+: p.slices)
    (hnil : ss = [] → p.anchor = []) :
    parts (if ss = [""] then ⟨"/"⟩ else ⟨"/".intercalate ss⟩) = p.anchor ++ ss.filterMap part? := by
  by_cases hne : ss = []
  · rw [hnil hne, hne]
    rfl
  have hhead : ss.head? = p.slices.head? := by
    obtain ⟨rest, hrest⟩ := hstart
    rw [← hrest, List.head?_append_of_ne_nil ss hne]
  split_ifs with hroot
  · have habsolute : p.isAbsolute = true := isAbsolute_iff.2 ⟨by rw [← hhead, hroot]; rfl, hp⟩
    rw [hroot, anchor, if_pos habsolute]
    decide
  · have hslices : slices ⟨"/".intercalate ss⟩ = ss :=
      slices_intercalate hne fun s hs ↦ notMem_of_mem_slices (hstart.subset hs)
    have htext : "/".intercalate ss ≠ "" := by
      intro heq
      rw [heq, slices_empty] at hslices
      exact hroot hslices.symm
    have hanchor : anchor ⟨"/".intercalate ss⟩ = p.anchor :=
      anchor_congr htext hp ((congrArg List.head? hslices).trans hhead)
    rw [parts_eq, inner, hslices, hanchor]

theorem parts_directory (h : p.fileName? = some name) :
    p.parts = p.directory.parts ++ [.normal name] := by
  obtain ⟨parts, hinner⟩ := List.getLast?_eq_some_iff.1 (getLast?_inner h)
  have hdrop : (p.slices.drop p.lead.length).filterMap part? = parts ++ [.normal name] := by
    calc (p.slices.drop p.lead.length).filterMap part?
        = (p.lead ++ p.slices.drop p.lead.length).filterMap part? := by
          rw [List.filterMap_append, filterMap_lead, List.nil_append]
      _ = parts ++ [.normal name] := by rw [lead_append_drop, ← hinner, inner]
  obtain ⟨body, last, htrimmed, hbody⟩ := exists_trimmed_eq hdrop
  have hstart : p.lead ++ trimmed body <+: p.slices := by
    rw [← p.lead_append_drop, List.prefix_append_right_inj]
    have hbefore : body <+: p.slices.drop p.lead.length :=
      (List.prefix_append body [last]).trans (htrimmed ▸ trimmed_isPrefix _)
    exact (trimmed_isPrefix body).trans hbefore
  have htext : p.text ≠ "" := by
    intro hempty
    obtain ⟨text⟩ := p
    obtain rfl : text = "" := hempty
    rw [show fileName? ⟨""⟩ = none by decide] at h
    cases h
  rw [directory_eq htrimmed, parts_of_start htext hstart
    fun hnil ↦ anchor_of_lead (List.append_eq_nil_iff.1 hnil).1, List.filterMap_append,
    filterMap_lead, filterMap_trimmed, hbody, parts_eq, hinner, List.nil_append, List.append_assoc]

/-- Cleaning a file's path cleans that of its directory and keeps its name. -/
theorem parts_clean_of_fileName (h : p.fileName? = some name) :
    p.clean.parts = cleanParts p.directory.parts ++ [.normal name] := by
  have hclean : cleanParts p.parts = cleanParts p.directory.parts ++ [.normal name] := by
    rw [parts_directory h, cleanParts, List.foldl_append, cleanParts, ← List.reverse_cons]
    rfl
  rw [parts_clean (by simp [hclean]), hclean]

theorem clean_directory_clean (h : p.fileName? = some name) :
    p.clean.directory.clean = p.directory.clean := by
  have hparts := parts_clean_of_fileName h
  have hname : p.clean.fileName? = some name := by
    rw [fileName?_eq_some_iff, hparts, List.getLast?_concat]
  have hdirectory : p.clean.directory.parts = cleanParts p.directory.parts :=
    (List.append_inj' ((parts_directory hname).symm.trans hparts) rfl).1
  apply clean_congr
  rw [hdirectory, cleanParts_cleanParts]

/-- Behind a path that ends in `..` the two directories differ. -/
example : (clean ⟨"a/.."⟩).directory.clean = ⟨"."⟩ ∧ (directory ⟨"a/.."⟩).clean = ⟨"a"⟩ := by decide

theorem clean_beside_clean (h : p.fileName?.isSome) (written : String) :
    (p.clean.beside written).clean = (p.beside written).clean := by
  obtain ⟨name, hname⟩ := Option.isSome_iff_exists.1 h
  rw [beside, clean_join, clean_directory_clean hname, ← clean_join, beside]

theorem isSome_fileName?_beside (p : Path) {written : String}
    (h : (⟨written⟩ : Path).fileName?.isSome) : (p.beside written).fileName?.isSome := by
  obtain ⟨name, hname⟩ := Option.isSome_iff_exists.1 h
  rw [beside, fileName?_join _ hname, Option.isSome_some]

theorem foldl_beside_clean {chain : List String} (h : p.fileName?.isSome)
    (hchain : ∀ written ∈ chain, (⟨written⟩ : Path).fileName?.isSome) :
    chain.foldl (fun file written ↦ (file.beside written).clean) p.clean =
        (chain.foldl beside p).clean ∧
      (chain.foldl beside p).fileName?.isSome := by
  induction chain generalizing p with
  | nil => exact ⟨rfl, h⟩
  | cons written chain ih =>
    rw [List.forall_mem_cons] at hchain
    rw [List.foldl_cons, List.foldl_cons, clean_beside_clean h]
    exact ih (p.isSome_fileName?_beside hchain.1) hchain.2

theorem map_clean_includeCandidates (h : p.fileName?.isSome) (written : String) (quoted : Bool)
    (includePaths : List Path) :
    (includeCandidates p.clean written quoted includePaths).map clean =
      (includeCandidates p written quoted includePaths).map clean := by
  have hbeside (file : Path) : includeCandidates file written quoted includePaths =
      (if quoted then [file.beside written] else []) ++
        includePaths.map fun dir ↦ dir.join ⟨written⟩ := rfl
  rw [hbeside, hbeside, List.map_append, List.map_append]
  cases quoted with
  | true => simp [clean_beside_clean h]
  | false => simp

/-- Cleaning is idempotent, and its results are the clean paths. Two paths are cleaned to the same
text exactly if they lead to the same place from everywhere, and comparing cleaned paths by their
parts tells the same. A path may be cleaned before another one is joined to it. So for a file, which
has a name, and a chain of includes, each beside the one before, the last file and the candidates of
an include in it are the same, cleaned, whether every file on the way was cleaned or none. -/
theorem clean_normal_form (p q : Path) :
    p.clean.clean = p.clean ∧ p.clean.IsClean ∧ (p.IsClean ↔ p.clean = p) ∧
      (p.clean = q.clean ↔ ∀ here, p.walk here = q.walk here) ∧
      (p.clean.same q.clean = true ↔ p.clean = q.clean) ∧
      (p.join q).clean = (p.clean.join q).clean ∧
      ∀ chain : List String, p.fileName?.isSome →
        (∀ written ∈ chain, (⟨written⟩ : Path).fileName?.isSome) →
        chain.foldl (fun file written ↦ (file.beside written).clean) p.clean =
          (chain.foldl beside p).clean ∧
        ∀ (written : String) (quoted : Bool) (includePaths : List Path),
          (includeCandidates (chain.foldl (fun file written ↦ (file.beside written).clean) p.clean)
            written quoted includePaths).map clean =
          (includeCandidates (chain.foldl beside p) written quoted includePaths).map clean := by
  refine ⟨p.clean_clean, p.isClean_clean, isClean_iff, clean_eq_iff_walk, same_clean_iff,
    p.clean_join q, fun chain h hchain ↦ ?_⟩
  obtain ⟨hfold, hname⟩ := foldl_beside_clean h hchain
  refine ⟨hfold, fun written quoted includePaths ↦ ?_⟩
  rw [hfold, map_clean_includeCandidates hname]

theorem clean_normal_form_nested :
    (⟨"src/./main.cpp"⟩ : Path).fileName?.isSome ∧
      (∀ written ∈ ["../inc//a.h", "b/../c.h"], (⟨written⟩ : Path).fileName?.isSome) ∧
      ["../inc//a.h", "b/../c.h"].foldl beside ⟨"src/./main.cpp"⟩ = ⟨"src/../inc/b/../c.h"⟩ ∧
      ["../inc//a.h", "b/../c.h"].foldl (fun file written ↦ (file.beside written).clean)
        (clean ⟨"src/./main.cpp"⟩) = clean ⟨"src/../inc/b/../c.h"⟩ ∧
      clean ⟨"src/../inc/b/../c.h"⟩ = ⟨"inc/c.h"⟩ := by
  have hmain : (⟨"src/./main.cpp"⟩ : Path).fileName?.isSome := by decide
  have hchain : ∀ written ∈ ["../inc//a.h", "b/../c.h"], (⟨written⟩ : Path).fileName?.isSome := by
    decide
  have hfold : ["../inc//a.h", "b/../c.h"].foldl beside ⟨"src/./main.cpp"⟩ =
      ⟨"src/../inc/b/../c.h"⟩ := by decide
  obtain ⟨-, -, -, -, -, -, hincludes⟩ := clean_normal_form ⟨"src/./main.cpp"⟩ ⟨"."⟩
  have hclean := (hincludes _ hmain hchain).1
  rw [hfold] at hclean
  exact ⟨hmain, hchain, hfold, hclean, by decide⟩

end Harvest.Path
