import Harvest.Exploration
import Harvest.Proofs.Scan

/-!
# Exploring faithfully

The explorer that runs keeps what is assumed of explorers: one component of a pattern goes on to a
name in a directory, to `..` or to `.`, and walks join the names that lie below. Main statement: the
explorer of a file tree whose locations are made of names is faithful.
-/

open Harvest.Path

namespace Harvest

namespace FileTree

variable {t : FileTree} {root path dir : Path} {name : String}

/-- The locations of the tree are made of names. -/
def Named (t : FileTree) : Prop :=
  ∀ entry ∈ t.entries, ∀ name ∈ entry.1, (PathPart.normal name).IsInner

theorem isInner_of_mem_below (ht : t.Named) {location names : Location}
    (h : names ∈ t.below location) (hname : name ∈ names) : (PathPart.normal name).IsInner := by
  obtain ⟨⟨l, e⟩, hentry, heq⟩ := List.mem_filterMap.1 h
  dsimp only at heq
  split_ifs at heq
  obtain rfl := Option.some.inj heq
  exact ht (l, e) hentry name (List.mem_of_mem_drop hname)

theorem parts_foldl_join {names : List String}
    (h : ∀ name ∈ names, (PathPart.normal name).IsInner) :
    (names.foldl (fun path name ↦ path.join ⟨name⟩) root).parts =
      root.parts ++ names.map .normal := by
  induction names generalizing root with
  | nil => simp
  | cons name names ih =>
    rw [List.forall_mem_cons] at h
    rw [List.foldl_cons, ih h.2, parts_join_name root h.1, List.append_assoc, List.map_cons]
    rfl

theorem exists_parts_of_mem_walk? (ht : t.Named) {paths : List Path} (h : t.walk? root = some paths)
    (hpath : path ∈ paths) : ∃ names : List String, path.parts = root.parts ++ names.map .normal := by
  obtain ⟨location, -, rfl⟩ := Option.map_eq_some_iff.1 h
  rcases List.mem_cons.1 hpath with rfl | hpath
  · exact ⟨[], by simp⟩
  · obtain ⟨names, hnames, rfl⟩ := List.mem_map.1 hpath
    exact ⟨names, parts_foldl_join fun name hname ↦ isInner_of_mem_below ht hnames hname⟩

end FileTree

theorem exists_of_mem_mapM {α β : Type} {f : α → Option β} {xs : List α} {ys : List β}
    (h : xs.mapM f = some ys) {y : β} (hy : y ∈ ys) : ∃ x ∈ xs, f x = some y := by
  induction xs generalizing ys with
  | nil =>
    obtain rfl : ys = [] := by simpa using h
    cases hy
  | cons x xs ih =>
    rw [List.mapM_cons] at h
    obtain ⟨y', hx, h⟩ := Option.bind_eq_some_iff.1 h
    obtain ⟨ys', hxs, h⟩ := Option.bind_eq_some_iff.1 h
    obtain rfl := Option.some.inj h
    rcases List.mem_cons.1 hy with rfl | hy
    · exact ⟨x, List.mem_cons_self, hx⟩
    · obtain ⟨x', hx', heq⟩ := ih hxs hy
      exact ⟨x', List.mem_cons_of_mem x hx', heq⟩

namespace Glob

theorem suffix_of_set? {cs rest : List Char} {s : CharSet} (h : set? cs = some (s, rest)) :
    rest <:+ cs := by
  have hsplit {inner rest' : List Char} (h : Text.splitFirst ']' rest' = some (inner, rest)) :
      rest <:+ rest' := by
    obtain ⟨rfl, -⟩ := Text.splitFirst_eq_some_iff.1 h
    exact (List.suffix_cons _ _).trans (List.suffix_append _ _)
  rw [set?.eq_def] at h
  split at h
  · obtain ⟨⟨inner, rest'⟩, h', heq⟩ := Option.map_eq_some_iff.1 h
    obtain ⟨-, rfl⟩ := Prod.mk.inj heq
    exact ((hsplit h').trans (List.suffix_cons _ _)).trans (List.suffix_cons _ _)
  · cases h
  · obtain ⟨⟨inner, rest'⟩, h', heq⟩ := Option.map_eq_some_iff.1 h
    obtain ⟨-, rfl⟩ := Prod.mk.inj heq
    exact (hsplit h').trans (List.suffix_cons _ _)
  · cases h

/-- Behind a token that is no literal, the literals are those of the later tokens. -/
theorem exists_of_literal_mem {token : GlobToken} {later : Option (List GlobToken)}
    {tokens : List GlobToken} (h : later.map (token :: ·) = some tokens) {c : Char}
    (hc : .literal c ∈ tokens) (htoken : token ≠ .literal c) :
    ∃ tokens', later = some tokens' ∧ .literal c ∈ tokens' := by
  obtain ⟨tokens', hlater, rfl⟩ := Option.map_eq_some_iff.1 h
  exact ⟨tokens', hlater, (List.mem_cons.1 hc).resolve_left htoken.symm⟩

theorem mem_of_literal_mem {before : Option Char} {cs : List Char} {tokens : List GlobToken}
    (h : tokens? before cs = some tokens) {c : Char} (hc : .literal c ∈ tokens) : c ∈ cs := by
  fun_induction tokens? before cs generalizing tokens with
  | case1 =>
    obtain rfl := Option.some.inj h
    cases hc
  | case2 before rest ih =>
    obtain ⟨tokens', h', hc'⟩ := exists_of_literal_mem h hc (by simp)
    exact List.mem_cons_of_mem _ (ih h' hc')
  | case3 =>
    obtain rfl := Option.some.inj h
    simp at hc
  | case4 before _ rest ih =>
    obtain ⟨tokens', h', hc'⟩ := exists_of_literal_mem h hc (by simp)
    exact List.mem_cons_of_mem _ (List.mem_cons_of_mem _ (List.mem_cons_of_mem _ (ih h' hc')))
  | case5 => cases h
  | case6 => cases h
  | case7 before rest _ ih =>
    obtain ⟨tokens', h', hc'⟩ := exists_of_literal_mem h hc (by simp)
    exact List.mem_cons_of_mem _ (ih h' hc')
  | case8 before rest s rest' hset ih =>
    obtain ⟨tokens', h', hc'⟩ := exists_of_literal_mem h hc (by simp)
    exact List.mem_cons_of_mem _ ((suffix_of_set? hset).subset (ih h' hc'))
  | case9 => cases h
  | case10 before d rest _ _ _ _ ih =>
    by_cases hd : GlobToken.literal d = .literal c
    · cases hd
      exact List.mem_cons_self
    · obtain ⟨tokens', h', hc'⟩ := exists_of_literal_mem h hc hd
      exact List.mem_cons_of_mem _ (ih h' hc')

/-- A pattern without wildcards has no other characters than its text. -/
theorem mem_of_literal? {text name : String} {g : Glob} (hparse : parse? text = some g)
    (hliteral : g.literal? = some name) {c : Char} (hc : c ∈ name.toList) : c ∈ text.toList := by
  obtain ⟨tokens, htokens, rfl⟩ := Option.map_eq_some_iff.1 hparse
  obtain ⟨cs, hcs, rfl⟩ := Option.map_eq_some_iff.1 hliteral
  rw [String.toList_ofList] at hc
  obtain ⟨token, htoken, heq⟩ := exists_of_mem_mapM hcs hc
  split at heq
  · obtain rfl := Option.some.inj heq
    exact mem_of_literal_mem htokens htoken
  · cases heq

end Glob

namespace FileTree

variable {t : FileTree} {root path dir : Path} {name : String}

theorem undotted_slice (h : '/' ∉ name.toList) : Undotted ⟨name⟩ := by
  intro hcurrent
  by_cases hname : name = "."
  · subst hname
    exact .inl (by decide)
  · rw [parts_eq, List.mem_append, or_iff_left (current_notMem_inner _), anchor,
      isAbsolute_slice h, slices_eq_singleton h] at hcurrent
    simp [hname] at hcurrent

theorem undotted_join (hdir : Undotted dir) (hname : name = ".." ∨ name = ".") :
    Undotted (dir.join ⟨name⟩) := by
  have hslash : '/' ∉ name.toList := by rcases hname with rfl | rfl <;> decide
  by_cases hempty : dir.text = ""
  · rw [join, isAbsolute_slice hslash, hempty, if_pos (by simp)]
    exact undotted_slice hslash
  · unfold Undotted
    rw [current_mem_join hempty (isAbsolute_slice hslash),
      parts_join hempty (isAbsolute_slice hslash)]
    rcases hname with rfl | rfl
    · exact fun _ ↦ .inr (List.mem_append_right _ (by decide))
    · intro hcurrent
      rw [show inner ⟨"."⟩ = [] by decide, List.append_nil]
      exact hdir hcurrent

theorem undotted_child (hdir : Undotted dir) (hname : '/' ∉ name.toList) :
    Undotted (child dir name) := by
  unfold child
  split_ifs with hsame
  · exact undotted_slice hname
  by_cases hempty : dir.text = ""
  · rw [join, isAbsolute_slice hname, hempty, if_pos (by simp)]
    exact undotted_slice hname
  · intro hcurrent
    rw [current_mem_join hempty (isAbsolute_slice hname)] at hcurrent
    rw [parts_join hempty (isAbsolute_slice hname)]
    rcases hdir hcurrent with hself | hup
    · exact absurd (decide_eq_true hself) hsame
    · exact .inr (List.mem_append_left _ hup)

theorem notMem_of_mem_names (ht : t.Named) {location : Location} (h : name ∈ t.names location) :
    '/' ∉ name.toList := by
  obtain ⟨names, hnames, heq⟩ := List.mem_filterMap.1 h
  split at heq
  · obtain rfl := Option.some.inj heq
    exact (isInner_of_mem_below ht hnames List.mem_cons_self).2
  · cases heq

/-- What one component of a pattern can do: it goes to `..` or `.`, or to something in the
directory, and either ends there or goes on with some of the patterns. -/
theorem exists_of_mem_expandFrom {fuel : Nat} {g : Glob} {globs : List Glob}
    (h : path ∈ t.expandFrom (fuel + 1) dir (g :: globs)) :
    ∃ dir', ((∃ name, (name = ".." ∨ name = ".") ∧ dir' = dir.join ⟨name⟩) ∨
        ∃ name, (g.literal? = some name ∨ ∃ location, name ∈ t.names location) ∧
          dir' = child dir name) ∧
      (path = dir' ∨ ∃ globs', globs' ⊆ g :: globs ∧ path ∈ t.expandFrom fuel dir' globs') := by
  have hsub : globs ⊆ g :: globs := List.subset_cons_self g globs
  rw [expandFrom] at h
  dsimp only at h
  split at h
  · rename_i name hliteral
    exact ⟨child dir name, .inr ⟨name, .inl hliteral, rfl⟩,
      .inr ⟨globs, hsub, (List.mem_ite_nil_right.1 h).2⟩⟩
  rcases List.mem_append.1 (List.mem_ite_nil_right.1 h).2 with h | h
  · obtain ⟨name, hname, h⟩ := List.mem_flatMap.1 h
    have hspecial := List.mem_of_mem_filter (List.mem_ite_nil_right.1 hname).2
    exact ⟨dir.join ⟨name⟩, .inl ⟨name, by simpa using hspecial, rfl⟩, .inr ⟨globs, hsub, h⟩⟩
  obtain ⟨name, hname, h⟩ := List.mem_flatMap.1 h
  have hlocation : ∃ location, name ∈ t.names location := by
    rw [List.mem_mergeSort] at hname
    cases hresolve : t.resolve? dir with
    | none => simp [hresolve] at hname
    | some location => exact ⟨location, by simpa [hresolve] using hname⟩
  refine ⟨child dir name, .inr ⟨name, .inr hlocation, rfl⟩, ?_⟩
  split at h
  · have hdrop : globs.dropWhile Glob.isRecursive ⊆ globs := List.dropWhile_subset _
    rcases List.mem_append.1 h with h | h
    · cases hlater : globs.dropWhile Glob.isRecursive with
      | nil =>
        rw [hlater] at h
        exact .inl (List.mem_singleton.1 h)
      | cons g' globs' =>
        rw [hlater] at h hdrop
        exact .inr ⟨globs', fun x hx ↦ hsub (hdrop (List.mem_cons_of_mem g' hx)),
          (List.mem_ite_nil_right.1 h).2⟩
    · exact .inr ⟨_, List.cons_subset_cons g hdrop, (List.mem_ite_nil_right.1 h).2⟩
  · exact .inr ⟨globs, hsub, (List.mem_ite_nil_right.1 h).2⟩

/-- What a pattern yields does not begin with `.`, unless it is `.` or goes up. -/
theorem undotted_expandFrom (ht : t.Named) {fuel : Nat} {globs : List Glob}
    (hglobs : ∀ g ∈ globs, ∀ name, g.literal? = some name → '/' ∉ name.toList)
    (hdir : Undotted dir) (h : path ∈ t.expandFrom fuel dir globs) : Undotted path := by
  induction fuel generalizing dir globs with
  | zero =>
    cases globs with
    | nil =>
      obtain rfl : path = dir := by simpa [expandFrom] using h
      exact hdir
    | cons g globs => cases h
  | succ fuel ih =>
    cases globs with
    | nil =>
      obtain rfl : path = dir := by simpa [expandFrom] using h
      exact hdir
    | cons g globs =>
      obtain ⟨dir', hnext, hpath⟩ := exists_of_mem_expandFrom h
      have hdir' : Undotted dir' := by
        rcases hnext with ⟨name, hname, rfl⟩ | ⟨name, hname, rfl⟩
        · exact undotted_join hdir hname
        · apply undotted_child hdir
          rcases hname with hliteral | ⟨location, hname⟩
          · exact hglobs g List.mem_cons_self name hliteral
          · exact notMem_of_mem_names ht hname
      rcases hpath with rfl | ⟨globs', hsub, hpath⟩
      · exact hdir'
      · exact ih (fun g hg ↦ hglobs g (hsub hg)) hdir' hpath

theorem undotted_of_mem_expand (ht : t.Named) {pattern : Path} (h : path ∈ t.expand pattern) :
    Undotted path := by
  unfold expand at h
  split at h
  · rename_i globs hparse hglobs
    refine undotted_expandFrom ht ?_ ?_ h
    · intro g hg name hliteral hslash
      unfold componentGlobs? at hglobs
      obtain ⟨slice, hslice, hslice'⟩ := exists_of_mem_mapM hglobs hg
      have hmem : slice ∈ pattern.slices := by
        split_ifs at hslice
        · exact List.mem_of_mem_drop (List.dropLast_subset _ hslice)
        · exact List.mem_of_mem_drop hslice
        · exact List.dropLast_subset _ hslice
        · exact hslice
      exact notMem_of_mem_slices hmem (Glob.mem_of_literal? hslice' hliteral hslash)
    · split_ifs
      · exact fun hcurrent ↦ absurd hcurrent (by decide)
      · exact fun _ ↦ .inl (by decide)
  · cases h

/-- Scans of a file tree are faithful. -/
theorem faithful_explorer (ht : t.Named) : t.explorer.Faithful where
  undotted _ _ hpath := undotted_of_mem_expand ht hpath
  joined root path hpath := by
    unfold explorer at hpath
    dsimp only at hpath
    cases hwalk : t.walk? root with
    | none => simp [hwalk] at hpath
    | some paths => exact exists_parts_of_mem_walk? ht hwalk (by simpa [hwalk] using hpath)

end FileTree

end Harvest
