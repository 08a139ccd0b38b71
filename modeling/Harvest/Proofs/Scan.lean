import Harvest.Scan
import Harvest.Proofs.Include.Groups
import Harvest.Proofs.Path

/-!
# Ignored directories

An ignore entry without a wildcard covers the paths that begin with its own, part by part as they
are written. These are the ones that lie at or below its directory only where paths are written
alike: without `..`, and both or neither with a leading `.`. Of the explorer it is assumed that walks
are written like the path that they start from, and that what a pattern yields has lost a leading
`.`; the paths of ignore entries have not. Main statement: when a file in an ignored directory is
scanned.
-/

open Harvest.Path

namespace Harvest

namespace Path

variable {p q : Path} {ps : List PathPart}

/-- With both paths cleaned, `p` is `q` or lies below it. -/
def Within (p q : Path) : Prop :=
  ∃ names : List String, cleanParts p.parts = cleanParts q.parts ++ names.map .normal

/-- The paths are written alike: neither has `..`, and both or neither begin with `.`. -/
structure Alike (p q : Path) : Prop where
  plain_left : .parent ∉ p.parts
  plain_right : .parent ∉ q.parts
  current_iff : .current ∈ p.parts ↔ .current ∈ q.parts

theorem cleanParts_of_plain (h : .parent ∉ ps) : cleanParts ps = ps.filter (· ≠ .current) := by
  rw [cleanParts, foldl_cleanStep_of_plain h, List.append_nil, List.reverse_reverse]

/-- Only the first part can be `.`. -/
theorem parts_eq_filter (p : Path) :
    p.parts = (if .current ∈ p.parts then [.current] else []) ++ p.parts.filter (· ≠ .current) := by
  have hinner : p.inner.filter (· ≠ .current) = p.inner :=
    List.filter_eq_self.2 fun part hpart ↦ decide_eq_true fun heq ↦
      p.current_notMem_inner (heq ▸ hpart)
  rw [parts_eq, List.filter_append, hinner]
  unfold anchor
  split_ifs <;> simp_all [current_notMem_inner]

/-- Where paths are written alike, what lies within begins with the same parts. -/
theorem Within.startsWith (h : p.Within q) (halike : p.Alike q) : p.startsWith q = true := by
  obtain ⟨names, hclean⟩ := h
  rw [cleanParts_of_plain halike.plain_left, cleanParts_of_plain halike.plain_right] at hclean
  rw [Path.startsWith, List.isPrefixOf_iff_prefix]
  refine ⟨names.map .normal, ?_⟩
  rw [parts_eq_filter p, parts_eq_filter q, hclean, List.append_assoc]
  simp only [halike.current_iff]

theorem current_mem_iff : .current ∈ p.parts ↔ p.parts.head? = some .current := by
  constructor
  · intro h
    rw [parts_eq_filter p, if_pos h]
    rfl
  · exact List.mem_of_head?

/-- Where one of the paths begins with `.` and the other does not, neither covers the other. -/
theorem startsWith_of_current (h : ¬(.current ∈ p.parts ↔ .current ∈ q.parts)) (hq : q.parts ≠ []) :
    p.startsWith q = false := by
  rw [Bool.eq_false_iff, Ne, Path.startsWith, List.isPrefixOf_iff_prefix]
  rintro ⟨rest, hrest⟩
  rw [current_mem_iff, current_mem_iff, ← hrest, List.head?_append_of_ne_nil _ hq] at h
  exact h Iff.rfl

theorem current_notMem_of_isAbsolute (h : p.isAbsolute = true) : .current ∉ p.parts := by
  rw [parts_eq, List.mem_append, or_iff_left p.current_notMem_inner, anchor, if_pos h]
  simp

theorem root_mem_cleanParts : .root ∈ cleanParts p.parts ↔ p.isAbsolute = true := by
  obtain ⟨rest, hclean, hsub⟩ := exists_cleanParts p
  rw [hclean, List.mem_append, or_iff_left fun h ↦ p.root_notMem_inner (hsub.subset h)]
  unfold bottom
  split_ifs <;> simp_all

theorem Within.isAbsolute_eq (h : p.Within q) : p.isAbsolute = q.isAbsolute := by
  obtain ⟨names, hclean⟩ := h
  rw [Bool.eq_iff_iff, ← root_mem_cleanParts, ← root_mem_cleanParts, hclean, List.mem_append]
  simp

theorem isAbsolute_join (hp : p.text ≠ "") :
    (p.join q).isAbsolute = (q.isAbsolute || p.isAbsolute) := by
  cases hq : q.isAbsolute with
  | true =>
    rw [join, hq, Bool.true_or, if_pos rfl, hq]
    rfl
  | false =>
    rw [Bool.false_or, Bool.eq_iff_iff, isAbsolute_iff_root_mem, isAbsolute_iff_root_mem,
      parts_join hp hq, List.mem_append, or_iff_left q.root_notMem_inner]

/-- Seen from one directory, relative paths begin alike. -/
theorem current_mem_join (hp : p.text ≠ "") (hq : q.isAbsolute = false) :
    .current ∈ (p.join q).parts ↔ .current ∈ p.parts := by
  rw [parts_join hp hq, List.mem_append, or_iff_left q.current_notMem_inner]

/-- A path that begins with `.` only if it is `.` or goes up. -/
def Undotted (p : Path) : Prop := .current ∈ p.parts → p.parts = [.current] ∨ .parent ∈ p.parts

end Path

/-- What is assumed of an explorer. -/
structure Explorer.Faithful (x : Explorer) : Prop where
  /-- What a pattern yields has lost a leading `.`. -/
  undotted : ∀ pattern, ∀ path ∈ x.expand pattern, path.Undotted
  /-- A walk yields the path that it starts from, with names joined to it. -/
  joined : ∀ root path, some path ∈ x.walk root →
    ∃ names : List String, path.parts = root.parts ++ names.map .normal

namespace Scan

variable {t : FileTree} {x : Explorer} {base root file : Path} {includes ignores extensions : List String}

theorem mem_of_mem_sorted {paths : List Path} (h : file ∈ sorted paths) : file ∈ paths := by
  rw [sorted, List.mem_mergeSort] at h
  induction hlength : paths.length using Nat.strongRecOn generalizing paths with
  | _ n ih =>
  cases paths with
  | nil =>
    rw [List.eraseDupsBy_nil] at h
    cases h
  | cons path paths =>
    rw [List.eraseDupsBy_cons] at h
    rcases List.mem_cons.1 h with rfl | h
    · exact List.mem_cons_self
    · have hlt := List.length_filter_le (fun q ↦ decide (q.same path = false)) paths
      rw [List.length_cons] at hlength
      exact List.mem_cons_of_mem path (List.mem_of_mem_filter (ih _ (by omega) h rfl))

/-- Of the paths with the same parts one is kept. -/
theorem exists_mem_sorted {paths : List Path} (h : file ∈ paths) :
    ∃ file' ∈ sorted paths, file'.same file = true := by
  simp only [sorted, List.mem_mergeSort]
  induction hlength : paths.length using Nat.strongRecOn generalizing paths with
  | _ n ih =>
  cases paths with
  | nil => cases h
  | cons path paths =>
    rw [List.eraseDupsBy_cons]
    cases hsame : file.same path with
    | true => exact ⟨path, List.mem_cons_self, same_comm path file ▸ hsame⟩
    | false =>
      have hne : file ≠ path := fun heq ↦ by simp [heq, same_self] at hsame
      have hmem : file ∈ paths.filter fun q ↦ decide (q.same path = false) :=
        List.mem_filter.2 ⟨(List.mem_cons.1 h).resolve_left hne, decide_eq_true hsame⟩
      have hlt := List.length_filter_le (fun q ↦ decide (q.same path = false)) paths
      rw [List.length_cons] at hlength
      obtain ⟨file', hfile', heq⟩ := ih _ (by omega) hmem rfl
      exact ⟨file', List.mem_cons_of_mem path hfile', heq⟩

/-- The file belongs to the scan, as it is reached from `root`. -/
structure Listed (t : FileTree) (x : Explorer) (base : Path)
    (includes ignores extensions : List String) (root file : Path) : Prop where
  root_mem : root ∈ roots t x base includes
  walks : some file ∈ x.walk root
  isFile : t.isFile file = true
  hasExtension : hasExtension extensions file = true
  spared : ∀ entry ∈ ignores, Glob.hasWildcard entry = false →
    file.startsWith (base.join ⟨entry⟩) = false
  unmatched : ∀ entry ∈ ignores, Glob.hasWildcard entry = true →
    ∀ isMatch, x.matcher? entry = some isMatch → isMatch file.text = false

theorem covers_eq_false_iff :
    (Ignores.ofEntries x base ignores).covers file = false ↔
      (∀ entry ∈ ignores, Glob.hasWildcard entry = false →
        file.startsWith (base.join ⟨entry⟩) = false) ∧
      ∀ entry ∈ ignores, Glob.hasWildcard entry = true →
        ∀ isMatch, x.matcher? entry = some isMatch → isMatch file.text = false := by
  simp only [Ignores.covers, Ignores.ofEntries, Bool.or_eq_false_iff, List.any_eq_false,
    List.mem_map, List.mem_filterMap, List.mem_filter]
  constructor
  · rintro ⟨hpaths, hmatchers⟩
    refine ⟨fun entry hentry hliteral ↦ ?_, fun entry hentry hwildcard isMatch hmatcher ↦ ?_⟩
    · exact Bool.eq_false_iff.2 (hpaths _ ⟨entry, ⟨hentry, by simp [hliteral]⟩, rfl⟩)
    · exact Bool.eq_false_iff.2 (hmatchers isMatch ⟨entry, ⟨hentry, hwildcard⟩, hmatcher⟩)
  · rintro ⟨hpaths, hmatchers⟩
    constructor
    · rintro _ ⟨entry, ⟨hentry, hliteral⟩, rfl⟩
      exact Bool.eq_false_iff.1 (hpaths entry hentry (by simpa using hliteral))
    · rintro isMatch ⟨entry, ⟨hentry, hwildcard⟩, hmatcher⟩
      exact Bool.eq_false_iff.1 (hmatchers entry hentry hwildcard isMatch hmatcher)

theorem exists_listed_of_mem (h : file ∈ (run t x base includes ignores extensions).files) :
    ∃ root, Listed t x base includes ignores extensions root file := by
  obtain ⟨hpaths, hkept⟩ := List.mem_filter.1 (mem_of_mem_sorted h)
  simp only [Bool.and_eq_true, Bool.not_eq_true'] at hkept
  obtain ⟨hspared, hunmatched⟩ := covers_eq_false_iff.1 hkept.1.1
  obtain ⟨path, hwalks, hfile⟩ := List.mem_filterMap.1 hpaths
  obtain rfl : path = some file := hfile
  obtain ⟨root, hroot, hwalk⟩ := List.mem_flatMap.1 hwalks
  exact ⟨root, hroot, hwalk, hkept.1.2, hkept.2, hspared, hunmatched⟩

theorem Listed.exists_mem (h : Listed t x base includes ignores extensions root file) :
    ∃ file' ∈ (run t x base includes ignores extensions).files, file'.same file = true := by
  apply exists_mem_sorted
  have hwalk : some file ∈ (roots t x base includes).flatMap x.walk :=
    List.mem_flatMap.2 ⟨root, h.root_mem, h.walks⟩
  refine List.mem_filter.2 ⟨List.mem_filterMap.2 ⟨some file, hwalk, rfl⟩, ?_⟩
  rw [covers_eq_false_iff.2 ⟨h.spared, h.unmatched⟩, h.isFile, h.hasExtension]
  rfl

theorem alike_of_parts {names : List String} {ignored : Path}
    (hparts : file.parts = root.parts ++ names.map .normal) (h : root.Alike ignored) :
    file.Alike ignored where
  plain_left := by simpa [hparts] using h.plain_left
  plain_right := h.plain_right
  current_iff := by simpa [hparts] using h.current_iff

theorem isAbsolute_of_parts {names : List String}
    (hparts : file.parts = root.parts ++ names.map .normal) :
    file.isAbsolute = root.isAbsolute := by
  rw [Bool.eq_iff_iff, isAbsolute_iff_root_mem, isAbsolute_iff_root_mem, hparts]
  simp

/-- Starting points that are written out begin like the path of an ignore entry. -/
theorem current_iff_of_join (hbase : base.text ≠ "") {entry : String}
    (hroot : root = base ∨ ∃ written, root = base.join ⟨written⟩)
    (habsolute : root.isAbsolute = (base.join ⟨entry⟩).isAbsolute) :
    .current ∈ root.parts ↔ .current ∈ (base.join ⟨entry⟩).parts := by
  cases hentry : (base.join ⟨entry⟩).isAbsolute with
  | true =>
    rw [hentry] at habsolute
    exact iff_of_false (current_notMem_of_isAbsolute habsolute)
      (current_notMem_of_isAbsolute hentry)
  | false =>
    rw [hentry] at habsolute
    rw [isAbsolute_join hbase, Bool.or_eq_false_iff] at hentry
    rw [current_mem_join hbase hentry.1]
    rcases hroot with rfl | ⟨written, rfl⟩
    · rfl
    · rw [isAbsolute_join hbase, Bool.or_eq_false_iff] at habsolute
      exact current_mem_join hbase habsolute.1

/-- A starting point is written out, or a pattern yields it. -/
theorem eq_join_or_mem_expand (h : root ∈ roots t x base includes) :
    (root = base ∨ ∃ written, root = base.join ⟨written⟩) ∨
      ∃ pattern ∈ includes, Glob.hasWildcard pattern = true ∧
        root ∈ x.expand (base.join ⟨pattern⟩) := by
  unfold roots at h
  split at h
  · exact .inl (.inl (List.mem_singleton.1 h))
  · obtain ⟨entry, hentry, h⟩ := List.mem_flatMap.1 h
    dsimp only at h
    split_ifs at h with hwildcard hexists
    · exact .inr ⟨entry, hentry, hwildcard, List.mem_of_mem_filter h⟩
    · exact .inl (.inr ⟨entry, List.mem_singleton.1 h⟩)
    · cases h

/-- The files of a scan are those that are reached and that no entry covers in the spelling in which
they are reached. One that lies within the directory of an entry without a wildcard is among them
only if it is reached by `..`, or the entry is written with `..`, or just one of the two begins with
`.`; the latter takes an empty base or a pattern. What patterns yield does not begin with `.`, so
that from a base that does, no such entry covers anything that is reached by a pattern. -/
theorem files_within_ignored (hx : x.Faithful) (t : FileTree) (base : Path)
    (includes ignores extensions : List String) :
    (∀ file ∈ (run t x base includes ignores extensions).files,
      ∃ root, Listed t x base includes ignores extensions root file) ∧
    (∀ root file, Listed t x base includes ignores extensions root file →
      (∃ file' ∈ (run t x base includes ignores extensions).files, file'.same file = true) ∧
      ∀ entry ∈ ignores, Glob.hasWildcard entry = false → file.Within (base.join ⟨entry⟩) →
        .parent ∈ root.parts ∨ .parent ∈ (base.join ⟨entry⟩).parts ∨
          (¬(.current ∈ root.parts ↔ .current ∈ (base.join ⟨entry⟩).parts) ∧
            (base.text = "" ∨ ∃ pattern ∈ includes, Glob.hasWildcard pattern = true ∧
              root ∈ x.expand (base.join ⟨pattern⟩)))) ∧
    ∀ pattern root file, root ∈ x.expand (base.join ⟨pattern⟩) → some file ∈ x.walk root →
      .current ∈ base.parts → .parent ∉ root.parts → root.parts ≠ [.current] →
      ∀ entry, (⟨entry⟩ : Path).isAbsolute = false →
        file.startsWith (base.join ⟨entry⟩) = false := by
  refine ⟨fun file ↦ exists_listed_of_mem, fun root file hlisted ↦ ⟨hlisted.exists_mem, ?_⟩, ?_⟩
  · intro entry hentry hliteral hwithin
    obtain ⟨names, hparts⟩ := hx.joined root file hlisted.walks
    by_contra hreasons
    rw [not_or, not_or] at hreasons
    obtain ⟨hplain, hplain', hreasons⟩ := hreasons
    have hcurrent : ¬(.current ∈ root.parts ↔ .current ∈ (base.join ⟨entry⟩).parts) := by
      intro hcurrent
      have hstarts := hwithin.startsWith (alike_of_parts hparts ⟨hplain, hplain', hcurrent⟩)
      rw [hlisted.spared entry hentry hliteral] at hstarts
      cases hstarts
    have hbase : base.text ≠ "" := fun hbase ↦ hreasons ⟨hcurrent, .inl hbase⟩
    rcases eq_join_or_mem_expand hlisted.root_mem with hroot | hpattern
    · exact hcurrent (current_iff_of_join hbase hroot
        ((isAbsolute_of_parts hparts).symm.trans hwithin.isAbsolute_eq))
    · exact hreasons ⟨hcurrent, .inr hpattern⟩
  · intro pattern root file hroot hwalks hbase hplain hself entry hentry
    obtain ⟨names, hparts⟩ := hx.joined root file hwalks
    have htext : base.text ≠ "" := by
      rintro htext
      rw [show base = ⟨""⟩ from congrArg Path.mk htext] at hbase
      exact absurd hbase (by decide)
    have hignored : .current ∈ (base.join ⟨entry⟩).parts := (current_mem_join htext hentry).2 hbase
    have hfile : .current ∉ file.parts := by
      intro hcurrent
      have hcurrent : .current ∈ root.parts := by simpa [hparts] using hcurrent
      exact (hx.undotted _ root hroot hcurrent).elim hself hplain
    exact startsWith_of_current (fun h ↦ hfile (h.2 hignored)) (List.ne_nil_of_mem hignored)

/-- A source file in a directory of its own. -/
def sourceFiles : FileTree where
  entries :=
    [(["src"], .directory), (["src", "a"], .directory), (["src", "a", "x.c"], .file ⟨#[]⟩)]

/-- Finds the directory by a pattern, and the file below whatever it walks from. -/
def sourceExplorer : Explorer where
  expand pattern := if pattern = ⟨"./sr*"⟩ then [⟨"src"⟩] else []
  matcher? _ := none
  walk root := [some root, some (root.join ⟨"a"⟩), some ((root.join ⟨"a"⟩).join ⟨"x.c"⟩)]

theorem faithful_sourceExplorer : sourceExplorer.Faithful where
  undotted pattern path hpath := by
    unfold sourceExplorer at hpath
    dsimp only at hpath
    split_ifs at hpath
    · obtain rfl := List.mem_singleton.1 hpath
      exact fun hcurrent ↦ absurd hcurrent (by decide)
    · cases hpath
  joined root path hpath := by
    have ha : (root.join ⟨"a"⟩).parts = root.parts ++ [.normal "a"] :=
      parts_join_name root (by decide)
    have hx : ((root.join ⟨"a"⟩).join ⟨"x.c"⟩).parts = root.parts ++ [.normal "a", .normal "x.c"] := by
      rw [parts_join_name (root.join ⟨"a"⟩) (by decide), ha, List.append_assoc]
      rfl
    simp only [sourceExplorer, List.mem_cons, Option.some.injEq, List.not_mem_nil, or_false] at hpath
    rcases hpath with rfl | rfl | rfl
    · exact ⟨[], by simp⟩
    · exact ⟨["a"], ha⟩
    · exact ⟨["a", "x.c"], hx⟩

theorem listed_sourceFiles :
    Listed sourceFiles sourceExplorer ⟨"."⟩ ["sr*"] ["src/a"] ["c"] ⟨"src"⟩ ⟨"src/a/x.c"⟩ where
  root_mem := by decide +kernel
  walks := by decide +kernel
  isFile := by decide +kernel
  hasExtension := by decide +kernel
  spared := by decide +kernel
  unmatched := by simp [Glob.hasWildcard]

theorem files_within_ignored_pattern :
    sourceExplorer.Faithful ∧
      Listed sourceFiles sourceExplorer ⟨"."⟩ ["sr*"] ["src/a"] ["c"] ⟨"src"⟩ ⟨"src/a/x.c"⟩ ∧
      Within ⟨"src/a/x.c"⟩ (join ⟨"."⟩ ⟨"src/a"⟩) ∧
      (∃ file ∈ (run sourceFiles sourceExplorer ⟨"."⟩ ["sr*"] ["src/a"] ["c"]).files,
        file.same ⟨"src/a/x.c"⟩ = true) ∧
      ¬(.current ∈ parts ⟨"src"⟩ ↔ .current ∈ (join ⟨"."⟩ ⟨"src/a"⟩).parts) ∧
      startsWith ⟨"src/a/x.c"⟩ (join ⟨"."⟩ ⟨"src/a"⟩) = false := by
  obtain ⟨-, hfiles, hpattern⟩ :=
    files_within_ignored faithful_sourceExplorer sourceFiles ⟨"."⟩ ["sr*"] ["src/a"] ["c"]
  obtain ⟨hmem, hreasons⟩ := hfiles _ _ listed_sourceFiles
  have hwithin : Within ⟨"src/a/x.c"⟩ (join ⟨"."⟩ ⟨"src/a"⟩) := ⟨["x.c"], by decide⟩
  have hcurrent := ((hreasons "src/a" (by decide) (by decide) hwithin).resolve_left
    (by decide)).resolve_left (by decide)
  exact ⟨faithful_sourceExplorer, listed_sourceFiles, hwithin, hmem, hcurrent.1,
    hpattern "sr*" ⟨"src"⟩ _ (by decide +kernel) listed_sourceFiles.walks (by decide) (by decide)
      (by decide) "src/a" (by decide)⟩

/-- The source file is scanned though its directory is to be left out, where a pattern is used,
where the entry is written with `..`, and where only the entry is written with `.`. -/
theorem ignored_directory_scanned :
    sourceExplorer.Faithful ∧
      (run sourceFiles sourceExplorer ⟨"."⟩ ["sr*"] ["src/a"] ["c"]).files = [⟨"src/a/x.c"⟩] ∧
      Within ⟨"src/a/x.c"⟩ (join ⟨"."⟩ ⟨"src/a"⟩) ∧
      (run sourceFiles sourceExplorer ⟨"."⟩ ["src"] ["src/../src/a"] ["c"]).files =
        [⟨"./src/a/x.c"⟩] ∧
      Within ⟨"./src/a/x.c"⟩ (join ⟨"."⟩ ⟨"src/../src/a"⟩) ∧
      (run sourceFiles sourceExplorer ⟨""⟩ ["src"] ["./src/a"] ["c"]).files = [⟨"src/a/x.c"⟩] ∧
      Within ⟨"src/a/x.c"⟩ (join ⟨""⟩ ⟨"./src/a"⟩) :=
  ⟨faithful_sourceExplorer, by decide +kernel, ⟨["x.c"], by decide⟩, by decide +kernel,
    ⟨["x.c"], by decide⟩, by decide +kernel, ⟨["x.c"], by decide⟩⟩

end Scan

end Harvest
