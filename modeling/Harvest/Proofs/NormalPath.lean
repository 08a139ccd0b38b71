import Harvest.FileTree
import Harvest.Proofs.Path

/-!
# Clean paths

A path is clean if it is spelt by its parts alone, has no `.` unless it is `.`, and has `..` only in
front, and not behind the root. Cleaning takes every path to the one clean path that leads to the
same place from everywhere, where a name leads into a directory and `..` out of it, whatever they
name. What a path is joined to may be cleaned before or after.
-/

namespace Harvest.Path

variable {p q : Path} {ps ps' : List PathPart} {done : List PathPart} {ups : Nat}
  {names : List String}

/-- A path with nothing to clean. -/
structure IsClean (p : Path) : Prop where
  /-- The text has slashes and `.` only where the parts need them. -/
  spelling : ofParts p.parts = p
  nonempty : p.text ≠ ""
  current : .current ∈ p.parts → p = ⟨"."⟩
  leading : .parent ∉ p.parts.dropWhile (· = .parent)
  relative : .parent ∈ p.parts → p.isAbsolute = false

instance (p : Path) : Decidable p.IsClean :=
  decidable_of_iff
    (ofParts p.parts = p ∧ p.text ≠ "" ∧ (.current ∈ p.parts → p = ⟨"."⟩) ∧
      .parent ∉ p.parts.dropWhile (· = .parent) ∧ (.parent ∈ p.parts → p.isAbsolute = false))
    ⟨fun ⟨spelling, nonempty, current, leading, relative⟩ ↦
        ⟨spelling, nonempty, current, leading, relative⟩,
      fun h ↦ ⟨h.spelling, h.nonempty, h.current, h.leading, h.relative⟩⟩

/-- Steps up and then names. -/
def climb (ups : Nat) (names : List String) : List PathPart :=
  List.replicate ups .parent ++ names.map .normal

theorem climb_append (ups : Nat) (names : List String) (name : String) :
    climb ups names ++ [.normal name] = climb ups (names ++ [name]) := by
  rw [climb, climb, List.append_assoc, List.map_append, List.map_singleton]

theorem current_notMem_climb : .current ∉ climb ups names := by
  simp [climb, List.mem_replicate]

theorem root_notMem_climb : .root ∉ climb ups names := by
  simp [climb, List.mem_replicate]

theorem dropWhile_climb : (climb ups names).dropWhile (· = .parent) = names.map .normal := by
  rw [climb, List.dropWhile_append_of_pos (by simp [List.mem_replicate])]
  cases names <;> simp

/-- Settled parts are steps up and then names, and behind the root only names. -/
theorem exists_climb_of_settled {base : List PathPart} (hbase : base = [] ∨ base = [.root])
    (hinner : ∀ part ∈ done, part.IsInner) (h : Settled (done ++ base)) :
    ∃ ups names, done.reverse = climb ups names ∧ (base = [.root] → ups = 0) := by
  induction done with
  | nil => exact ⟨0, [], rfl, fun _ ↦ rfl⟩
  | cons part done ih =>
    rw [List.forall_mem_cons] at hinner
    obtain ⟨ups, names, hdone, hups⟩ := ih hinner.2 h.2
    cases part with
    | root => exact absurd hinner.1 (by decide)
    | current => exact absurd hinner.1 (by decide)
    | normal name =>
      exact ⟨ups, names ++ [name], by rw [List.reverse_cons, hdone, climb_append], hups⟩
    | parent =>
      have hpush : cleanStep (done ++ base) .parent = .parent :: (done ++ base) := h.1
      -- Behind a name or the root `..` is not pushed.
      rcases List.eq_nil_or_concat names with rfl | ⟨names, name, rfl⟩
      · rw [climb, List.map_nil, List.append_nil, List.reverse_eq_iff,
          List.reverse_replicate] at hdone
        subst hdone
        rcases hbase with rfl | rfl
        · refine ⟨ups + 1, [], ?_, fun heq ↦ absurd heq (List.cons_ne_nil _ _).symm⟩
          rw [← List.replicate_succ, List.reverse_replicate, climb, List.map_nil, List.append_nil]
        · rw [hups rfl] at hpush
          cases hpush
      · rw [List.concat_eq_append, ← climb_append, List.reverse_eq_iff] at hdone
        have hpop : (climb ups names).reverse ++ base =
            .parent :: .normal name :: ((climb ups names).reverse ++ base) := by
          simpa [hdone, cleanStep] using hpush
        have hlength := congrArg List.length hpop
        simp only [List.length_cons] at hlength
        omega

theorem exists_cleanParts_eq (p : Path) :
    ∃ ups names, cleanParts p.parts = p.bottom ++ climb ups names ∧
      (p.isAbsolute = true → ups = 0) ∧ ∀ name ∈ names, (PathPart.normal name).IsInner := by
  obtain ⟨rest, hclean, hsub⟩ := exists_cleanParts p
  have hinner : ∀ part ∈ rest, part.IsInner := isInner_of_sublist hsub
  have hbottom : Settled p.bottom := by
    rcases p.bottom_eq with h | h <;> rw [h]
    · trivial
    · exact ⟨rfl, trivial⟩
  have hfold : p.inner.foldl cleanStep p.bottom = rest.reverse ++ p.bottom := by
    rw [← List.reverse_inj, reverse_append_bottom, List.reverse_reverse, ← cleanParts_parts, hclean]
  have hsettled : Settled (rest.reverse ++ p.bottom) := hfold ▸ settled_foldl hbottom p.inner
  obtain ⟨ups, names, hrest, hups⟩ :=
    exists_climb_of_settled p.bottom_eq (by simpa using hinner) hsettled
  rw [List.reverse_reverse] at hrest
  subst hrest
  refine ⟨ups, names, hclean, fun habsolute ↦ hups (if_pos habsolute), fun name hname ↦ hinner _ ?_⟩
  exact List.mem_append_right _ (List.mem_map_of_mem hname)

theorem isClean_clean (p : Path) : p.clean.IsClean := by
  by_cases hnil : cleanParts p.parts = []
  · rw [clean_eq_current hnil]
    decide
  obtain ⟨ups, names, hclean, hups, -⟩ := exists_cleanParts_eq p
  have hparts : p.clean.parts = p.bottom ++ climb ups names := (parts_clean hnil).trans hclean
  have hspelling : ofParts p.clean.parts = p.clean := by
    rw [parts_clean hnil, clean_eq_ofParts hnil]
  unfold bottom at hparts
  split_ifs at hparts with habsolute
  · obtain rfl := hups habsolute
    have hplain : .parent ∉ p.clean.parts := by simp [hparts, climb]
    refine ⟨hspelling, p.text_clean_ne, fun h ↦ ?_, fun h ↦ ?_, fun h ↦ absurd h hplain⟩
    · simp [hparts, climb] at h
    · exact hplain ((List.dropWhile_sublist _).subset h)
  · rw [List.nil_append] at hparts
    refine ⟨hspelling, p.text_clean_ne, fun h ↦ ?_, ?_, fun _ ↦ ?_⟩
    · exact absurd (hparts ▸ h) current_notMem_climb
    · rw [hparts, dropWhile_climb]
      simp
    · rw [Bool.eq_false_iff, Ne, isAbsolute_iff_root_mem, hparts]
      exact root_notMem_climb

theorem foldl_cleanStep_replicate (n : Nat) :
    (List.replicate n PathPart.parent).foldl cleanStep [] = List.replicate n .parent := by
  induction n with
  | zero => rfl
  | succ n ih =>
    rw [List.replicate_succ', List.foldl_append, ih, ← List.replicate_succ', List.replicate_succ]
    cases n <;> rfl

theorem cleanParts_of_leading (hcurrent : .current ∉ ps)
    (hleading : .parent ∉ ps.dropWhile (· = .parent)) : cleanParts ps = ps := by
  obtain ⟨ups, hups⟩ : ∃ ups, ps.takeWhile (· = .parent) = List.replicate ups .parent :=
    ⟨_, List.eq_replicate_iff.2 ⟨rfl, fun part hpart ↦
      of_decide_eq_true (List.all_eq_true.1 List.all_takeWhile part hpart)⟩⟩
  have hnames : (ps.dropWhile (· = .parent)).filter (· ≠ .current) = ps.dropWhile (· = .parent) :=
    List.filter_eq_self.2 fun part hpart ↦ decide_eq_true fun heq ↦
      hcurrent ((List.dropWhile_sublist _).subset (heq ▸ hpart))
  calc cleanParts ps
      = cleanParts (ps.takeWhile (· = .parent) ++ ps.dropWhile (· = .parent)) := by
        rw [List.takeWhile_append_dropWhile]
    _ = ps.takeWhile (· = .parent) ++ ps.dropWhile (· = .parent) := by
        rw [cleanParts, List.foldl_append, foldl_cleanStep_of_plain hleading, hnames, hups,
          foldl_cleanStep_replicate, List.reverse_append, List.reverse_reverse,
          List.reverse_replicate]
    _ = ps := List.takeWhile_append_dropWhile

theorem IsClean.clean_eq (h : p.IsClean) : p.clean = p := by
  by_cases hcurrent : .current ∈ p.parts
  · rw [h.current hcurrent]
    decide
  have hclean : cleanParts p.parts = p.parts := cleanParts_of_leading hcurrent h.leading
  have hne : p.parts ≠ [] := by
    intro hnil
    have hempty := h.spelling
    rw [hnil] at hempty
    exact h.nonempty (hempty ▸ rfl)
  rw [clean_eq_ofParts (by rwa [hclean]), hclean, h.spelling]

theorem isClean_iff : p.IsClean ↔ p.clean = p :=
  ⟨IsClean.clean_eq, fun h ↦ h ▸ p.isClean_clean⟩

/-- Clean paths with the same parts have the same text. -/
theorem same_clean_iff : p.clean.same q.clean = true ↔ p.clean = q.clean := by
  rw [same, decide_eq_true_iff]
  refine ⟨fun h ↦ ?_, congrArg parts⟩
  rw [← p.isClean_clean.spelling, h, q.isClean_clean.spelling]

/-- One step from a location, into a directory or out of it. -/
def enter (here : Location) : PathPart → Location
  | .root => []
  | .current => here
  | .parent => here.dropLast
  | .normal name => here ++ [name]

/-- Where a path leads from a location if every name on it is that of a directory. -/
def walk (p : Path) (here : Location) : Location := p.parts.foldl enter here

/-- What is left of the parts so far leads to where they lead. -/
theorem foldl_enter_cleanStep (here : Location) (done : List PathPart) (part : PathPart) :
    (cleanStep done part).reverse.foldl enter here =
      enter (done.reverse.foldl enter here) part := by
  have hpush : (part :: done).reverse.foldl enter here =
      enter (done.reverse.foldl enter here) part := by
    rw [List.reverse_cons, List.foldl_append]
    rfl
  cases part with
  | root => exact hpush
  | current => rfl
  | normal name => exact hpush
  | parent =>
    cases done with
    | nil => exact hpush
    | cons last done =>
      cases last with
      | root => simp [cleanStep, enter]
      | current => exact hpush
      | parent => exact hpush
      | normal name => simp [cleanStep, enter]

theorem foldl_enter_cleanParts (here : Location) (ps : List PathPart) :
    (cleanParts ps).foldl enter here = ps.foldl enter here := by
  have hrun (done : List PathPart) : (ps.foldl cleanStep done).reverse.foldl enter here =
      ps.foldl enter (done.reverse.foldl enter here) := by
    induction ps generalizing done with
    | nil => rfl
    | cons part ps ih => rw [List.foldl_cons, ih, foldl_enter_cleanStep, List.foldl_cons]
  exact hrun []

theorem walk_clean (p : Path) (here : Location) : p.clean.walk here = p.walk here := by
  rw [walk, walk, ← foldl_enter_cleanParts here p.clean.parts, cleanParts_parts_clean,
    foldl_enter_cleanParts]

theorem foldl_enter_climb (here : Location) (ups : Nat) (names : List String) :
    (climb ups names).foldl enter here = here.take (here.length - ups) ++ names := by
  have hnames (here : Location) : (names.map PathPart.normal).foldl enter here = here ++ names := by
    induction names generalizing here with
    | nil => simp
    | cons name names ih => simp [ih, enter]
  rw [climb, List.foldl_append, hnames]
  congr 1
  induction ups generalizing here with
  | zero => simp
  | succ ups ih =>
    rw [List.replicate_succ, List.foldl_cons, ih, enter, List.dropLast_eq_take, List.take_take]
    simp only [List.length_take]
    congr 1
    omega

theorem clean_congr (h : cleanParts p.parts = cleanParts q.parts) : p.clean = q.clean := by
  rw [clean, h, clean]

/-- From a location of empty names, which no path has, it shows how far up a path leads. -/
theorem exists_walk_replicate (p : Path) :
    ∃ ups names, cleanParts p.parts = p.bottom ++ climb ups names ∧
      (p.isAbsolute = true → ups = 0) ∧ "" ∉ names ∧
      ∀ depth, p.walk (List.replicate depth "") =
        List.replicate (if p.isAbsolute then 0 else depth - ups) "" ++ names := by
  obtain ⟨ups, names, hclean, hups, hinner⟩ := exists_cleanParts_eq p
  refine ⟨ups, names, hclean, hups, fun h ↦ absurd (hinner "" h) (by decide), fun depth ↦ ?_⟩
  rw [walk, ← foldl_enter_cleanParts, hclean, List.foldl_append, foldl_enter_climb]
  unfold bottom
  split_ifs <;> simp [enter]

/-- A clean path is known by where it leads. -/
theorem clean_eq_iff_walk : p.clean = q.clean ↔ ∀ here, p.walk here = q.walk here := by
  refine ⟨fun h here ↦ by rw [← p.walk_clean, h, q.walk_clean], fun h ↦ clean_congr ?_⟩
  obtain ⟨ups, names, hclean, hups, hnames, hwalk⟩ := exists_walk_replicate p
  obtain ⟨ups', names', hclean', hups', hnames', hwalk'⟩ := exists_walk_replicate q
  have heq := h (List.replicate (ups + ups' + 1) "")
  rw [hwalk, hwalk'] at heq
  have hcount := congrArg (List.count "") heq
  simp only [List.count_append, List.count_replicate_self, List.count_eq_zero_of_not_mem hnames,
    List.count_eq_zero_of_not_mem hnames'] at hcount
  have hbottom : p.isAbsolute = q.isAbsolute ∧ ups = ups' := by
    split_ifs at hcount with hp hq hq
    · exact ⟨hp.trans hq.symm, (hups hp).trans (hups' hq).symm⟩
    · omega
    · omega
    · exact ⟨(Bool.eq_false_iff.2 hp).trans (Bool.eq_false_iff.2 hq).symm, by omega⟩
  obtain ⟨habsolute, rfl⟩ := hbottom
  rw [habsolute] at heq
  rw [hclean, hclean', List.append_cancel_left heq, bottom, bottom, habsolute]

theorem cleanParts_append_congr (h : cleanParts ps = cleanParts ps') (rest : List PathPart) :
    cleanParts (ps ++ rest) = cleanParts (ps' ++ rest) := by
  have hfold : ps.foldl cleanStep [] = ps'.foldl cleanStep [] := List.reverse_inj.1 h
  rw [cleanParts, cleanParts, List.foldl_append, List.foldl_append, hfold]

theorem join_of_isAbsolute (hq : q.isAbsolute = true) (p : Path) : p.join q = q := by
  rw [join, hq, Bool.true_or, if_pos rfl]

theorem cleanParts_join (p : Path) (hq : q.isAbsolute = false) :
    cleanParts (p.join q).parts = cleanParts (p.parts ++ q.inner) := by
  by_cases hp : p.text = ""
  · obtain ⟨text⟩ := p
    obtain rfl : text = "" := hp
    have hjoin : join ⟨""⟩ q = q := by simp [join]
    have hbottom : q.bottom = [] := by simp [bottom, hq]
    rw [hjoin, cleanParts_parts, hbottom]
    rfl
  · rw [parts_join hp hq]

theorem clean_join (p q : Path) : (p.join q).clean = (p.clean.join q).clean := by
  cases hq : q.isAbsolute with
  | true => rw [join_of_isAbsolute hq, join_of_isAbsolute hq]
  | false =>
    apply clean_congr
    rw [cleanParts_join p hq, cleanParts_join p.clean hq]
    exact cleanParts_append_congr p.cleanParts_parts_clean.symm q.inner

end Harvest.Path
