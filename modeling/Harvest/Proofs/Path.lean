import Harvest.Path
import Harvest.Proofs.Text.Pieces
import Mathlib.Data.List.Basic

/-!
# Parts of paths

A path is the texts between its slashes, and its parts are those of them that count, behind the
root or a leading `.`. Joining appends parts. Cleaning keeps some of the parts, in their order, and
cleaning again keeps all of them.
-/

namespace Harvest

/-- A part that may stand behind another one. -/
def PathPart.IsInner (part : PathPart) : Prop :=
  Path.part? part.render = some part ∧ '/' ∉ part.render.toList

instance (part : PathPart) : Decidable part.IsInner :=
  inferInstanceAs (Decidable (_ ∧ _))

namespace Path

variable {p q : Path} {ps : List PathPart} {done : List PathPart} {part : PathPart}

theorem slices_ne_nil (p : Path) : p.slices ≠ [] := by
  rw [slices, Ne, List.map_eq_nil_iff]
  exact Text.pieces_ne_nil _ _

theorem intercalate_slices (p : Path) : "/".intercalate p.slices = p.text := by
  apply String.toList_injective
  rw [String.toList_intercalate, slices, List.map_map]
  simpa [Function.comp_def] using Text.intercalate_pieces '/' p.text.toList

theorem slices_append (s s' : String) : slices ⟨s ++ "/" ++ s'⟩ = slices ⟨s⟩ ++ slices ⟨s'⟩ := by
  have htext : (s ++ "/" ++ s').toList = s.toList ++ '/' :: s'.toList := by simp
  rw [slices, slices, slices, htext, Text.pieces_append (by decide), List.map_append]

theorem slices_eq_singleton {s : String} (h : '/' ∉ s.toList) : slices ⟨s⟩ = [s] := by
  have hslash : ∀ c ∈ s.toList, decide (c = '/') = false :=
    fun c hc ↦ decide_eq_false fun heq ↦ h (heq ▸ hc)
  rw [slices, Text.pieces_eq_singleton hslash, List.map_singleton, String.ofList_toList]

theorem slices_empty : slices ⟨""⟩ = [""] := by decide

theorem slices_name {name : String} (hname : (PathPart.normal name).IsInner) :
    slices ⟨name⟩ = [name] := slices_eq_singleton hname.2

theorem slices_intercalate {ss : List String} (hne : ss ≠ []) (h : ∀ s ∈ ss, '/' ∉ s.toList) :
    slices ⟨"/".intercalate ss⟩ = ss := by
  induction ss with
  | nil => exact absurd rfl hne
  | cons s ss ih =>
    rw [List.forall_mem_cons] at h
    cases ss with
    | nil => rw [String.intercalate_singleton, slices_eq_singleton h.1]
    | cons s' ss =>
      rw [String.intercalate_cons_cons, slices_append, slices_eq_singleton h.1,
        ih (List.cons_ne_nil s' ss) h.2]
      rfl

theorem notMem_of_mem_slices {s : String} (h : s ∈ p.slices) : '/' ∉ s.toList := by
  obtain ⟨piece, hpiece, rfl⟩ := List.mem_map.1 h
  rw [String.toList_ofList]
  intro hslash
  exact absurd (Text.eq_false_of_mem_pieces hpiece hslash) (by decide)

/-- What a path begins with, apart from its names. -/
def anchor (p : Path) : List PathPart :=
  if p.isAbsolute then [.root] else if p.slices.head? = some "." then [.current] else []

/-- The parts behind the root or the leading `.`. -/
def inner (p : Path) : List PathPart := p.slices.filterMap part?

theorem parts_eq (p : Path) : p.parts = p.anchor ++ p.inner := rfl

theorem render_of_part? {s : String} (h : part? s = some part) : part.render = s := by
  unfold part? at h
  split_ifs at h with hblank hup
  · obtain rfl := Option.some.inj h
    exact hup.symm
  · obtain rfl := Option.some.inj h
    rfl

theorem isInner_of_mem_inner (h : part ∈ p.inner) : part.IsInner := by
  obtain ⟨s, hs, hpart⟩ := List.mem_filterMap.1 h
  obtain rfl := render_of_part? hpart
  exact ⟨hpart, notMem_of_mem_slices hs⟩

theorem isInner_of_sublist (h : ps.Sublist p.inner) : ∀ part ∈ ps, part.IsInner :=
  fun _ hpart ↦ isInner_of_mem_inner (h.subset hpart)

theorem mem_inner_of_normal {name : String} (h : .normal name ∈ p.parts) :
    .normal name ∈ p.inner := by
  rw [parts_eq, List.mem_append] at h
  refine h.resolve_left ?_
  unfold anchor
  split_ifs <;> simp

theorem current_notMem_inner (p : Path) : .current ∉ p.inner :=
  fun h ↦ absurd (isInner_of_mem_inner h) (by decide)

theorem root_notMem_inner (p : Path) : .root ∉ p.inner :=
  fun h ↦ absurd (isInner_of_mem_inner h) (by decide)

theorem isAbsolute_iff_root_mem : p.isAbsolute = true ↔ .root ∈ p.parts := by
  rw [parts_eq, List.mem_append, or_iff_left p.root_notMem_inner]
  unfold anchor
  split_ifs <;> simp_all

theorem filterMap_part?_map_render (h : ∀ part ∈ ps, part.IsInner) :
    (ps.map PathPart.render).filterMap part? = ps := by
  rw [List.filterMap_map]
  exact (List.filterMap_congr fun part hpart ↦ (h part hpart).1).trans List.filterMap_some

theorem map_render_inner (p : Path) :
    p.inner.map PathPart.render = p.slices.filter fun s ↦ (part? s).isSome := by
  unfold inner
  induction p.slices with
  | nil => rfl
  | cons s ss ih =>
    cases hs : part? s with
    | none => rw [List.filterMap_cons_none hs, List.filter_cons_of_neg (by simp [hs]), ih]
    | some part =>
      rw [List.filterMap_cons_some hs, List.filter_cons_of_pos (by simp [hs]), List.map_cons, ih,
        render_of_part? hs]

theorem isAbsolute_iff : p.isAbsolute = true ↔ p.slices.head? = some "" ∧ p.text ≠ "" := by
  obtain ⟨text⟩ := p
  obtain ⟨cs, rfl⟩ : ∃ cs, text = String.ofList cs := ⟨text.toList, String.ofList_toList.symm⟩
  cases cs with
  | nil => simp [isAbsolute]
  | cons c cs =>
    cases h : Text.pieces (· = '/') cs with
    | nil => exact absurd h (Text.pieces_ne_nil _ cs)
    | cons piece more => by_cases hc : c = '/' <;> simp [isAbsolute, slices, Text.pieces, h, hc]

theorem anchor_congr (hp : p.text ≠ "") (hq : q.text ≠ "")
    (h : p.slices.head? = q.slices.head?) : p.anchor = q.anchor := by
  have habsolute : p.isAbsolute = q.isAbsolute := by
    rw [Bool.eq_iff_iff, isAbsolute_iff, isAbsolute_iff, h]
    simp [hp, hq]
  rw [anchor, anchor, habsolute, h]

theorem isAbsolute_slice {s : String} (h : '/' ∉ s.toList) : (⟨s⟩ : Path).isAbsolute = false := by
  rw [Bool.eq_false_iff, Ne, isAbsolute_iff, slices_eq_singleton h]
  exact fun heq ↦ heq.2 (Option.some.inj heq.1)

theorem slices_ofParts_root (h : ∀ part ∈ ps, part.IsInner) :
    (ofParts (.root :: ps)).slices = "" :: if ps = [] then [""] else ps.map PathPart.render := by
  have hslices := slices_append "" ("/".intercalate (ps.map PathPart.render))
  rw [String.empty_append, slices_empty] at hslices
  rw [ofParts, hslices, List.singleton_append]
  split_ifs with hps
  · rw [hps, List.map_nil, String.intercalate_nil, slices_empty]
  · rw [slices_intercalate (by simpa using hps) (by simpa using fun part hpart ↦ (h part hpart).2)]

theorem slices_ofParts (hne : ps ≠ []) (h : ∀ part ∈ ps, part.IsInner) :
    (ofParts ps).slices = ps.map PathPart.render := by
  have hparts : ofParts ps = ⟨"/".intercalate (ps.map PathPart.render)⟩ := by
    unfold ofParts
    split
    · exact absurd (h .root List.mem_cons_self) (by decide)
    · rfl
  rw [hparts, slices_intercalate (by simpa using hne)
    (by simpa using fun part hpart ↦ (h part hpart).2)]

theorem isAbsolute_ofParts_root (ps : List PathPart) :
    (ofParts (.root :: ps)).isAbsolute = true := by
  simp [ofParts, isAbsolute]

theorem render_ne_of_isInner (h : part.IsInner) : part.render ≠ "" ∧ part.render ≠ "." := by
  constructor <;> intro heq <;> have hpart := h.1 <;> rw [heq] at hpart <;> cases hpart

theorem isAbsolute_ofParts (h : ∀ part ∈ ps, part.IsInner) : (ofParts ps).isAbsolute = false := by
  cases ps with
  | nil => decide
  | cons part ps =>
    rw [Bool.eq_false_iff, Ne, isAbsolute_iff, slices_ofParts (List.cons_ne_nil part ps) h]
    exact fun heq ↦ (render_ne_of_isInner (h part List.mem_cons_self)).1 (Option.some.inj heq.1)

theorem anchor_ofParts (h : ∀ part ∈ ps, part.IsInner) : (ofParts ps).anchor = [] := by
  rw [anchor, isAbsolute_ofParts h, if_neg Bool.false_ne_true, if_neg]
  cases ps with
  | nil => decide
  | cons part ps =>
    rw [slices_ofParts (List.cons_ne_nil part ps) h]
    exact fun heq ↦ (render_ne_of_isInner (h part List.mem_cons_self)).2 (Option.some.inj heq)

theorem parts_ofParts_root (h : ∀ part ∈ ps, part.IsInner) :
    (ofParts (.root :: ps)).parts = .root :: ps := by
  have hinner : (ofParts (.root :: ps)).inner = ps := by
    rw [inner, slices_ofParts_root h]
    split_ifs with hps
    · rw [hps]
      rfl
    · exact filterMap_part?_map_render h
  rw [parts_eq, anchor, if_pos (isAbsolute_ofParts_root ps), hinner, List.singleton_append]

theorem parts_ofParts (hne : ps ≠ []) (h : ∀ part ∈ ps, part.IsInner) :
    (ofParts ps).parts = ps := by
  rw [parts_eq, anchor_ofParts h, inner, slices_ofParts hne h, filterMap_part?_map_render h,
    List.nil_append]

/-- Joining puts the slices one behind the other; an empty one at the seam is lost. -/
theorem exists_slices_join (hp : p.text ≠ "") (hq : q.isAbsolute = false) :
    ∃ ss, ss ≠ [] ∧ (p.slices = ss ∨ p.slices = ss ++ [""]) ∧
      (p.join q).slices = ss ++ q.slices := by
  unfold join
  rw [hq, Bool.false_or, if_neg (by simpa using hp)]
  split_ifs with hlast
  · obtain ⟨cs, hcs⟩ := List.getLast?_eq_some_iff.1 hlast
    have htext : p.text = String.ofList cs ++ "/" := by
      apply String.toList_injective
      simp [hcs]
    refine ⟨slices ⟨String.ofList cs⟩, slices_ne_nil _, .inr ?_, ?_⟩
    · have hslices := slices_append (String.ofList cs) ""
      rw [String.append_empty, ← htext, slices_empty] at hslices
      exact hslices
    · rw [htext, slices_append]
  · exact ⟨p.slices, slices_ne_nil p, .inl rfl, slices_append _ _⟩

theorem parts_join (hp : p.text ≠ "") (hq : q.isAbsolute = false) :
    (p.join q).parts = p.parts ++ q.inner := by
  obtain ⟨ss, hne, hp', hjoin⟩ := exists_slices_join hp hq
  obtain ⟨s, ss, rfl⟩ := List.exists_cons_of_ne_nil hne
  have hhead : (p.join q).slices.head? = p.slices.head? := by
    rcases hp' with hp' | hp' <;> rw [hp', hjoin] <;> rfl
  have htext : (p.join q).text ≠ "" := by
    unfold join
    rw [hq, Bool.false_or, if_neg (by simpa using hp)]
    split_ifs <;> simp [hp]
  have hinner : (p.join q).inner = p.inner ++ q.inner := by
    rw [inner, hjoin, List.filterMap_append, inner, inner]
    rcases hp' with hp' | hp' <;> rw [hp']
    rw [List.filterMap_append, show [""].filterMap part? = [] from rfl, List.append_nil]
  rw [parts_eq, parts_eq, hinner, anchor_congr htext hp hhead, List.append_assoc]

theorem parts_name {name : String} (hname : (PathPart.normal name).IsInner) :
    parts ⟨name⟩ = [.normal name] := by
  have hofParts : ofParts [.normal name] = ⟨name⟩ := by
    simp [ofParts, PathPart.render]
  rw [← hofParts, parts_ofParts (List.cons_ne_nil _ _) (by simpa using hname)]

theorem parts_join_name (p : Path) {name : String} (hname : (PathPart.normal name).IsInner) :
    (p.join ⟨name⟩).parts = p.parts ++ [.normal name] := by
  have hparts := parts_name hname
  by_cases hp : p.text = ""
  · obtain ⟨text⟩ := p
    obtain rfl : text = "" := hp
    rw [show join ⟨""⟩ ⟨name⟩ = ⟨name⟩ by simp [join], hparts]
    rfl
  · have hinner : (⟨name⟩ : Path).inner = [.normal name] := by
      rw [inner, slices_name hname]
      simp [show part? name = some (.normal name) from hname.1]
    have hrelative : (⟨name⟩ : Path).isAbsolute = false := isAbsolute_slice hname.2
    rw [parts_join hp hrelative, hinner]

/-- Parts that cleaning would push as they are, the last one first. -/
def Settled : List PathPart → Prop
  | [] => True
  | part :: done => cleanStep done part = part :: done ∧ Settled done

theorem settled_cleanStep (h : Settled done) (part : PathPart) : Settled (cleanStep done part) := by
  cases part with
  | root => exact ⟨rfl, h⟩
  | current => exact h
  | normal name => exact ⟨rfl, h⟩
  | parent =>
    cases done with
    | nil => exact ⟨rfl, h⟩
    | cons last done =>
      cases last with
      | normal name => exact h.2
      | root => exact h
      | current => exact ⟨rfl, h⟩
      | parent => exact ⟨rfl, h⟩

theorem settled_foldl (h : Settled done) (ps : List PathPart) :
    Settled (ps.foldl cleanStep done) := by
  induction ps generalizing done with
  | nil => exact h
  | cons part ps ih => exact ih (settled_cleanStep h part)

theorem foldl_reverse_of_settled (h : Settled done) : done.reverse.foldl cleanStep [] = done := by
  induction done with
  | nil => rfl
  | cons part done ih =>
    rw [List.reverse_cons, List.foldl_append, ih h.2]
    exact h.1

theorem cleanParts_cleanParts (ps : List PathPart) :
    cleanParts (cleanParts ps) = cleanParts ps := by
  have hnil : Settled [] := trivial
  rw [cleanParts, cleanParts, foldl_reverse_of_settled (settled_foldl hnil ps)]

theorem foldl_cleanStep_of_plain (h : .parent ∉ ps) (done : List PathPart) :
    ps.foldl cleanStep done = (ps.filter (· ≠ .current)).reverse ++ done := by
  induction ps generalizing done with
  | nil => rfl
  | cons part ps ih =>
    rw [List.mem_cons, not_or] at h
    rw [List.foldl_cons, ih h.2]
    cases part with
    | root => simp [cleanStep]
    | current => simp [cleanStep]
    | parent => exact absurd rfl h.1
    | normal name => simp [cleanStep]

/-- What cleaning starts from: the root cannot be folded away. -/
def bottom (p : Path) : List PathPart := if p.isAbsolute then [.root] else []

theorem foldl_anchor (p : Path) : p.anchor.foldl cleanStep [] = p.bottom := by
  unfold anchor bottom
  split_ifs <;> rfl

theorem cleanParts_anchor_append (p : Path) (ps : List PathPart) :
    cleanParts (p.anchor ++ ps) = (ps.foldl cleanStep p.bottom).reverse := by
  rw [cleanParts, List.foldl_append, foldl_anchor]

theorem cleanParts_parts (p : Path) :
    cleanParts p.parts = (p.inner.foldl cleanStep p.bottom).reverse :=
  p.cleanParts_anchor_append p.inner

/-- A step of cleaning leaves the root where it is, and adds nothing but its part. -/
theorem exists_cleanStep {base : List PathPart} (hbase : base = [] ∨ base = [.root])
    (done : List PathPart) (part : PathPart) :
    ∃ done', cleanStep (done ++ base) part = done' ++ base ∧
      done'.reverse.Sublist (done.reverse ++ [part]) := by
  have hkeep : done.reverse.Sublist (done.reverse ++ [part]) := List.sublist_append_left _ _
  have hpush : (part :: done).reverse.Sublist (done.reverse ++ [part]) := by
    rw [List.reverse_cons]
  cases part with
  | root => exact ⟨_, rfl, hpush⟩
  | current => exact ⟨_, rfl, hkeep⟩
  | normal name => exact ⟨_, rfl, hpush⟩
  | parent =>
    cases done with
    | nil =>
      rcases hbase with rfl | rfl
      · exact ⟨[.parent], rfl, hpush⟩
      · exact ⟨[], rfl, hkeep⟩
    | cons last done =>
      cases last with
      | normal name =>
        refine ⟨done, rfl, ?_⟩
        rw [List.reverse_cons, List.append_assoc]
        exact List.sublist_append_left _ _
      | root => exact ⟨_, rfl, hkeep⟩
      | current => exact ⟨_, rfl, hpush⟩
      | parent => exact ⟨_, rfl, hpush⟩

theorem exists_foldl_cleanStep {base : List PathPart} (hbase : base = [] ∨ base = [.root])
    (done ps : List PathPart) :
    ∃ done', ps.foldl cleanStep (done ++ base) = done' ++ base ∧
      done'.reverse.Sublist (done.reverse ++ ps) := by
  induction ps generalizing done with
  | nil => exact ⟨done, rfl, by rw [List.append_nil]⟩
  | cons part ps ih =>
    obtain ⟨done', hstep, hsub⟩ := exists_cleanStep hbase done part
    obtain ⟨done'', hfold, hsub'⟩ := ih done'
    refine ⟨done'', by rw [List.foldl_cons, hstep, hfold], hsub'.trans ?_⟩
    have happend := hsub.append (List.Sublist.refl ps)
    rwa [List.append_assoc, List.singleton_append] at happend

theorem cleanParts_sublist (ps : List PathPart) : (cleanParts ps).Sublist ps := by
  obtain ⟨done, hfold, hsub⟩ := exists_foldl_cleanStep (.inl rfl) [] ps
  rw [List.append_nil, List.append_nil] at hfold
  rw [cleanParts, hfold]
  exact hsub

theorem bottom_eq (p : Path) : p.bottom = [] ∨ p.bottom = [.root] := by
  unfold bottom
  split_ifs
  · exact .inr rfl
  · exact .inl rfl

theorem reverse_append_bottom (p : Path) (done : List PathPart) :
    (done ++ p.bottom).reverse = p.bottom ++ done.reverse := by
  rcases p.bottom_eq with h | h <;> simp [h]

/-- Cleaning keeps the root and some of the parts behind it. -/
theorem exists_cleanParts (p : Path) :
    ∃ rest, cleanParts p.parts = p.bottom ++ rest ∧ rest.Sublist p.inner := by
  obtain ⟨done, hfold, hsub⟩ := exists_foldl_cleanStep p.bottom_eq [] p.inner
  refine ⟨done.reverse, ?_, hsub⟩
  rw [cleanParts_parts, ← List.nil_append p.bottom, hfold, reverse_append_bottom, List.nil_append]

theorem clean_eq_ofParts (h : cleanParts p.parts ≠ []) :
    p.clean = ofParts (cleanParts p.parts) := by
  unfold clean
  split
  · exact absurd ‹_› h
  · rfl

theorem clean_eq_current (h : cleanParts p.parts = []) : p.clean = ⟨"."⟩ := by
  unfold clean
  rw [h]

theorem parts_clean (h : cleanParts p.parts ≠ []) : p.clean.parts = cleanParts p.parts := by
  obtain ⟨rest, hclean, hsub⟩ := exists_cleanParts p
  have hinner : ∀ part ∈ rest, part.IsInner := isInner_of_sublist hsub
  rw [clean_eq_ofParts h, hclean]
  unfold bottom at hclean ⊢
  split_ifs at hclean ⊢
  · exact parts_ofParts_root hinner
  · exact parts_ofParts (by rwa [← hclean]) hinner

theorem cleanParts_parts_clean (p : Path) : cleanParts p.clean.parts = cleanParts p.parts := by
  by_cases hnil : cleanParts p.parts = []
  · rw [clean_eq_current hnil, hnil]
    decide
  · rw [parts_clean hnil, cleanParts_cleanParts]

theorem clean_clean (p : Path) : p.clean.clean = p.clean := by
  have h := cleanParts_parts_clean p
  rw [clean, h, clean]

theorem text_clean_ne (p : Path) : p.clean.text ≠ "" := by
  intro htext
  have hclean : p.clean = ⟨""⟩ := congrArg Path.mk htext
  have hagain := p.clean_clean
  rw [hclean] at hagain
  exact absurd hagain (by decide)

end Path

end Harvest
