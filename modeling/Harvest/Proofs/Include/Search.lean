import Harvest.Include.Search
import Harvest.Proofs.FileTree
import Harvest.Proofs.Parser.Following
import Harvest.Proofs.Path

/-!
# Files that includes mean

An include is looked for by following paths, but the path that comes out is a cleaned one, and
cleaning folds `..` into names without looking at what they lead to. Behind a link to a directory
`..` leads to the directory that holds the link's target, not to the one that holds the link, so
that the cleaned path may lead to another file or to none. Main statement: it leads to the file that
was found if every name that is folded away leads to a directory that lies where the name was looked
up.
-/

open Harvest.Path

namespace Harvest

namespace Text.Utf8

/-- How many bytes a text has. -/
def size (s : String) : Nat := (encode s.toList).length

theorem size_append (s s' : String) : size (s ++ s') = size s + size s' := by
  simp [size, encode]

theorem size_pos {s : String} (h : s ≠ "") : 0 < size s := by
  cases hs : s.toList with
  | nil => exact absurd (String.toList_eq_nil_iff.1 hs) h
  | cons c cs =>
    rw [size, hs, encode, List.flatMap_cons, List.length_append, String.length_utf8EncodeChar]
    exact Nat.add_pos_left c.utf8Size_pos _

theorem size_intercalate_cons (s : String) (ss : List String) :
    size ("/".intercalate (s :: ss)) =
      size s + if ss = [] then 0 else size ("/".intercalate ss) + 1 := by
  cases ss with
  | nil => simp
  | cons s' ss =>
    rw [String.intercalate_cons_cons, size_append, size_append, if_neg (List.cons_ne_nil s' ss),
      show size "/" = 1 from rfl]
    omega

theorem size_intercalate_le {ss ss' : List String} (h : ss'.Sublist ss) :
    size ("/".intercalate ss') ≤ size ("/".intercalate ss) := by
  induction h with
  | slnil => exact Nat.le_refl _
  | @cons ss' ss s h ih =>
    rw [size_intercalate_cons]
    split_ifs with hnil
    · rw [hnil] at ih
      exact Nat.le_trans ih (Nat.zero_le _)
    · omega
  | @cons_cons ss' ss s h ih =>
    rw [size_intercalate_cons, size_intercalate_cons]
    by_cases hnil : ss = []
    · rw [hnil, List.sublist_nil] at h
      exact Nat.le_of_eq (by rw [h, hnil])
    · rw [if_neg hnil]
      split_ifs <;> omega

end Text.Utf8

namespace FileTree

variable {t : FileTree} {p : Path} {here there : Location} {n k m : Nat} {ps : List PathPart}

theorem size_clean_le (h : p.text ≠ "") :
    Text.Utf8.size p.clean.text ≤ Text.Utf8.size p.text := by
  obtain ⟨rest, hclean, hsub⟩ := exists_cleanParts p
  have hinner : ∀ part ∈ rest, part.IsInner := isInner_of_sublist hsub
  have hrender : (rest.map PathPart.render).Sublist (p.slices.filter fun s ↦ (part? s).isSome) :=
    map_render_inner p ▸ hsub.map _
  by_cases hrest : rest = []
  · -- What is left is `/` or `.`, and no path is shorter.
    have hone : Text.Utf8.size p.clean.text = 1 := by
      rw [hrest, List.append_nil] at hclean
      rcases p.bottom_eq with hbottom | hbottom <;> rw [hbottom] at hclean
      · rw [clean_eq_current hclean]
        decide
      · rw [clean_eq_ofParts (by simp [hclean]), hclean]
        decide
    rw [hone]
    exact Text.Utf8.size_pos h
  · rw [clean_eq_ofParts (by simp [hclean, hrest]), hclean, ← intercalate_slices (ofParts _),
      ← intercalate_slices p]
    apply Text.Utf8.size_intercalate_le
    unfold bottom
    split_ifs with habsolute
    · obtain ⟨ss, hss⟩ := List.head?_eq_some_iff.1 (isAbsolute_iff.1 habsolute).1
      rw [List.singleton_append, slices_ofParts_root hinner, if_neg hrest, hss]
      rw [hss, List.filter_cons_of_neg (by decide)] at hrender
      exact (hrender.trans List.filter_sublist).cons_cons ""
    · rw [List.nil_append, slices_ofParts hrest hinner]
      exact hrender.trans List.filter_sublist

/-- Where the steps of a path lead, however long its text is. -/
def arrive (t : FileTree) (p : Path) : Except ReadError Location :=
  t.follow maxLinks true (start t.home p) (steps p)

theorem resolve_eq_ok_iff :
    t.resolve p = .ok there ↔ refusal? p = none ∧ t.arrive p = .ok there := by
  unfold resolve
  cases refusal? p with
  | none => simp [arrive]
  | some e => simp

/-- The steps of a path whose parts are those of `p` up to some place, or what is left of them. -/
theorem arrive_ofParts (hps : ∀ part ∈ ps, part.IsInner) (hn : n ≤ maxLinks)
    (hdirectory : t.IsDirectory (start t.home p))
    (h : t.Leads (start t.home p) (ps.map PathPart.render) n there) :
    t.arrive (ofParts (p.bottom ++ ps)) = .ok there := by
  unfold bottom
  cases habsolute : p.isAbsolute with
  | true =>
    have hstart : start t.home p = [] := by rw [start, if_pos habsolute]
    rw [hstart] at h hdirectory
    rw [if_pos rfl, List.singleton_append, arrive, start, if_pos (isAbsolute_ofParts_root ps),
      steps, slices_ofParts_root hps]
    split_ifs with hnil
    · subst hnil
      exact (h.stay hdirectory (.inl rfl)).stay hdirectory (.inl rfl) |>.follow hn
    · exact (h.stay hdirectory (.inl rfl)).follow hn
  | false =>
    have hstart : start t.home p = t.home := by rw [start, habsolute, if_neg Bool.false_ne_true]
    rw [hstart] at h hdirectory
    rw [if_neg Bool.false_ne_true, List.nil_append, arrive, start, isAbsolute_ofParts hps,
      if_neg Bool.false_ne_true]
    by_cases hnil : ps = []
    · subst hnil
      exact (h.stay hdirectory (.inl rfl)).follow hn
    · rw [steps, slices_ofParts hnil hps]
      exact h.follow hn

/-- Wherever `..` is folded into a name that leads to a directory, this directory lies where the
name was looked up. -/
def Retraces (t : FileTree) (p : Path) : Prop :=
  ∀ before after rest name, p.parts = before ++ .parent :: after →
    cleanParts before = rest ++ [.normal name] →
    ∀ here there, t.arrive (ofParts rest) = .ok here →
      t.follow maxLinks true here [name] = .ok there → t.IsDirectory there → there.dropLast = here

/-- What is left of the parts so far leads to where they lead, and a step of cleaning keeps it so:
a part is added to the way, or the last one is taken back. -/
theorem exists_leads_cleanStep (hretraces : t.Retraces p)
    (hdirectory : t.IsDirectory (start t.home p)) {before after done : List PathPart}
    {part : PathPart} (hinner : p.inner = before ++ part :: after)
    (hdone : before.foldl cleanStep p.bottom = done ++ p.bottom)
    (hwell : ∀ part ∈ done, part.IsInner) (hlinks : k + m ≤ maxLinks)
    (hleads : t.Leads (start t.home p) (done.reverse.map PathPart.render) k here)
    (hstep : t.Leads here [part.render] m there) :
    ∃ done' k', cleanStep (done ++ p.bottom) part = done' ++ p.bottom ∧
      (∀ part ∈ done', part.IsInner) ∧ k' ≤ k + m ∧
      t.Leads (start t.home p) (done'.reverse.map PathPart.render) k' there := by
  have hpart : part.IsInner :=
    isInner_of_mem_inner (hinner ▸ List.mem_append_right before List.mem_cons_self)
  have hpush :
      t.Leads (start t.home p) ((part :: done).reverse.map PathPart.render) (k + m) there := by
    rw [List.reverse_cons, List.map_append]
    exact hleads.append hstep
  have hwell' : ∀ q ∈ part :: done, q.IsInner := List.forall_mem_cons.2 ⟨hpart, hwell⟩
  cases part with
  | root => exact absurd hpart (by decide)
  | current => exact absurd hpart (by decide)
  | normal name => exact ⟨_, k + m, rfl, hwell', Nat.le_refl _, hpush⟩
  | parent =>
    cases hstep with
    | stay _ hblank => exact absurd hblank (by decide)
    | enter _ hname => exact absurd hname (by decide)
    | jump _ hname => exact absurd hname (by decide)
    | up hhere hrest =>
      cases hrest
      cases done with
      | nil =>
        rcases p.bottom_eq with hbottom | hbottom
        · exact ⟨[.parent], k + 0, by rw [hbottom]; rfl, hwell', Nat.le_refl _, hpush⟩
        · -- The root holds itself.
          have hroot : start t.home p = [] := by
            unfold bottom at hbottom
            split_ifs at hbottom with habsolute
            rw [start, if_pos habsolute]
          refine ⟨[], k, by rw [hbottom]; rfl, fun _ h ↦ absurd h List.not_mem_nil, Nat.le_refl _,
            ?_⟩
          rw [hroot] at hleads ⊢
          cases hleads
          exact .arrived []
      | cons last done =>
        rw [List.forall_mem_cons] at hwell
        cases last with
        | root => exact absurd hwell.1 (by decide)
        | current => exact absurd hwell.1 (by decide)
        | parent => exact ⟨_, k + 0, rfl, hwell', Nat.le_refl _, hpush⟩
        | normal name =>
          rw [List.reverse_cons, List.map_append] at hleads
          obtain ⟨prev, k', k'', hprev, hname, rfl⟩ := hleads.exists_of_append
          have hrest : ∀ part ∈ done.reverse, part.IsInner := by simpa using hwell.2
          have hclean :
              cleanParts (p.anchor ++ before) = (p.bottom ++ done.reverse) ++ [.normal name] := by
            rw [cleanParts_anchor_append, hdone, reverse_append_bottom, List.reverse_cons,
              List.append_assoc]
          have hdropLast : here.dropLast = prev :=
            hretraces (p.anchor ++ before) after _ name
              (by rw [parts_eq, hinner, List.append_assoc]) hclean prev here
              (arrive_ofParts hrest (by omega) hdirectory hprev) (hname.follow (by omega)) hhere
          exact ⟨done, k', rfl, hwell.2, by omega, hdropLast ▸ hprev⟩

theorem exists_leads_foldl (hretraces : t.Retraces p)
    (hdirectory : t.IsDirectory (start t.home p)) {before done : List PathPart}
    (hinner : p.inner = before ++ ps)
    (hdone : before.foldl cleanStep p.bottom = done ++ p.bottom)
    (hwell : ∀ part ∈ done, part.IsInner) (hlinks : k + m ≤ maxLinks)
    (hleads : t.Leads (start t.home p) (done.reverse.map PathPart.render) k here)
    (hrest : t.Leads here (ps.map PathPart.render) m there) :
    ∃ done' k', p.inner.foldl cleanStep p.bottom = done' ++ p.bottom ∧
      (∀ part ∈ done', part.IsInner) ∧ k' ≤ k + m ∧
      t.Leads (start t.home p) (done'.reverse.map PathPart.render) k' there := by
  induction ps generalizing before done k m here with
  | nil =>
    rw [List.append_nil] at hinner
    cases hrest
    exact ⟨done, k, hinner ▸ hdone, hwell, Nat.le_refl k, hleads⟩
  | cons part ps ih =>
    rw [List.map_cons, ← List.singleton_append] at hrest
    obtain ⟨mid, m', m'', hstep, hrest', rfl⟩ := hrest.exists_of_append
    obtain ⟨done', k', hclean, hwell', hk', hleads'⟩ :=
      exists_leads_cleanStep hretraces hdirectory hinner hdone hwell (by omega) hleads hstep
    have hfold : (before ++ [part]).foldl cleanStep p.bottom = done' ++ p.bottom := by
      rw [List.foldl_append, hdone]
      exact hclean
    obtain ⟨done'', k'', hall, hwell'', hk'', hleads''⟩ :=
      ih (by rw [hinner, List.append_assoc, List.singleton_append]) hfold hwell' (by omega) hleads'
        hrest'
    exact ⟨done'', k'', hall, hwell'', by omega, hleads''⟩

theorem isSome_part?_eq (s : String) : (part? s).isSome = decide ¬IsBlank s := by
  unfold part? IsBlank
  split_ifs <;> simp_all

theorem arrive_clean (hretraces : t.Retraces p) (h : t.arrive p = .ok there) :
    t.arrive p.clean = .ok there := by
  obtain ⟨n, hn, hleads⟩ := follow_eq_ok_iff.1 h
  have hdirectory : t.IsDirectory (start t.home p) := by
    obtain ⟨s, ss, hslices⟩ := List.exists_cons_of_ne_nil p.slices_ne_nil
    rw [steps, hslices] at hleads
    exact hleads.isDirectory
  have hnames : t.Leads (start t.home p) (p.inner.map PathPart.render) n there := by
    rw [map_render_inner]
    simp only [isSome_part?_eq]
    exact hleads.filter_blank
  obtain ⟨done, k, hfold, hwell, hk, hdone⟩ :=
    exists_leads_foldl hretraces hdirectory (List.nil_append p.inner).symm rfl
      (fun _ h ↦ absurd h List.not_mem_nil) (by omega) (.arrived _) hnames
  have hclean : cleanParts p.parts = p.bottom ++ done.reverse := by
    rw [cleanParts_parts, hfold, reverse_append_bottom]
  have hinner : ∀ part ∈ done.reverse, part.IsInner := by simpa using hwell
  have harrive := arrive_ofParts hinner (by omega) hdirectory hdone
  by_cases hnil : cleanParts p.parts = []
  · -- Nothing is left, and `.` stays where the empty path stays.
    rw [← hclean, hnil] at harrive
    have hempty : t.follow maxLinks true t.home [""] = .ok there := harrive
    have hhome := (of_follow_cons hempty).1
    rw [follow_blank hhome (.inl rfl)] at hempty
    rw [clean_eq_current hnil, ← hempty]
    exact follow_blank hhome (.inr rfl)
  · rw [clean_eq_ofParts hnil, hclean, harrive]

theorem refusal?_eq_none_iff :
    refusal? p = none ↔ p.text ≠ "" ∧ Text.Utf8.size p.text ≤ maxLength := by
  unfold refusal? Text.Utf8.size
  split_ifs with hempty hlong
  · simp [hempty]
  · simp [hempty, hlong]
  · simp [hempty, Nat.le_of_not_lt hlong]

/-- Where every `..` undoes a step, the cleaned path leads to where the path leads. -/
theorem resolve_clean (hretraces : t.Retraces p) (h : t.resolve p = .ok there) :
    t.resolve p.clean = .ok there := by
  obtain ⟨hrefusal, harrive⟩ := resolve_eq_ok_iff.1 h
  obtain ⟨htext, hlength⟩ := refusal?_eq_none_iff.1 hrefusal
  have hclean : refusal? p.clean = none :=
    refusal?_eq_none_iff.2 ⟨p.text_clean_ne, Nat.le_trans (size_clean_le htext) hlength⟩
  exact resolve_eq_ok_iff.2 ⟨hclean, arrive_clean hretraces harrive⟩

/-- No link leads to a directory. -/
def LinksToFiles (t : FileTree) : Prop :=
  ∀ location target, t.entry? location = some (.link target) →
    ∀ there,
      t.follow maxLinks true (start location.dropLast ⟨target⟩) (steps ⟨target⟩) = .ok there →
        ¬t.IsDirectory there

theorem retraces_of_linksToFiles (h : t.LinksToFiles) (p : Path) : t.Retraces p := by
  intro before after rest name hparts hclean here there _ hfollow hdirectory
  have hmem : .normal name ∈ p.parts := by
    rw [hparts]
    apply List.mem_append_left
    apply (cleanParts_sublist before).subset
    rw [hclean]
    exact List.mem_append_right rest (List.mem_singleton_self _)
  have hname : IsName name := by
    have hinner := isInner_of_mem_inner (mem_inner_of_normal hmem)
    exact ⟨fun hblank ↦ hblank.elim (render_ne_of_isInner hinner).1 (render_ne_of_isInner hinner).2,
      fun heq ↦ by rw [heq] at hinner; exact absurd hinner (by decide)⟩
  obtain ⟨n, hn, hleads⟩ := exists_leads_of_follow hfollow
  cases hleads with
  | stay _ hblank => exact absurd hblank hname.1
  | up => exact absurd rfl hname.2
  | enter _ _ _ _ hrest =>
    cases hrest
    exact List.dropLast_concat
  | jump _ _ hentry _ hrest =>
    rw [List.append_nil] at hrest
    refine absurd hdirectory (h _ _ hentry there ?_)
    rw [List.dropLast_concat]
    exact hrest.follow (Nat.le_of_succ_le hn)

theorem exists_entry_of_isFile (h : t.isFile p = true) :
    ∃ location entry, t.resolve p = .ok location ∧ t.entry? location = some entry ∧
      entry.isFile = true := by
  obtain ⟨entry, hget, hentry⟩ := (Option.any_eq_true _ _).1 h
  obtain ⟨location, hresolve, hlookup⟩ := Option.bind_eq_some_iff.1 hget
  cases hok : t.resolve p with
  | error e => simp [resolve?, hok, Except.toOption] at hresolve
  | ok there =>
    obtain rfl : there = location := by simpa [resolve?, hok, Except.toOption] using hresolve
    exact ⟨there, entry, rfl, hlookup, hentry⟩

theorem isFile_congr {q : Path} (h : t.resolve p = t.resolve q) : t.isFile p = t.isFile q := by
  rw [isFile, get?, resolve?, h]
  rfl

theorem readText_congr {q : Path} (h : t.resolve p = t.resolve q) :
    t.readText p = t.readText q := by
  rw [readText, read, h]
  rfl

/-- A file is read, or it is locked. -/
theorem readText_of_isFile (h : t.isFile p = true) :
    t.readText p = .error .denied ∨ ∃ text, t.readText p = .ok text := by
  obtain ⟨location, entry, hresolve, hlookup, hentry⟩ := exists_entry_of_isFile h
  have hread : t.read p = .error .denied ∨ ∃ bytes, t.read p = .ok bytes := by
    cases entry with
    | file bytes => exact .inr ⟨bytes, by simp [read, hresolve, hlookup, bind, Except.bind]⟩
    | locked => exact .inl (by simp [read, hresolve, hlookup, bind, Except.bind])
    | directory => cases hentry
    | link target => cases hentry
  rcases hread with hread | ⟨bytes, hread⟩
  · exact .inl (by rw [readText, hread]; rfl)
  · exact .inr ⟨_, by rw [readText, hread]; rfl⟩

end FileTree

namespace Parser

/-- The reports of included files that cannot be read. -/
def unreadable (p : Parser) : List Diagnostic :=
  p.session.diagnostics.toList.filter fun d ↦ d.kind = .unreadableInclude

/-- The include of a file that can be read is not reported. Only what is read within the file adds
reports. -/
theorem unreadable_followInclude (parse : Parser → Parser) {found : Path} {p : Parser}
    {text : String} (htext : p.files.readText found.clean = .ok text) :
    (followInclude parse found p).unreadable = p.unreadable ∨
      ∃ child : Parser, child.file = found.clean ∧ child.unreadable = p.unreadable ∧
        (followInclude parse found p).unreadable = (parse child).unreadable := by
  rw [followInclude_eq]
  have htakes := p.takes_way found.clean
  generalize p.way found.clean = way at htakes
  cases htakes with
  | skip => exact .inl rfl
  | cycle => exact .inl rfl
  | known => exact .inl rfl
  | unreadable _ herror =>
    rw [htext] at herror
    cases herror
  | @alone source =>
    exact .inr ⟨aloneAt p.options p.files found.clean source (p.stack ++ [found.clean]) p.session,
      rfl, rfl, rfl⟩
  | @inPlace source => exact .inr ⟨p.inPlaceAt found.clean source, rfl, rfl, rfl⟩

end Parser

/-- What an include finds is the first of its candidates that is a file, under its cleaned path.
Where every `..` in the candidate undoes a step, as it does if no link leads to a directory, that
path leads to the same file and reads as it does; and if the file may be read, its include is not
reported as unreadable. -/
theorem resolveInclude_leads_to_file {t : FileTree} {from_ : Path} {written : String}
    {quoted : Bool} {includePaths : List Path} {found : Path}
    (h : resolveInclude t from_ written quoted includePaths = some found) :
    ∃ earlier candidate later,
      includeCandidates from_ written quoted includePaths = earlier ++ candidate :: later ∧
      (∀ p ∈ earlier, t.isFile p = false) ∧ t.isFile candidate = true ∧ found = candidate.clean ∧
      (t.readText candidate = .error .denied ∨ ∃ text, t.readText candidate = .ok text) ∧
      (t.LinksToFiles → t.Retraces candidate) ∧
      (t.Retraces candidate →
        t.resolve? found = t.resolve? candidate ∧ t.isFile found = true ∧
        t.readText found = t.readText candidate ∧
        ∀ text, t.readText candidate = .ok text →
          ∀ (p : Parser) (parse : Parser → Parser), p.files = t →
            (Parser.followInclude parse found p).unreadable = p.unreadable ∨
              ∃ child : Parser, child.file = found ∧ child.unreadable = p.unreadable ∧
                (Parser.followInclude parse found p).unreadable = (parse child).unreadable) := by
  obtain ⟨candidate, hfind, rfl⟩ := Option.map_eq_some_iff.1 h
  obtain ⟨hfile, earlier, later, hcandidates, hearlier⟩ := List.find?_eq_some_iff_append.1 hfind
  refine ⟨earlier, candidate, later, hcandidates, by simpa using hearlier, hfile, rfl,
    FileTree.readText_of_isFile hfile,
    fun hlinks ↦ FileTree.retraces_of_linksToFiles hlinks candidate, fun hretraces ↦ ?_⟩
  obtain ⟨location, -, hresolve, -⟩ := FileTree.exists_entry_of_isFile hfile
  have hsame : t.resolve candidate.clean = t.resolve candidate :=
    (FileTree.resolve_clean hretraces hresolve).trans hresolve.symm
  have hreads : t.readText candidate.clean = t.readText candidate := FileTree.readText_congr hsame
  refine ⟨congrArg Except.toOption hsame, (FileTree.isFile_congr hsame).trans hfile, hreads,
    fun text htext p parse hfiles ↦ ?_⟩
  have hread : p.files.readText candidate.clean.clean = .ok text := by
    rw [candidate.clean_clean, hfiles, hreads, htext]
  have hreports := Parser.unreadable_followInclude parse hread
  rwa [candidate.clean_clean] at hreports

/-- A header in `x`, with two links to a directory in `x`: one lies in `x`, too. -/
def linkedFiles : FileTree where
  entries :=
    [(["x"], .directory), (["x", "y"], .directory), (["x", "b.h"], .file ⟨#[]⟩),
      (["x", "z"], .link "y"), (["a"], .link "x/y")]

theorem retraces_linkedFiles : linkedFiles.Retraces ⟨"x/z/../b.h"⟩ := by
  intro before after rest name hparts hclean here there harrive hfollow _
  have hbefore : before = [.normal "x", .normal "z"] := by
    rw [show Path.parts ⟨"x/z/../b.h"⟩ = [.normal "x", .normal "z", .parent, .normal "b.h"] by
      decide] at hparts
    rcases before with _ | ⟨_, _ | ⟨_, _ | ⟨_, _ | ⟨_, before⟩⟩⟩⟩ <;> simp_all
  obtain ⟨rfl, hname⟩ : rest = [.normal "x"] ∧ [PathPart.normal name] = [.normal "z"] := by
    rw [hbefore] at hclean
    exact List.append_inj' hclean.symm rfl
  obtain rfl : name = "z" := by simpa using hname
  have hx : linkedFiles.arrive (ofParts [.normal "x"]) = .ok ["x"] := by decide +kernel
  obtain rfl : ["x"] = here := Except.ok.inj (hx.symm.trans harrive)
  have hz : linkedFiles.follow FileTree.maxLinks true ["x"] ["z"] = .ok ["x", "y"] := by
    decide +kernel
  obtain rfl : ["x", "y"] = there := Except.ok.inj (hz.symm.trans hfollow)
  rfl

theorem resolveInclude_leads_to_file_beside :
    resolveInclude linkedFiles ⟨"main.cpp"⟩ "x/z/../b.h" true [] = some ⟨"x/b.h"⟩ ∧
      linkedFiles.Retraces ⟨"x/z/../b.h"⟩ ∧
      linkedFiles.resolve? ⟨"x/b.h"⟩ = linkedFiles.resolve? ⟨"x/z/../b.h"⟩ := by
  have hfound : resolveInclude linkedFiles ⟨"main.cpp"⟩ "x/z/../b.h" true [] = some ⟨"x/b.h"⟩ := by
    decide +kernel
  obtain ⟨earlier, candidate, later, hcandidates, -, -, -, -, -, hleads⟩ :=
    resolveInclude_leads_to_file hfound
  obtain rfl : candidate = ⟨"x/z/../b.h"⟩ := by
    have hmem : candidate ∈ includeCandidates ⟨"main.cpp"⟩ "x/z/../b.h" true [] :=
      hcandidates ▸ List.mem_append_right earlier List.mem_cons_self
    have hone : includeCandidates ⟨"main.cpp"⟩ "x/z/../b.h" true [] = [⟨"x/z/../b.h"⟩] := by decide
    exact List.mem_singleton.1 (hone ▸ hmem)
  exact ⟨hfound, retraces_linkedFiles, (hleads retraces_linkedFiles).1⟩

/-- The same with another header at the top. -/
def shadowingFiles : FileTree where
  entries := (["b.h"], .file ⟨#[]⟩) :: linkedFiles.entries

/-- The header is found behind the other link, but its cleaned path leads nowhere, and the include
is reported as unreadable; or it leads to the other header. -/
theorem resolveInclude_behind_link :
    linkedFiles.resolve ⟨"a/../b.h"⟩ = .ok ["x", "b.h"] ∧
      resolveInclude linkedFiles ⟨"main.cpp"⟩ "a/../b.h" true [] = some ⟨"b.h"⟩ ∧
      linkedFiles.resolve ⟨"b.h"⟩ = .error .missing ∧
      (Parser.followInclude id ⟨"b.h"⟩ (Parser.start {} linkedFiles ⟨"main.cpp"⟩ "" false
        [⟨"main.cpp"⟩] 0 #[] {})).unreadable.map Diagnostic.message =
        ["Cannot open b.h: No such file or directory (os error 2)"] ∧
      shadowingFiles.resolve ⟨"a/../b.h"⟩ = .ok ["x", "b.h"] ∧
      resolveInclude shadowingFiles ⟨"main.cpp"⟩ "a/../b.h" true [] = some ⟨"b.h"⟩ ∧
      shadowingFiles.resolve ⟨"b.h"⟩ = .ok ["b.h"] := by
  decide +kernel

end Harvest
