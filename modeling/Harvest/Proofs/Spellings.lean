import Harvest.Config
import Harvest.Proofs.Text.Pieces
import Mathlib.Data.List.Forall2

/-!
# Spellings of the calls

A specification changes the spellings of some functions, item by item, and what look-ups see is an
index that is made anew once all of its items are applied. Each item changes one function. So the
spellings of a function can be told from the items for it alone, and a spelling that several
functions lay claim to goes to the last of them in the fixed order of the functions, whatever the
order of the items was. Main statement: what look-ups find once specifications are applied, and how
their items may be rearranged.
-/

namespace Harvest

theorem Call.ofDefaultName?_eq_some_iff {name : String} {call : Call} :
    ofDefaultName? name = some call ↔ name = call.defaultName := by
  constructor
  · intro h
    have hname := List.find?_some h
    exact (of_decide_eq_true hname).symm
  · rintro rfl
    cases call <;> decide

namespace SpellingItem

/-- How an item is written: the name of a function, a plus sign if the spelling is one more, an
equals sign and the spelling. Blanks may stand around the name and around the spelling. -/
inductive Written : List Char → SpellingItem → Prop
  | replace {name spelling : List Char} {call : Call} (hname : '=' ∉ name)
      (hplus : name.getLast? ≠ some '+') (hcall : String.ofList (Text.trim name) = call.defaultName)
      (hspelling : Text.trim spelling ≠ []) :
      Written (name ++ '=' :: spelling) ⟨call, String.ofList (Text.trim spelling), false⟩
  | add {name spelling : List Char} {call : Call} (hname : '=' ∉ name)
      (hcall : String.ofList (Text.trim name) = call.defaultName)
      (hspelling : Text.trim spelling ≠ []) :
      Written (name ++ ['+'] ++ '=' :: spelling) ⟨call, String.ofList (Text.trim spelling), true⟩

/-- An item is read once its equals sign is found. -/
theorem parse_append {head spelling : List Char} (hhead : '=' ∉ head) {item : SpellingItem} :
    parse (head ++ '=' :: spelling) = .ok item ↔
      String.ofList (Text.trim (if head.getLast? = some '+' then head.dropLast else head)) =
          item.call.defaultName ∧
        Text.trim spelling ≠ [] ∧
        item = ⟨item.call, String.ofList (Text.trim spelling), head.getLast? = some '+'⟩ := by
  rw [parse, Text.splitFirst_eq_some_iff.2 ⟨rfl, hhead⟩, ← Call.ofDefaultName?_eq_some_iff]
  have hempty : String.ofList (Text.trim spelling) = "" ↔ Text.trim spelling = [] := by
    rw [← String.toList_inj, String.toList_ofList]
    rfl
  simp only
  cases Call.ofDefaultName? (String.ofList
    (Text.trim (if head.getLast? = some '+' then head.dropLast else head))) with
  | none => simp
  | some call =>
    by_cases hspelling : Text.trim spelling = []
    · simp [hspelling]
    · simp only [if_neg (mt hempty.1 hspelling), Except.ok.injEq, Option.some.injEq]
      constructor
      · rintro rfl
        exact ⟨rfl, hspelling, rfl⟩
      · rintro ⟨rfl, -, hitem⟩
        exact hitem.symm

theorem parse_eq_ok_iff {text : List Char} {item : SpellingItem} :
    parse text = .ok item ↔ Written text item := by
  constructor
  · intro h
    cases hsplit : Text.splitFirst '=' text with
    | none => simp [parse, hsplit] at h
    | some split =>
      obtain ⟨head, spelling⟩ := split
      obtain ⟨rfl, hhead⟩ := Text.splitFirst_eq_some_iff.1 hsplit
      obtain ⟨hcall, hspelling, hitem⟩ := (parse_append hhead).1 h
      rw [hitem]
      by_cases hplus : head.getLast? = some '+'
      · obtain ⟨name, rfl⟩ := List.getLast?_eq_some_iff.1 hplus
        rw [if_pos hplus, List.dropLast_concat] at hcall
        rw [decide_eq_true hplus]
        exact .add (fun h ↦ hhead (List.mem_append_left _ h)) hcall hspelling
      · rw [if_neg hplus] at hcall
        rw [decide_eq_false hplus]
        exact .replace hhead hplus hcall hspelling
  · intro h
    cases h with
    | replace hname hplus hcall hspelling =>
      exact (parse_append hname).2 ⟨by rwa [if_neg hplus], hspelling, by simp [hplus]⟩
    | add hname hcall hspelling =>
      exact (parse_append (by simpa using hname)).2
        ⟨by simpa using hcall, hspelling, by simp⟩

theorem forall₂_written_iff {texts : List (List Char)} {items : List SpellingItem} :
    List.Forall₂ Written texts items ↔ texts.map parse = items.map .ok := by
  simp only [← List.forall₂_eq_eq_eq, List.forall₂_map_left_iff, List.forall₂_map_right_iff,
    parse_eq_ok_iff]

end SpellingItem

namespace SpellingItem

/-- What an item does to the spellings of its function. -/
def change (names : List String) (item : SpellingItem) : List String :=
  if item.add then names ++ [item.spelling] else [item.spelling]

end SpellingItem

namespace Spellings

/-- The spellings of a function after some items, of which only those for the function count. -/
def after (items : List SpellingItem) : Spellings := fun call ↦
  (items.filter fun item ↦ item.call = call).foldl SpellingItem.change [call.defaultName]

theorem apply_eq (s : Spellings) (item : SpellingItem) (call : Call) :
    s.apply item call = if item.call = call then item.change (s call) else s call := by
  rw [apply]
  by_cases hcall : item.call = call
  · rw [if_pos hcall.symm, if_pos hcall, SpellingItem.change]
    split_ifs <;> rfl
  · rw [if_neg (Ne.symm hcall), if_neg hcall]

theorem foldl_apply (s : Spellings) (items : List SpellingItem) (call : Call) :
    items.foldl apply s call =
      (items.filter fun item ↦ item.call = call).foldl SpellingItem.change (s call) := by
  induction items generalizing s with
  | nil => rfl
  | cons item items ih =>
    rw [List.foldl_cons, ih, apply_eq]
    by_cases hcall : item.call = call
    · rw [List.filter_cons_of_pos (by simpa using hcall), if_pos hcall, List.foldl_cons]
    · rw [List.filter_cons_of_neg (by simpa using hcall), if_neg hcall]

theorem foldl_apply_default (items : List SpellingItem) : items.foldl apply default = after items :=
  funext fun call ↦ foldl_apply default items call

/-- The function is the last one with the spelling. -/
def IsLast (s : Spellings) (name : String) (call : Call) : Prop :=
  ∃ earlier later, Call.all = earlier ++ call :: later ∧ name ∈ s call ∧ ∀ c ∈ later, name ∉ s c

theorem foldl_insert (names : List String) (call : Call) (index : CallIndex) (name : String) :
    names.foldl (fun index name ↦ index.insert name call) index name =
      if name ∈ names then some call else index name := by
  induction names generalizing index with
  | nil => rfl
  | cons n names ih =>
    rw [List.foldl_cons, ih, CallIndex.insert]
    by_cases hname : name = n <;> simp [hname]

/-- An index of functions finds the last one that has a spelling. -/
theorem foldl_index (s : Spellings) (calls : List Call) (index : CallIndex) (name : String) :
    calls.foldl (fun index call ↦ (s call).foldl (fun index name ↦ index.insert name call) index)
        index name =
      (calls.reverse.find? fun call ↦ name ∈ s call).or (index name) := by
  induction calls generalizing index with
  | nil => rfl
  | cons call calls ih =>
    rw [List.foldl_cons, ih, foldl_insert, List.reverse_cons, List.find?_append, Option.or_assoc]
    by_cases hname : name ∈ s call <;> simp [hname]

theorem index_eq (s : Spellings) (name : String) :
    s.index name = Call.all.reverse.find? fun call ↦ name ∈ s call := by
  rw [index, foldl_index, Option.or_none]

theorem index_eq_some_iff {s : Spellings} {name : String} {call : Call} :
    s.index name = some call ↔ s.IsLast name call := by
  rw [index_eq, List.find?_eq_some_iff_append]
  constructor
  · rintro ⟨hname, later, earlier, hall, hlater⟩
    refine ⟨earlier.reverse, later.reverse, ?_, of_decide_eq_true hname, fun c hc ↦ ?_⟩
    · rw [← List.reverse_reverse Call.all, hall]
      simp
    · simpa using hlater c (List.mem_reverse.1 hc)
  · rintro ⟨earlier, later, hall, hname, hlater⟩
    refine ⟨decide_eq_true hname, later.reverse, earlier.reverse, ?_, fun c hc ↦ ?_⟩
    · rw [hall]
      simp
    · simpa using hlater c (List.mem_reverse.1 hc)

theorem index_eq_none_iff {s : Spellings} {name : String} :
    s.index name = none ↔ ∀ call, name ∉ s call := by
  rw [index_eq, List.find?_eq_none]
  simp [Call.mem_all]

end Spellings

namespace CallTable

variable {t : CallTable} {s s' : Spellings} {texts : List (List Char)} {items : List SpellingItem}

theorem applyItems_eq_iff :
    applyItems s texts = (s', none) ↔
      ∃ items, List.Forall₂ SpellingItem.Written texts items ∧
        items.foldl Spellings.apply s = s' := by
  induction texts generalizing s with
  | nil => simp [applyItems]
  | cons text texts ih =>
    rw [applyItems]
    cases hparse : SpellingItem.parse text with
    | error e =>
      refine ⟨nofun, ?_⟩
      rintro ⟨_, _ | ⟨hitem, -⟩, -⟩
      rw [SpellingItem.parse_eq_ok_iff.2 hitem] at hparse
      cases hparse
    | ok item =>
      rw [ih]
      constructor
      · rintro ⟨items, hitems, hs⟩
        exact ⟨item :: items, .cons (SpellingItem.parse_eq_ok_iff.1 hparse) hitems, hs⟩
      · rintro ⟨_, _ | ⟨hitem, hitems⟩, hs⟩
        rw [SpellingItem.parse_eq_ok_iff.2 hitem] at hparse
        obtain rfl := Except.ok.inj hparse
        exact ⟨_, hitems, hs⟩

theorem applyItems_append (s : Spellings) (texts more : List (List Char)) :
    applyItems s (texts ++ more) =
      match applyItems s texts with
      | (s, none) => applyItems s more
      | failed => failed := by
  fun_induction applyItems s texts with
  | case1 s => rfl
  | case2 s item items e hparse => rw [List.cons_append, applyItems, hparse]
  | case3 s item items item' hparse ih => rw [List.cons_append, applyItems, hparse]; exact ih

/-- The index is that of the spellings. -/
def InStep (t : CallTable) : Prop := t.index = t.spellings.index

/-- Specifications in a row act like one with all of their items. -/
theorem applyAll_eq (h : t.InStep) (specs : List String) :
    t.applyAll specs =
      match applyItems t.spellings (specs.flatMap itemsOf) with
      | (s, none) => .ok ⟨s, s.index⟩
      | (_, some e) => .error e := by
  induction specs generalizing t with
  | nil =>
    obtain ⟨s, index⟩ := t
    obtain rfl : index = s.index := h
    rfl
  | cons spec specs ih =>
    rw [applyAll, apply, List.flatMap_cons, applyItems_append]
    rcases applyItems t.spellings (itemsOf spec) with ⟨s, _ | e⟩
    · exact ih rfl
    · rfl

theorem applyAll_eq_ok_iff {specs : List String} {t' : CallTable} (h : t.InStep) :
    t.applyAll specs = .ok t' ↔
      ∃ items, List.Forall₂ SpellingItem.Written (specs.flatMap itemsOf) items ∧
        t' = ⟨items.foldl Spellings.apply t.spellings,
          (items.foldl Spellings.apply t.spellings).index⟩ := by
  rw [applyAll_eq h]
  constructor
  · intro hok
    split at hok
    · next happly =>
      obtain rfl := Except.ok.inj hok
      obtain ⟨items, hitems, rfl⟩ := applyItems_eq_iff.1 happly
      exact ⟨items, hitems, rfl⟩
    · cases hok
  · rintro ⟨items, hitems, rfl⟩
    rw [applyItems_eq_iff.2 ⟨items, hitems, rfl⟩]

theorem inStep_default : ({} : CallTable).InStep := rfl

theorem applyAll_default_eq_ok_iff {specs : List String} {t' : CallTable} :
    ({} : CallTable).applyAll specs = .ok t' ↔
      ∃ items, List.Forall₂ SpellingItem.Written (specs.flatMap itemsOf) items ∧
        t' = ⟨Spellings.after items, (Spellings.after items).index⟩ := by
  rw [applyAll_eq_ok_iff inStep_default]
  simp only [Spellings.foldl_apply_default]

theorem itemsOf_append (spec more : String) :
    itemsOf (spec ++ "," ++ more) = itemsOf spec ++ itemsOf more := by
  have hchars : (spec ++ "," ++ more).toList = spec.toList ++ ',' :: more.toList := by
    rw [String.toList_append, String.toList_append, List.append_assoc]
    rfl
  rw [itemsOf, hchars, Text.pieces_append (by decide), List.filter_append]
  rfl

/-- The items of specifications that are joined with commas are those of all of them. -/
theorem itemsOf_intercalate (specs : List String) :
    itemsOf (",".intercalate specs) = specs.flatMap itemsOf := by
  induction specs with
  | nil => rfl
  | cons spec specs ih =>
    cases specs with
    | nil => rw [String.intercalate_singleton, List.flatMap_singleton]
    | cons spec' specs => rw [String.intercalate_cons_cons, itemsOf_append, ih]; rfl

/-- A specification that fails leaves every look-up as it was. -/
theorem lookup_apply_of_error {spec : String} {e : SpellingError} (h : (t.apply spec).2 = some e) :
    (t.apply spec).1.lookup = t.lookup := by
  rw [apply] at h ⊢
  split
  · next happly =>
    rw [happly] at h
    cases h
  · rfl

end CallTable

/-- The calls of a configuration are those that its specifications lead to. -/
theorem Config.callTable_eq_ok {c : Config} {t : CallTable}
    (h : ({} : CallTable).applyAll c.spellings = .ok t) : c.callTable = .ok t := by
  rw [callTable]
  generalize c.spellings = specs at h ⊢
  generalize ({} : CallTable) = start at h ⊢
  induction specs generalizing start with
  | nil => exact congrArg _ (Except.ok.inj h)
  | cons spec specs ih =>
    rw [CallTable.applyAll] at h
    rw [List.foldlM_cons]
    revert h
    rcases start.apply spec with ⟨next, _ | e⟩ <;> intro h
    · exact ih next h
    · cases h

namespace CallTable

/-- Where specifications succeed, a spelling stands for the last function that has it, and what a
function has is decided by the items for it alone. So all that counts of the specifications are the
items for each function in their order: items of different functions can be moved past each other,
and specifications can be joined. One that fails changes no look-up. -/
theorem lookup_after_specs {specs : List String} {t : CallTable}
    (h : ({} : CallTable).applyAll specs = .ok t) :
    ∃ items, List.Forall₂ SpellingItem.Written (specs.flatMap itemsOf) items ∧
      (∀ name call, t.lookup name = some call ↔ (Spellings.after items).IsLast name call) ∧
      (∀ name, t.lookup name = none ↔ ∀ call, name ∉ Spellings.after items call) ∧
      (∀ specs' items', List.Forall₂ SpellingItem.Written (specs'.flatMap itemsOf) items' →
        (∀ call, items'.filter (·.call = call) = items.filter (·.call = call)) →
        ({} : CallTable).applyAll specs' = .ok t) ∧
      (∀ earlier group later, specs = earlier ++ (group ++ later) →
        ({} : CallTable).applyAll (earlier ++ ",".intercalate group :: later) = .ok t) ∧
      (∀ c : Config, c.spellings = specs → c.callTable = .ok t) ∧
      ∀ (t' : CallTable) (spec : String) (e : SpellingError), (t'.apply spec).2 = some e →
        (t'.apply spec).1.lookup = t'.lookup := by
  obtain ⟨items, hitems, rfl⟩ := applyAll_default_eq_ok_iff.1 h
  refine ⟨items, hitems, fun _ _ ↦ Spellings.index_eq_some_iff,
    fun _ ↦ Spellings.index_eq_none_iff, ?_, ?_, ?_, fun _ _ _ ↦ lookup_apply_of_error⟩
  · intro specs' items' hitems' hsame
    have hafter : Spellings.after items' = Spellings.after items :=
      funext fun call ↦ congrArg _ (hsame call)
    exact applyAll_default_eq_ok_iff.2 ⟨items', hitems', by rw [hafter]⟩
  · rintro earlier group later rfl
    refine applyAll_default_eq_ok_iff.2 ⟨items, ?_, rfl⟩
    simpa only [List.flatMap_append, List.flatMap_cons, itemsOf_intercalate] using hitems
  · rintro c rfl
    exact Config.callTable_eq_ok h

/-- The items of specifications in which two functions lay claim to one spelling, and one function
gives up its own to another. -/
def sharedItems : List SpellingItem :=
  [⟨.tr, "i18n", false⟩, ⟨.translate, "i18n", true⟩, ⟨.tr, "_", true⟩, ⟨.trUtf8, "tr", false⟩]

theorem lookup_after_specs_shared :
    ∃ t, ({} : CallTable).applyAll ["tr=i18n, translate += i18n", "tr+=_,trUtf8=tr"] = .ok t ∧
      t.lookup "i18n" = some .translate ∧ t.lookup "tr" = some .trUtf8 ∧
      ({} : CallTable).applyAll ["trUtf8=tr", "translate+=i18n,,tr =i18n", "tr+=_"] = .ok t ∧
      ({} : CallTable).applyAll ["tr=i18n, translate += i18n,tr+=_,trUtf8=tr"] = .ok t := by
  have hshared : List.Forall₂ SpellingItem.Written
      (["tr=i18n, translate += i18n", "tr+=_,trUtf8=tr"].flatMap itemsOf) sharedItems :=
    SpellingItem.forall₂_written_iff.2 rfl
  have hmoved : List.Forall₂ SpellingItem.Written
      (["trUtf8=tr", "translate+=i18n,,tr =i18n", "tr+=_"].flatMap itemsOf)
      [⟨.trUtf8, "tr", false⟩, ⟨.translate, "i18n", true⟩, ⟨.tr, "i18n", false⟩,
        ⟨.tr, "_", true⟩] :=
    SpellingItem.forall₂_written_iff.2 rfl
  have hspecs := applyAll_default_eq_ok_iff.2 ⟨sharedItems, hshared, rfl⟩
  obtain ⟨items, hitems, -, -, hmove, hjoin, -⟩ := lookup_after_specs hspecs
  have hsame : items = sharedItems := by
    rw [SpellingItem.forall₂_written_iff] at hshared hitems
    exact List.map_injective_iff.2 (fun _ _ ↦ Except.ok.inj) (hitems.symm.trans hshared)
  subst hsame
  refine ⟨_, hspecs, by decide, by decide, hmove _ _ hmoved fun call ↦ ?_,
    hjoin [] ["tr=i18n, translate += i18n", "tr+=_,trUtf8=tr"] [] rfl⟩
  cases call <;> rfl

end CallTable

end Harvest
