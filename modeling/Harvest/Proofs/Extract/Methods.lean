import Harvest.Proofs.Extract.Drafts
import Harvest.Proofs.Method

/-!
# Extraction from definitions of methods

A method that is defined outside of its class is found there by its qualifier, from the namespaces
that are opened around it. Main statement: after any declarations that declare the class, the calls
in such a definition are reported as those in a definition inside of the class are, and nothing of
it is left open.
-/

namespace Harvest

namespace Ledger

variable {l : Ledger} {path : List String}

theorem marked_entries (l : Ledger) (path names : List String) :
    ((Outline.entries path names).foldl step l).marked = l.marked := by
  induction names generalizing l path with
  | nil => rfl
  | cons name names ih => exact ih (l.step (.entered (path ++ [name]))) (path ++ [name])

/-- Scopes that are entered leave the contexts alone. -/
theorem context_entries (l : Ledger) (path names place : List String) :
    ((Outline.entries path names).foldl step l).context place = l.context place := by
  rw [context, context, support?, support?, marked_entries]

theorem allMessages_entries (l : Ledger) (file : String) (path names : List String) :
    l.allMessages file (Outline.entries path names) = [] := by
  induction names generalizing l path with
  | nil => rfl
  | cons name names ih => exact ih (l.step (.entered (path ++ [name]))) (path ++ [name])

/-- Outside of its class, a method tells the context of the class. -/
theorem allDeedMessages_method (m : Method) (file : String)
    (spaces : List (Identifier × List Identifier))
    (hdeclared : path ++ (Method.spacePath spaces ++ m.qualifier) ∈ l.declared) :
    l.allDeedMessages file (m.deeds path spaces) =
      m.body.texts.map
        (.plain file (l.context (path ++ (Method.spacePath spaces ++ m.qualifier)))) := by
  let entered := (Outline.entries path (Method.spacePath spaces)).foldl step l
  let place := path ++ Method.spacePath spaces
  have howner : place ++ m.qualifier ∈ entered.declared := by
    rw [List.append_assoc]
    exact mem_declared_foldl _ hdeclared
  have hdefinition : entered.allDeedMessages file (m.deeds place []) =
      m.body.texts.map (.plain file (entered.context (place ++ m.qualifier))) := by
    have hqualifier : m.qualifier ≠ [] := by simp [Method.qualifier]
    by_cases hbody : m.body.texts = []
    · rw [Method.deeds, if_pos (.inr hbody), Block.events_eq_map, hbody]
      rfl
    · rw [Method.deeds, if_neg (not_or.2 ⟨hqualifier, hbody⟩), allDeedMessages, allDeedMessages,
        List.append_nil, deedMessages, adoptive, if_pos howner]
  calc
    l.allDeedMessages file (m.deeds path spaces)
        = l.allMessages file (Outline.entries path (Method.spacePath spaces)) ++
            entered.allDeedMessages file (m.deeds place []) := by
      rw [m.deeds_eq, allDeedMessages_append, allDeedMessages_plain, foldl_deed_plain]
    _ = m.body.texts.map (.plain file (entered.context (place ++ m.qualifier))) := by
      rw [allMessages_entries, List.nil_append, hdefinition]
    _ = m.body.texts.map
          (.plain file (l.context (path ++ (Method.spacePath spaces ++ m.qualifier)))) := by
      rw [context_entries, List.append_assoc]

/-- Inside of its class, a method tells the context of the class. -/
theorem allMessages_method (m : Method) (file : String) :
    l.allMessages file (m.inside.events []) =
      m.body.texts.map (.plain file (l.context m.path)) := by
  have hpath : m.path ≠ [] := by simp [Method.path, Method.qualifier]
  calc
    l.allMessages file (m.inside.events [])
        = l.allMessages file (Outline.entries [] m.path ++ m.body.texts.map (.called m.path)) := by
      rw [Method.inside, Method.events_inSpaces, Block.events_eq_map]
      rfl
    _ = ((Outline.entries [] m.path).foldl step l).allMessages file
          (m.body.texts.map (.called m.path)) := by
      rw [allMessages_append, allMessages_entries, List.nil_append]
    _ = m.body.texts.map (.plain file (l.context m.path)) := by
      rw [allMessages_called hpath, context_entries]

/-- The deeds of a method make sense wherever its namespaces are opened in a declared scope. -/
theorem allowsAll_method (m : Method) (spaces : List (Identifier × List Identifier))
    (hpath : path ∈ l.declared) : l.AllowsAll (m.deeds path spaces) := by
  obtain ⟨hentries, hopened⟩ : l.AdmitsAll [] _ ∧ _ :=
    admitsAll_entries (Method.spacePath spaces) hpath
  rw [m.deeds_eq, allowsAll_append, allowsAll_plain, foldl_deed_plain]
  refine ⟨hentries, ?_⟩
  rw [Method.deeds]
  split_ifs
  · rw [allowsAll_plain]
    exact admitsAll_block m.body hopened
  · exact ⟨hopened, trivial⟩

end Ledger

namespace Parser

variable {includer : Includer} {options : Options} {path : List String} {opened : List Nat}
  {ts : List Token}

/-- In the body of every scope the tokens lead back to where they begin, and tell deeds that depend
on the path of the scope. -/
def TellsIn (includer : Includer) (options : Options) (inner : List Token)
    (deeds : List String → List Deed) : Prop :=
  ∀ (path : List String) (opened : List Nat) (ts : List Token), (∀ word ∈ path, word ≠ "") →
    (opened = [] → path = []) → ts ≠ [] →
    Tells includer options ⟨.between path opened, ⟨opened.length, 0, 0⟩, inner ++ ts⟩ (deeds path)
      ⟨.between path opened, ⟨opened.length, 0, 0⟩, ts⟩

variable {inner : List Token} {deeds : List String → List Deed}

theorem TellsIn.enclose (h : TellsIn includer options inner deeds)
    (spaces : List (Identifier × List Identifier)) :
    TellsIn includer options (Method.enclose inner spaces) fun path ↦
      (Outline.entries path (Method.spacePath spaces)).map .plain ++
        deeds (path ++ Method.spacePath spaces) := by
  induction spaces with
  | nil =>
    intro path opened ts hpath hroot hts
    have htells := h path opened ts hpath hroot hts
    simpa [Method.enclose, Outline.entries, Method.spacePath] using htells
  | cons s spaces ih =>
    intro path opened ts hpath hroot hts
    have hinner := ih (path ++ (s.1 :: s.2).map Identifier.word) (opened ++ [path.length + 1])
      (.closing .brace :: ts) (words_ne_empty hpath (s.1 :: s.2)) (by simp) (by simp)
    have hsplit : Method.spacePath (s :: spaces) =
        (s.1 :: s.2).map Identifier.word ++ Method.spacePath spaces := rfl
    have hdeeds : (Outline.entries path (Method.spacePath (s :: spaces))).map Deed.plain ++
        deeds (path ++ Method.spacePath (s :: spaces)) =
        (Outline.entries path ((s.1 :: s.2).map Identifier.word)).map .plain ++
          ((Outline.entries (path ++ (s.1 :: s.2).map Identifier.word)
            (Method.spacePath spaces)).map .plain ++
            deeds (path ++ (s.1 :: s.2).map Identifier.word ++ Method.spacePath spaces)) := by
      rw [hsplit, Outline.entries_append, List.map_append, List.append_assoc,
        List.append_assoc path]
    simp only [Method.enclose, List.cons_append, List.append_assoc, List.nil_append]
    rw [hdeeds]
    exact (reads_namespaceHead s.1 s.2 "" (by simp)).tells.trans
      (tells_scopeBody _ hroot hts hinner)

theorem tellsIn_definition (htr : options.calls.lookup "tr" = some .tr) (m : Method)
    (hname : options.calls.lookup m.name.word = none) :
    TellsIn includer options m.definition fun path ↦ m.deeds path [] := by
  intro path opened ts hpath hroot hts
  simp only [Method.definition, List.cons_append, List.append_assoc, List.nil_append]
  exact (reads_methodHead m.first m.more hname "" (by simp)).tells.trans
    (tells_body htr m.body (fun h ↦ absurd h (List.cons_ne_nil _ _))
      (denotes_join hpath (isQualifier_words _)) hroot hts)

/-- The definition of a method outside of its class, within its namespaces, leads back to where it
begins. -/
theorem tells_method (htr : options.calls.lookup "tr" = some .tr) (m : Method)
    (hname : options.calls.lookup m.name.word = none)
    (spaces : List (Identifier × List Identifier)) (hpath : ∀ word ∈ path, word ≠ "")
    (hroot : opened = [] → path = []) (hts : ts ≠ []) :
    Tells includer options
      ⟨.between path opened, ⟨opened.length, 0, 0⟩, Method.enclose m.definition spaces ++ ts⟩
      (m.deeds path spaces) ⟨.between path opened, ⟨opened.length, 0, 0⟩, ts⟩ := by
  rw [m.deeds_eq]
  exact (tellsIn_definition htr m hname).enclose spaces path opened ts hpath hroot hts

end Parser

namespace Extractor

/-- A text that spells an outline and then a method outside of its class is read to its end, where
nothing is open. -/
theorem readSource_method {e : Extractor} {path : Path} {o : Outline false} {m : Method}
    {source : String} (htr : e.options.calls.lookup "tr" = some .tr)
    (hnames : ∀ name ∈ m.name.word :: o.functionNames, e.options.calls.lookup name = none)
    (hspell : Spells false (o.tokens ++ m.tokens) source.toList) :
    (e.readSource path source).Stands {} ∧ (e.readSource path source).depths = {} ∧
      (e.readSource path source).session.cache =
        { e.cache with nextFileId := e.cache.nextFileId + 1 } ∧
      (e.readSource path source).messages.toList.map Message.unlined =
        ({} : Ledger).allDeedMessages path.clean.text
          ((o.events []).map .plain ++ m.deeds [] m.spaces) := by
  have hbalanced := o.balanced_tokens.append m.balanced_tokens
  obtain ⟨hcarries, htrailing⟩ := Stream.carries_ofText hspell
    (List.forall_mem_append.2 ⟨o.isPlain_of_mem_tokens, m.isPlain_of_mem_tokens⟩)
    (hbalanced {}).1 (hbalanced {}).2
  have houtline (includer : Parser.Includer) : Parser.Reads includer e.options
      ⟨.between [] [], ⟨([] : List Nat).length, 0, 0⟩, o.tokens ++ (m.tokens ++ [.eof])⟩ (o.events [])
      ⟨.between [] [], ⟨([] : List Nat).length, 0, 0⟩, m.tokens ++ [.eof]⟩ :=
    Parser.reads_outline htr o (fun name h ↦ hnames name (List.mem_cons_of_mem _ h)) (fun _ ↦ rfl)
      (by simp)
  have htells (includer : Parser.Includer) := (houtline includer).tells.trans
    (Parser.tells_method htr m (hnames _ List.mem_cons_self) m.spaces (by simp) (fun _ ↦ rfl)
      (by simp))
  have hallows : ({} : Ledger).AllowsAll ((o.events []).map .plain ++ m.deeds [] m.spaces) := by
    rw [Ledger.allowsAll_append, Ledger.allowsAll_plain, Ledger.foldl_deed_plain]
    exact ⟨Ledger.admitsAll_outline o (by simp) (by simp) (by simp),
      Ledger.allowsAll_method m m.spaces (Ledger.mem_declared_foldl _ (by simp))⟩
  simp only [← List.append_assoc] at htells
  obtain ⟨hstands, hdepths, hcache, hmessages, -⟩ :=
    readSource_of_tells hcarries htrailing htells hallows
  exact ⟨hstands, hdepths, hcache, hmessages⟩

/-- Methods may be defined inside of their classes or outside of them. After declarations that
declare its class, a method defined outside adds one message for each of its calls, with the context
that calls inside of the class have; and nothing is open after it. -/
theorem extractSource_method (e : Extractor) (path : Path) (o : Outline false) (m : Method)
    (before outside inside : String) (hnew : isParsed e.cache path.clean = false)
    (hempty : e.cache.messagesOf path.clean = []) (htr : e.options.calls.lookup "tr" = some .tr)
    (hnames : ∀ name ∈ m.name.word :: o.functionNames, e.options.calls.lookup name = none)
    (hdeclared : .entered m.path ∈ o.events [])
    (hbefore : Spells false o.tokens before.toList)
    (houtside : Spells false (o.tokens ++ m.tokens) outside.toList)
    (hinside : Spells false (o.tokens ++ m.inside.tokens) inside.toList) :
    let report := fun source ↦ (e.extractSource path source).1.messages.map Message.unlined
    report outside = report before ++ m.body.texts.map
        (.plain path.clean.text (((o.events []).foldl Ledger.step {}).context m.path)) ∧
      report inside = report outside ∧
      (e.extractSource path outside).1.messages = (e.readSource path outside).messages.toList ∧
      (e.readSource path outside).Stands {} ∧ (e.readSource path outside).depths = {} := by
  intro report
  have howner : m.path ∈ ((o.events []).foldl Ledger.step {}).declared :=
    (Ledger.mem_declared_foldl_iff _).2 (.inr hdeclared)
  obtain ⟨hstands, hdepths, hcache, hmessages⟩ :=
    @readSource_method e path o m outside htr hnames houtside
  have hread := messages_readSource hnew hempty hcache
  have hreport_before : report before = ({} : Ledger).allMessages path.clean.text (o.events []) :=
    messages_outline e path o before hnew hempty htr
      (fun name h ↦ hnames name (List.mem_cons_of_mem _ h)) hbefore
  have hreport_outside : report outside = report before ++ m.body.texts.map
      (.plain path.clean.text (((o.events []).foldl Ledger.step {}).context m.path)) := by
    calc
      report outside = ({} : Ledger).allDeedMessages path.clean.text
          ((o.events []).map .plain ++ m.deeds [] m.spaces) := by
        rw [← hmessages, ← hread]
      _ = report before ++ m.body.texts.map
          (.plain path.clean.text (((o.events []).foldl Ledger.step {}).context m.path)) := by
        rw [Ledger.allDeedMessages_append, Ledger.allDeedMessages_plain, Ledger.foldl_deed_plain,
          Ledger.allDeedMessages_method m _ m.spaces howner, hreport_before]
        rfl
  have hreport_inside : report inside = report outside := by
    have hfunctions : ∀ name ∈ (o.append m.inside).functionNames,
        e.options.calls.lookup name = none := by
      intro name hname
      rw [Declarations.functionNames_append, m.functionNames_inside, List.mem_append] at hname
      rcases hname with hname | hname
      · exact hnames name (List.mem_cons_of_mem _ hname)
      · exact hnames name (List.mem_singleton.1 hname ▸ List.mem_cons_self)
    rw [← Declarations.tokens_append] at hinside
    calc
      report inside = ({} : Ledger).allMessages path.clean.text
          ((o.append m.inside).events []) :=
        messages_outline e path (o.append m.inside) inside hnew hempty htr hfunctions hinside
      _ = report outside := by
        rw [Declarations.events_append, Ledger.allMessages_append, Ledger.allMessages_method,
          hreport_outside, hreport_before]
  exact ⟨hreport_outside, hreport_inside, hread, hstands, hdepths⟩

/-- A method of a class within a class, outside of both. -/
def fillMethod : Method where
  spaces := [(⟨"app", Eq.refl true⟩, [])]
  first := ⟨"ui", Eq.refl true⟩
  more := [⟨"View", Eq.refl true⟩, ⟨"Part", Eq.refl true⟩]
  name := ⟨"fill", Eq.refl true⟩
  body := .call (.of "Fill" (Eq.refl true)) .done

theorem extractSource_method_fill :
    let report := fun tokens ↦ (({} : Extractor).extractSource ⟨"view.cpp"⟩
      (String.ofList (spaced tokens))).1.messages.map fun m ↦ (m.context, m.sourceText)
    .entered fillMethod.path ∈ reopened.events [] ∧
      report (reopened.tokens ++ fillMethod.tokens) =
        report reopened.tokens ++ [("app::ui::View", "Fill")] ∧
      report (reopened.tokens ++ fillMethod.inside.tokens) =
        report (reopened.tokens ++ fillMethod.tokens) := by
  intro report
  have hdeclared : .entered fillMethod.path ∈ reopened.events [] := by decide
  obtain ⟨houtside, hinside, -⟩ := extractSource_method {} ⟨"view.cpp"⟩ reopened fillMethod
    (String.ofList (spaced reopened.tokens))
    (String.ofList (spaced (reopened.tokens ++ fillMethod.tokens)))
    (String.ofList (spaced (reopened.tokens ++ fillMethod.inside.tokens)))
    rfl rfl (by decide) (by decide) hdeclared
    (by rw [String.toList_ofList]; exact spells_spaced _ _)
    (by rw [String.toList_ofList]; exact spells_spaced _ _)
    (by rw [String.toList_ofList]; exact spells_spaced _ _)
  refine ⟨hdeclared, ?_, (pairs_of_unlined hinside).trans (pairs_of_unlined rfl).symm⟩
  refine (pairs_of_unlined houtside).trans ?_
  rw [List.map_append]
  exact congrArg₂ List.append (pairs_of_unlined rfl).symm (by decide)

end Extractor

end Harvest
