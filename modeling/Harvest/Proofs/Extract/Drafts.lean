import Harvest.Proofs.Extract.Contexts
import Harvest.Proofs.Scope.Adoption

/-!
# Extraction from drafts

Definitions of static members stand among the declarations of a text. Main statement: extraction
reports the messages that the ledger of the draft tells. So the definitions leave the messages as
they are, unless one of them is the last thing before a function with calls that no head or end of a
scope parts from it. The calls of such a function are reported for the qualifier of the definition.
-/

namespace Harvest

namespace Parser

variable {d : Draft false} {source : String}

/-- A file is read to its end, if reading its tokens tells deeds that make sense. -/
theorem run_of_tells {includer : Includer} {options : Options} {ts : List Token}
    {deeds : List Deed} {left : String}
    (hcarries : Carries {} (ts ++ [.eof]) (Stream.ofText source).items)
    (htrailing : (Stream.ofText source).trailing = [])
    (htells : Tells includer options ⟨.between [] [], {}, ts ++ [.eof]⟩ deeds
      ⟨.awaiting [] [] left, {}, [.eof]⟩)
    (hallows : ({} : Ledger).AllowsAll deeds) (files : FileTree) (file : Path) (inPlace : Bool)
    (stack : List Path) (tree : Nat) (session : Session) (hbare : session.forest.Bare tree)
    {p : Parser} (hp : p = start options files file source inPlace stack tree #[] session) :
    (p.run includer).Stands (.awaiting [] [] left) ∧ (p.run includer).depths = {} ∧
      (p.run includer).session.cache = session.cache ∧
      (p.run includer).messages.toList.map Message.unlined =
        ({} : Ledger).allDeedMessages file.text deeds ∧
      (p.run includer).session.diagnostics.toList.map Diagnostic.unlined =
        session.diagnostics.toList.map Diagnostic.unlined ++
          ({} : Ledger).allDeedDiagnostics file.text deeds := by
  subst hp
  obtain ⟨q, rest, hreach, hq, hfixed, -, hmessages, hdiagnostics⟩ := htells
    (start options files file source inPlace stack tree #[] session).ready
    (Stream.ofText source).items {} rfl ⟨⟨rfl, rfl, rfl, rfl⟩, hcarries⟩
    ⟨hbare.tracks, .of_bare hbare⟩ hallows
  obtain ⟨l', _, rfl, rfl⟩ := hq.carries
  simp only [fixed, Prod.mk.injEq] at hfixed
  obtain ⟨t, ts', hts⟩ := List.exists_cons_of_ne_nil (show ts ++ [.eof] ≠ [] by simp)
  obtain ⟨l, is, hitems, -⟩ := hts ▸ hcarries
  have hrun : (start options files file source inPlace stack tree #[] session).run includer =
      q.load [⟨[], .eof, l', {}⟩] :=
    run_of_reaches hitems hreach rfl (hfixed.2.2.2.2.2.1.trans htrailing)
  have hq := hq.stands
  rw [hrun]
  exact ⟨⟨hq.snapshot, hq.statement, hq.prospective, hq.remarks⟩, rfl, hfixed.2.2.2.2.2.2.2,
    hmessages, hdiagnostics⟩

/-- A file that spells a draft is read to its end. -/
theorem run_draft (includer : Includer) {options : Options}
    (hspell : Spells false d.tokens source.toList) (htr : options.calls.lookup "tr" = some .tr)
    (hnames : ∀ name ∈ d.outline.functionNames, options.calls.lookup name = none)
    (files : FileTree) (file : Path) (inPlace : Bool) (stack : List Path) (tree : Nat)
    (session : Session) (hbare : session.forest.Bare tree) {p : Parser}
    (hp : p = start options files file source inPlace stack tree #[] session) :
    (p.run includer).session.cache = session.cache ∧
      (p.run includer).messages.toList.map Message.unlined =
        ({} : Ledger).allDeedMessages file.text (d.deeds [] []) := by
  obtain ⟨hcarries, htrailing⟩ := d.carries_ofText hspell
  obtain ⟨left, htells⟩ : ∃ left, Tells includer options
      ⟨.awaiting [] [] (Name.join []), {}, d.tokens ++ [.eof]⟩ (d.deeds [] [])
      ⟨.awaiting [] [] left, {}, [.eof]⟩ :=
    tells_draft htr d hnames (by simp) isQualifier_nil (fun _ ↦ rfl) (by simp)
  obtain ⟨-, -, hcache, hmessages, -⟩ := run_of_tells hcarries htrailing htells
    (Ledger.allowsAll_draft d (by simp) (by simp) []) files file inPlace stack tree session hbare hp
  exact ⟨hcache, hmessages⟩

end Parser

namespace Extractor

/-- Contexts and texts of messages do not depend on their lines. -/
theorem pairs_of_unlined {ms ms' : List Message} (h : ms.map Message.unlined = ms') :
    (ms.map fun m ↦ (m.context, m.sourceText)) = ms'.map fun m ↦ (m.context, m.sourceText) := by
  rw [← h, List.map_map]
  rfl

/-- The parser that has read a text on its own, as extraction from the text does. -/
def readSource (e : Extractor) (path : Path) (source : String) : Parser :=
  Parser.parse Parser.depthLimit (Parser.start e.options e.files path.clean source false [path.clean]
    e.forest.trees.size #[]
    { forest := e.forest.plant e.cache.nextFileId,
      cache := { e.cache with nextFileId := e.cache.nextFileId + 1 } })

/-- What is left of reading a text whose tokens tell deeds that make sense. -/
theorem readSource_of_tells {e : Extractor} {path : Path} {source : String} {ts : List Token}
    {deeds : List Deed} {left : String}
    (hcarries : Carries {} (ts ++ [.eof]) (Stream.ofText source).items)
    (htrailing : (Stream.ofText source).trailing = [])
    (htells : ∀ includer, Parser.Tells includer e.options ⟨.between [] [], {}, ts ++ [.eof]⟩ deeds
      ⟨.awaiting [] [] left, {}, [.eof]⟩)
    (hallows : ({} : Ledger).AllowsAll deeds) :
    (e.readSource path source).Stands (.awaiting [] [] left) ∧
      (e.readSource path source).depths = {} ∧
      (e.readSource path source).session.cache =
        { e.cache with nextFileId := e.cache.nextFileId + 1 } ∧
      (e.readSource path source).messages.toList.map Message.unlined =
        ({} : Ledger).allDeedMessages path.clean.text deeds ∧
      (e.readSource path source).session.diagnostics.toList.map Diagnostic.unlined =
        ({} : Ledger).allDeedDiagnostics path.clean.text deeds := by
  obtain ⟨includer, hparse⟩ := Parser.parse_eq_run Parser.depthLimit
  rw [readSource, hparse]
  exact Parser.run_of_tells hcarries htrailing (htells includer) hallows e.files path.clean false
    [path.clean] e.forest.trees.size
    { forest := e.forest.plant e.cache.nextFileId,
      cache := { e.cache with nextFileId := e.cache.nextFileId + 1 } }
    (Forest.bare_plant e.forest e.cache.nextFileId) rfl

/-- The report on a text is that of the parser which has read it. -/
theorem report_readSource {e : Extractor} {path : Path} {source : String}
    (hnew : isParsed e.cache path.clean = false) (hempty : e.cache.messagesOf path.clean = [])
    (hcache : (e.readSource path source).session.cache =
      { e.cache with nextFileId := e.cache.nextFileId + 1 }) :
    (e.extractSource path source).1 = ⟨(e.readSource path source).messages.toList,
      (e.readSource path source).session.diagnostics.toList⟩ := by
  have hblacklist : (e.readSource path source).session.cache.isBlacklisted path.clean = false := by
    rw [hcache]
    exact (Bool.or_eq_false_iff.1 hnew).2
  have hstored : (e.readSource path source).session.cache.messagesOf path.clean = [] := by
    rw [hcache]
    exact hempty
  exact extractSource_of_detached hnew rfl hblacklist hstored

theorem messages_readSource {e : Extractor} {path : Path} {source : String}
    (hnew : isParsed e.cache path.clean = false) (hempty : e.cache.messagesOf path.clean = [])
    (hcache : (e.readSource path source).session.cache =
      { e.cache with nextFileId := e.cache.nextFileId + 1 }) :
    (e.extractSource path source).1.messages = (e.readSource path source).messages.toList :=
  congrArg Report.messages (report_readSource hnew hempty hcache)

/-- The report on a text that spells a draft has the messages that an empty ledger tells. -/
theorem messages_draft (e : Extractor) (path : Path) (d : Draft false) (source : String)
    (hnew : isParsed e.cache path.clean = false) (hempty : e.cache.messagesOf path.clean = [])
    (htr : e.options.calls.lookup "tr" = some .tr)
    (hnames : ∀ name ∈ d.outline.functionNames, e.options.calls.lookup name = none)
    (hspell : Spells false d.tokens source.toList) :
    (e.extractSource path source).1.messages.map Message.unlined =
      ({} : Ledger).allDeedMessages path.clean.text (d.deeds [] []) := by
  obtain ⟨includer, hparse⟩ := Parser.parse_eq_run Parser.depthLimit
  obtain ⟨hcache, hmessages⟩ := Parser.run_draft includer hspell htr hnames e.files path.clean false
    [path.clean] e.forest.trees.size
    { forest := e.forest.plant e.cache.nextFileId,
      cache := { e.cache with nextFileId := e.cache.nextFileId + 1 } }
    (Forest.bare_plant e.forest e.cache.nextFileId) rfl
  rw [← hparse] at hcache hmessages
  rw [messages_readSource hnew hempty hcache]
  exact hmessages

/-- The report on a text that spells an outline has the messages that an empty ledger tells. -/
theorem messages_outline (e : Extractor) (path : Path) (o : Outline false) (source : String)
    (hnew : isParsed e.cache path.clean = false) (hempty : e.cache.messagesOf path.clean = [])
    (htr : e.options.calls.lookup "tr" = some .tr)
    (hnames : ∀ name ∈ o.functionNames, e.options.calls.lookup name = none)
    (hspell : Spells false o.tokens source.toList) :
    (e.extractSource path source).1.messages.map Message.unlined =
      ({} : Ledger).allMessages path.clean.text (o.events []) :=
  (extractSource_yield hnew hempty htr hnames hspell).1.trans (yield_outline _ _ _ o).1

/-- Extraction from a text that spells a draft: the messages are those of its deeds. If the draft is
sheltered, they are the messages of the text without the definitions of static members. -/
theorem extractSource_draft (e : Extractor) (path : Path) (d : Draft false) (source bare : String)
    (hnew : isParsed e.cache path.clean = false) (hempty : e.cache.messagesOf path.clean = [])
    (htr : e.options.calls.lookup "tr" = some .tr)
    (hnames : ∀ name ∈ d.outline.functionNames, e.options.calls.lookup name = none)
    (hsource : Spells false d.tokens source.toList)
    (hbare : Spells false d.outline.tokens bare.toList) :
    (e.extractSource path source).1.messages.map Message.unlined =
        ({} : Ledger).allDeedMessages path.clean.text (d.deeds [] []) ∧
      (d.sheltered false = true →
        (e.extractSource path source).1.messages.map Message.unlined =
          (e.extractSource path bare).1.messages.map Message.unlined) := by
  have hmessages := messages_draft e path d source hnew hempty htr hnames hsource
  refine ⟨hmessages, fun hsheltered ↦ ?_⟩
  rw [hmessages, Declarations.deeds_of_sheltered hsheltered [] fun _ ↦ rfl, Ledger.allDeedMessages_plain]
  exact (messages_outline e path d.outline bare hnew hempty htr hnames hbare).symm

/-- Definitions of static members before a class, before the end of a namespace, within an unnamed
namespace, and before functions without calls. -/
def counters : Draft false :=
  .member rfl ⟨false, ⟨"app", Eq.refl true⟩, [⟨"View", Eq.refl true⟩], ⟨"first", Eq.refl true⟩⟩
    (.namespaces ⟨"app", Eq.refl true⟩ []
      (.classBody ⟨"View", Eq.refl true⟩
        (.marker (.function ⟨"show", Eq.refl true⟩
          (.block (.call (.of "Show" (Eq.refl true)) .done) .done)
          (.member rfl ⟨true, ⟨"app", Eq.refl true⟩, [], ⟨"second", Eq.refl true⟩⟩ .done)))
        (.function ⟨"reset", Eq.refl true⟩ (.call (.of "Reset" (Eq.refl true)) .done)
          (.member rfl ⟨false, ⟨"View", Eq.refl true⟩, [], ⟨"third", Eq.refl true⟩⟩
            (.unnamed
              (.function ⟨"idle", Eq.refl true⟩ (.block .done .done)
                (.function ⟨"stop", Eq.refl true⟩ (.call (.of "Stop" (Eq.refl true)) .done)
                  (.member rfl ⟨false, ⟨"Other", Eq.refl true⟩, [], ⟨"fourth", Eq.refl true⟩⟩ .done)))
              (.function ⟨"draw", Eq.refl true⟩ (.call (.of "Draw" (Eq.refl true)) .done)
                .done)))))
      .done)

theorem extractSource_draft_counters :
    let report := fun tokens ↦ (({} : Extractor).extractSource ⟨"view.cpp"⟩
      (String.ofList (spaced tokens))).1.messages.map fun m ↦ (m.context, m.sourceText)
    counters.sheltered false = true ∧ report counters.tokens = report counters.outline.tokens ∧
      report counters.tokens =
        [("app::View", "Show"), ("app", "Reset"), ("app", "Stop"), ("app", "Draw")] := by
  obtain ⟨hmessages, hbare⟩ := extractSource_draft {} ⟨"view.cpp"⟩ counters
    (String.ofList (spaced counters.tokens)) (String.ofList (spaced counters.outline.tokens))
    rfl rfl (by decide) (by decide) (by rw [String.toList_ofList]; exact spells_spaced _ _)
    (by rw [String.toList_ofList]; exact spells_spaced _ _)
  have hsheltered : counters.sheltered false = true := by decide
  refine ⟨hsheltered, ?_, ?_⟩
  · exact (pairs_of_unlined (hbare hsheltered)).trans (pairs_of_unlined rfl).symm
  · exact (pairs_of_unlined hmessages).trans (by decide)

/-- The definition of a static member right before a function with a call. -/
def exposed : Draft false :=
  .namespaces ⟨"N", Eq.refl true⟩ []
    (.member rfl ⟨false, ⟨"Q", Eq.refl true⟩, [], ⟨"x", Eq.refl true⟩⟩
      (.function ⟨"f", Eq.refl true⟩ (.call (.of "s" (Eq.refl true)) .done) .done))
    .done

/-- A definition that is not sheltered decides the context of the call after it. -/
theorem messages_exposed :
    let report := fun tokens ↦ (({} : Extractor).extractSource ⟨"main.cpp"⟩
      (String.ofList (spaced tokens))).1.messages.map fun m ↦ (m.context, m.sourceText)
    report exposed.tokens = [("Q", "s")] ∧ report exposed.outline.tokens = [("N", "s")] := by
  have hdraft := messages_draft {} ⟨"main.cpp"⟩ exposed
    (String.ofList (spaced exposed.tokens)) rfl rfl (by decide) (by decide)
    (by rw [String.toList_ofList]; exact spells_spaced _ _)
  have houtline := messages_outline {} ⟨"main.cpp"⟩ exposed.outline
    (String.ofList (spaced exposed.outline.tokens)) rfl rfl (by decide) (by decide)
    (by rw [String.toList_ofList]; exact spells_spaced _ _)
  exact ⟨(pairs_of_unlined hdraft).trans (by decide), (pairs_of_unlined houtline).trans (by decide)⟩

end Extractor

end Harvest
