import Harvest.Extract
import Harvest.Proofs.Include.Groups
import Harvest.Proofs.Scope.Ledger

/-!
# Extraction from outlines

A text that spells an outline is read on its own, from the global scope. Main statement: extraction
reports one message for each call of the outline, in the order of the text, with the context that
the ledger of the text gives it: the longest beginning of the call's path that was marked before, or
else the whole path, which is then reported once for its lack of support.
-/

namespace Harvest

namespace Parser

theorem depthLimit_eq : ∃ depth, depthLimit = depth + 2 := by
  have hpow (n : Nat) : 256 ^ 1 ≤ Nat.pow 256 (n + 1) :=
    Nat.pow_le_pow_right (by decide) (Nat.le_add_left 1 n)
  have hlimit : 256 ^ 1 ≤ depthLimit := by
    unfold depthLimit
    exact hpow _
  exact ⟨depthLimit - 2, by omega⟩

/-- Reading a file follows includes in some way. -/
theorem parse_eq_run (depth : Nat) : ∃ includer, ∀ p, parse depth p = p.run includer := by
  cases depth with
  | zero => exact ⟨_, fun _ ↦ rfl⟩
  | succ depth => exact ⟨_, fun _ ↦ rfl⟩

variable {includer : Includer} {o : Outline false} {source : String}

/-- A file of which an outline is ahead is read to its end. -/
theorem run_of_isAt {p q : Parser} {t : Token} {l : Nat} {d : Depths} {is js : List Item}
    (hrest : p.rest = ⟨[], t, l, d⟩ :: is)
    (hreach : Reaches includer (p.ready.load p.rest) (q.load js))
    (hq : q.IsAt js ⟨{}, {}, o.tokens ++ [.eof]⟩) (htrailing : q.trailing = [])
    (htr : q.options.calls.lookup "tr" = some .tr)
    (hnames : ∀ name ∈ o.functionNames, q.options.calls.lookup name = none) :
    (p.run includer).snapshot = {} ∧ (p.run includer).session.cache = q.session.cache ∧
      (p.run includer).yield = (o.events []).foldl (Yield.step q.file.text q.tree) q.yield := by
  obtain ⟨r, rest, hreach', hr, hfixed, hyield⟩ :=
    reads_outline htr o hnames (fun _ ↦ rfl) (by simp) q js rfl hq
  obtain ⟨l', _, rfl, rfl⟩ := hr.carries
  simp only [fixed, Prod.mk.injEq] at hfixed
  have hrun : p.run includer = r.load [⟨[], .eof, l', {}⟩] :=
    run_of_reaches hrest (hreach.trans hreach') rfl (hfixed.2.2.2.2.2.1.trans htrailing)
  rw [hrun]
  exact ⟨hr.stands.snapshot, hfixed.2.2.2.2.2.2.2, hyield⟩

/-- A file that spells an outline is read to its end. -/
theorem run_start (includer : Includer) {options : Options}
    (hspell : Spells false o.tokens source.toList)
    (htr : options.calls.lookup "tr" = some .tr)
    (hnames : ∀ name ∈ o.functionNames, options.calls.lookup name = none) (files : FileTree)
    (file : Path) (inPlace : Bool) (stack : List Path) (tree : Nat) (messages : Array Message)
    (session : Session) {p : Parser}
    (hp : p = start options files file source inPlace stack tree messages session) :
    (p.run includer).snapshot = {} ∧ (p.run includer).session.cache = session.cache ∧
      (p.run includer).yield = (o.events []).foldl (Yield.step file.text tree) p.yield := by
  subst hp
  obtain ⟨hcarries, htrailing⟩ := o.carries_ofText hspell
  obtain ⟨t, ts, hts⟩ := List.exists_cons_of_ne_nil (show o.tokens ++ [.eof] ≠ [] by simp)
  have hat : ∀ p : Parser, p = (start options files file source inPlace stack tree messages
      session).ready → p.IsAt (Stream.ofText source).items ⟨{}, {}, o.tokens ++ [.eof]⟩ := by
    rintro p rfl
    exact ⟨⟨rfl, rfl, rfl, rfl⟩, hcarries⟩
  have hitems := hcarries
  rw [hts] at hitems
  obtain ⟨l, is, hitems, -⟩ := hitems
  exact run_of_isAt (q := (start options files file source inPlace stack tree messages
    session).ready) hitems (.refl _) (hat _ rfl) htrailing htr hnames

/-- What is left of reading a file that spells an outline on its own. -/
theorem detached_outline {options : Options} (hspell : Spells false o.tokens source.toList)
    (htr : options.calls.lookup "tr" = some .tr)
    (hnames : ∀ name ∈ o.functionNames, options.calls.lookup name = none) (depth : Nat)
    (files : FileTree) (file : Path) (stack : List Path) (session : Session) {d : Detached}
    {session' : Session}
    (hd : (d, session') = detached (parse depth) options files file source stack session) :
    d.tree = session.forest.trees.size ∧ d.snapshot = {} ∧
      session'.cache = { session.cache with nextFileId := session.cache.nextFileId + 1 } ∧
      (⟨session'.forest, d.messages.toList.map Message.unlined,
          session'.diagnostics.toList.map Diagnostic.unlined⟩ : Yield) =
        (o.events []).foldl (Yield.step file.text session.forest.trees.size)
          ⟨session.forest.plant session.cache.nextFileId, [],
            session.diagnostics.toList.map Diagnostic.unlined⟩ := by
  obtain ⟨includer, hparse⟩ := parse_eq_run depth
  obtain ⟨rfl, rfl⟩ := Prod.mk.inj hd
  simp only [hparse]
  obtain ⟨hsnapshot, hcache, hyield⟩ := run_start includer hspell htr hnames files file false stack
    session.forest.trees.size #[] _ rfl
  exact ⟨trivial, hsnapshot, hcache, hyield⟩

end Parser

namespace IncludeCache

theorem messagesOf_setMessages {c : IncludeCache} {path : Path} (h : c.messagesOf path = [])
    (messages : List Message) : (c.setMessages path messages).messagesOf path = messages := by
  cases messages with
  | nil => exact h
  | cons m messages => simp [setMessages, messagesOf, Path.same_self]

theorem blacklist_setMessages (c : IncludeCache) (path : Path) (messages : List Message) :
    (c.setMessages path messages).blacklist = c.blacklist := by
  rw [setMessages]
  split <;> rfl

end IncludeCache

namespace Parser

theorem messages_store (session : Session) (file : Path) (d : Detached) (header : Bool) :
    (store session file d header).cache.messages =
      (session.cache.setMessages file d.messages.toList).messages := by
  cases header <;> rfl

theorem blacklist_store (session : Session) (file : Path) (d : Detached) (header : Bool) :
    (store session file d header).cache.blacklist = session.cache.blacklist := by
  cases header <;> exact IncludeCache.blacklist_setMessages _ _ _

theorem diagnostics_store (session : Session) (file : Path) (d : Detached) (header : Bool) :
    (store session file d header).diagnostics = session.diagnostics := by
  cases header <;> rfl

end Parser

namespace Extractor

/-- A text that was not read before is reported with what reading it on its own produces. -/
theorem extractSource_of_detached {e : Extractor} {path : Path} {source : String}
    {d : Parser.Detached} {session : Session} (hnew : isParsed e.cache path.clean = false)
    (hd : (d, session) = Parser.detached (Parser.parse Parser.depthLimit) e.options e.files path.clean
      source [path.clean] { forest := e.forest, cache := e.cache })
    (hblacklist : session.cache.isBlacklisted path.clean = false)
    (hmessages : session.cache.messagesOf path.clean = []) :
    (e.extractSource path source).1 = ⟨d.messages.toList, session.diagnostics.toList⟩ := by
  have hparse : e.parseInput { forest := e.forest, cache := e.cache } path.clean source =
      Parser.store session path.clean d path.clean.isHeader := by
    simp only [parseInput, hnew, Bool.false_eq_true, if_false, ← hd]
  have hown : (Parser.store session path.clean d path.clean.isHeader).cache.isBlacklisted
      path.clean = false := by
    rw [IncludeCache.isBlacklisted, Parser.blacklist_store]
    exact hblacklist
  have hstored : (Parser.store session path.clean d path.clean.isHeader).cache.messagesOf
      path.clean = d.messages.toList := by
    rw [IncludeCache.messagesOf, Parser.messages_store, ← IncludeCache.messagesOf]
    exact IncludeCache.messagesOf_setMessages hmessages _
  simp only [extractSource, extractFiles, List.map_cons, List.map_nil, List.foldl_cons,
    List.foldl_nil, hparse, hown, List.filter_cons, Bool.not_false, if_true, List.filter_nil,
    List.flatMap_cons, List.flatMap_nil, hstored, List.append_nil, Parser.diagnostics_store]

/-- The report on a text that spells an outline is what the events of the outline yield. -/
theorem extractSource_yield {e : Extractor} {path : Path} {o : Outline false} {source : String}
    (hnew : isParsed e.cache path.clean = false) (hempty : e.cache.messagesOf path.clean = [])
    (htr : e.options.calls.lookup "tr" = some .tr)
    (hnames : ∀ name ∈ o.functionNames, e.options.calls.lookup name = none)
    (hspell : Spells false o.tokens source.toList) :
    let y := (o.events []).foldl (Yield.step path.clean.text e.forest.trees.size)
      ⟨e.forest.plant e.cache.nextFileId, [], []⟩
    (e.extractSource path source).1.messages.map Message.unlined = y.messages ∧
      (e.extractSource path source).1.diagnostics.map Diagnostic.unlined = y.diagnostics := by
  obtain ⟨-, -, hcache, hyield⟩ := Parser.detached_outline hspell htr hnames Parser.depthLimit e.files
    path.clean [path.clean] { forest := e.forest, cache := e.cache } rfl
  have hblacklist : e.cache.isBlacklisted path.clean = false :=
    (Bool.or_eq_false_iff.1 hnew).2
  rw [extractSource_of_detached hnew rfl (by rw [hcache]; exact hblacklist)
    (by rw [hcache]; exact hempty)]
  exact ⟨congrArg Yield.messages hyield, congrArg Yield.diagnostics hyield⟩

/-- The events of an outline yield what an empty ledger says about them. -/
theorem yield_outline (forest : Forest) (id : Nat) (file : String) (o : Outline false) :
    let y := (o.events []).foldl (Yield.step file forest.trees.size) ⟨forest.plant id, [], []⟩
    y.messages = ({} : Ledger).allMessages file (o.events []) ∧
      y.diagnostics = ({} : Ledger).allDiagnostics file (o.events []) := by
  have hadmits : ({} : Ledger).AdmitsAll [] (o.events []) :=
    Ledger.admitsAll_outline o (by simp) (by simp) (by simp)
  have hrun := Forest.Tracks.run (y := ⟨forest.plant id, [], []⟩)
    (Forest.bare_plant forest id).tracks file hadmits
  exact ⟨hrun.2.1, hrun.2.2.1⟩

/-- Extraction from a text that spells an outline: one message for each call in the order of the
text, with the context that the marks before it give, and one complaint for each path that has
calls without support. Lines are left out. -/
theorem extractSource_outline (e : Extractor) (path : Path) (o : Outline false) (source : String)
    (hnew : isParsed e.cache path.clean = false) (hempty : e.cache.messagesOf path.clean = [])
    (htr : e.options.calls.lookup "tr" = some .tr)
    (hnames : ∀ name ∈ o.functionNames, e.options.calls.lookup name = none)
    (hspell : Spells false o.tokens source.toList) :
    (e.extractSource path source).1.messages.map Message.unlined =
        ({} : Ledger).allMessages path.clean.text (o.events []) ∧
      (e.extractSource path source).1.diagnostics.map Diagnostic.unlined =
        ({} : Ledger).allDiagnostics path.clean.text (o.events []) := by
  have hyield := extractSource_yield hnew hempty htr hnames hspell
  have hledger := yield_outline e.forest e.cache.nextFileId path.clean.text o
  exact ⟨hyield.1.trans hledger.1, hyield.2.trans hledger.2⟩

/-- Namespaces that are opened twice, with a class that is marked in one place only. -/
def reopened : Outline false :=
  .namespaces ⟨"app", by decide⟩ [⟨"ui", by decide⟩]
    (.classBody ⟨"View", by decide⟩
      (.marker (.function ⟨"show", by decide⟩
        (.block (.call ⟨"Show", by decide, by decide⟩ .done) .done) .done))
      (.function ⟨"reset", by decide⟩ (.call ⟨"Reset", by decide, by decide⟩ .done) .done))
    (.namespaces ⟨"app", by decide⟩ []
      (.unnamed
        (.namespaces ⟨"ui", by decide⟩ []
          (.classBody ⟨"View", by decide⟩
            (.classBody ⟨"Part", by decide⟩
              (.function ⟨"draw", by decide⟩ (.call ⟨"Draw", by decide, by decide⟩ .done) .done)
              .done)
            (.function ⟨"stop", by decide⟩ (.call ⟨"Stop", by decide, by decide⟩ .done) .done))
          .done)
        .done)
      .done)

theorem extractSource_outline_reopened :
    let report := (({} : Extractor).extractSource ⟨"view.cpp"⟩
      (String.ofList (spaced reopened.tokens))).1
    (report.messages.map fun m ↦ (m.context, m.sourceText)) =
        [("app::ui::View", "Show"), ("app::ui", "Reset"), ("app::ui::View", "Draw"),
          ("app::ui", "Stop")] ∧
      (report.diagnostics.map fun d ↦ d.message) =
        ["Class 'app::ui' lacks Q_OBJECT macro"] := by
  obtain ⟨hmessages, hdiagnostics⟩ := extractSource_outline {} ⟨"view.cpp"⟩ reopened
    (String.ofList (spaced reopened.tokens)) rfl rfl (by decide) (by decide)
    (by rw [String.toList_ofList]; exact spells_spaced _ _)
  constructor
  · have hpairs := congrArg (List.map fun m : Message ↦ (m.context, m.sourceText)) hmessages
    rw [List.map_map] at hpairs
    exact hpairs.trans (by decide)
  · have htexts := congrArg (List.map fun d : Diagnostic ↦ d.message) hdiagnostics
    rw [List.map_map] at htexts
    exact htexts.trans (by decide)

end Extractor

end Harvest
