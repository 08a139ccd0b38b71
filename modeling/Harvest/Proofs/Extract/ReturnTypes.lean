import Harvest.Proofs.Extract.Methods
import Harvest.Proofs.ReturnType

/-!
# Extraction from methods with return types

The separators of a qualified return type and those of a qualified function name are read alike. So
the parenthesis after the name of a method makes the qualifier of its type pending, and the first
call in the body resolves it. Main statement: what is reported for a method in the body of its
class. It does not depend on a type without a qualifier; the calls after any other type are reported
for the scope which the qualifier names.
-/

namespace Harvest

/-- The qualifier of the type, as it is written. -/
def TypeName.written (t : TypeName) : String :=
  if t.qualifier = [] then "" else (if t.global then "::" else "") ++ Name.join t.words

namespace Name

theorem ofWritten_global (text : String) :
    (ofWritten ("::" ++ text)).segments = "" :: (ofWritten text).segments := by
  rw [ofWritten, String.toList_append]
  exact congrArg (List.map String.ofList) (splitColons_append List.not_mem_nil text.toList)

end Name

namespace Parser

variable {includer : Includer} {options : Options} {p : Parser} {path : List String}
  {opened : List Nat} {s : Snapshot} {n : Nat} {ts : List Token} {is : List Item}

/-- At the first word of a type, after `lead`. -/
def led (p : Parser) (lead : String) : Parser := { p with statement := { qualifier := lead } }

theorem turn_typeQualifier (h : p.Stands s) (lead word : String) (l l' : Nat) (d : Depths) :
    ((p.led lead).load
        (⟨[], .ident word, l, ⟨n, 0, 0⟩⟩ :: ⟨[], .colonColon, l', d⟩ :: is)).turn includer =
      (p.amid "" (lead ++ word)).load (⟨[], .colonColon, l', d⟩ :: is) := by
  simp [turn, load, onIdent, led, amid, advance, h.prospective]

theorem turn_typeName (h : p.Stands s) (lead word name : String) (l l' : Nat) (d : Depths) :
    ((p.led lead).load
        (⟨[], .ident word, l, ⟨n, 0, 0⟩⟩ :: ⟨[], .ident name, l', d⟩ :: is)).turn includer =
      (p.amid "" "").load (⟨[], .ident name, l', d⟩ :: is) := by
  simp [turn, load, onIdent, led, amid, advance, clearQualifier, expectRemarks, h.prospective]

/-- The last word of a qualified type keeps the qualifier. -/
theorem turn_qualifiedTypeName (prospective qualifier word name : String) (l l' : Nat)
    (d : Depths) :
    ((p.amid prospective qualifier).load
        (⟨[], .ident word, l, ⟨n, 0, 0⟩⟩ :: ⟨[], .ident name, l', d⟩ :: is)).turn includer =
      (p.amid prospective "").load (⟨[], .ident name, l', d⟩ :: is) := by
  simp [turn, load, onIdent, amid, advance, clearQualifier, expectRemarks]

/-- A leading `::` leads on to the first word of the type. -/
theorem reaches_typeFirst (includer : Includer) {lead : Bool} {word : String} (h : p.Stands s)
    (his : Carries ⟨n, 0, 0⟩ ((if lead then [.colonColon] else []) ++ .ident word :: ts) is) :
    ∃ l rest, Reaches includer (p.load is)
        ((p.led (if lead then "::" else "")).load (⟨[], .ident word, l, ⟨n, 0, 0⟩⟩ :: rest)) ∧
      Carries ⟨n, 0, 0⟩ ts rest := by
  cases lead with
  | false =>
    obtain ⟨l, rest, rfl, hrest⟩ := his
    have hled : p.led "" = p := by rw [led, ← h.statement]
    exact ⟨l, rest, by rw [if_neg (by simp), hled]; exact .refl _, hrest⟩
  | true =>
    obtain ⟨l, _, rfl, l', rest, rfl, hrest⟩ := his
    refine ⟨l', rest, .of_turn (by simp) ?_ (by simp) (by simp), hrest⟩
    simp [turn, load, onColonColon, led, advance, h.statement, h.prospective, Depths.after]

/-- The head of a method leaves the qualifier of its type pending. -/
theorem reads_typedHead (type : TypeName) {name : String}
    (hname : options.calls.lookup name = none) (hts : ts ≠ []) :
    Reads includer options
      ⟨.between path opened, ⟨opened.length, 0, 0⟩, type.tokens ++ .ident name ::
        .opening .paren :: .closing .paren :: .opening .brace :: ts⟩ []
      ⟨.awaiting path opened type.written, ⟨opened.length + 1, 0, 0⟩, ts⟩ := by
  obtain ⟨global, qualifier, last⟩ := type
  rintro p is hoptions ⟨h, his⟩
  cases qualifier with
  | nil =>
    simp only [TypeName.tokens, List.append_assoc, List.singleton_append] at his
    obtain ⟨l, _, hfirst, l', rest, rfl, hrest⟩ := reaches_typeFirst includer h his
    have hlast := hfirst.trans
      (.of_turn (by simp) (turn_typeName h _ last.word name l l' _) (by simp) (by simp))
    have hstands : (p.amid "" "").Stands (.between path opened) := ⟨h.snapshot, rfl, rfl, h.remarks⟩
    obtain ⟨q, rest', hreach, hq⟩ := ((reads_functionName hname).trans (reads_parameters rfl hts))
      (p.amid "" "") _ hoptions ⟨hstands, l', rest, rfl, hrest⟩
    exact ⟨q, rest', hlast.trans hreach, hq.isAt, hq.fixed, hq.yield⟩
  | cons first more =>
    have hlevel : opened.length = p.snapshot.depths.length := by rw [h.snapshot]; rfl
    simp only [TypeName.tokens, List.append_assoc, List.cons_append, List.nil_append] at his
    obtain ⟨l, rest, hfirst, hrest⟩ := reaches_typeFirst includer h his
    obtain ⟨l₁, rest, rfl⟩ := carries_separator hrest
    obtain ⟨whole, l₂, _, hwhole, hwords, l₃, left, rfl, hleft⟩ :=
      @reaches_furtherNames includer p _ _ _ _ _ hlevel ""
        ((if global then "::" else "") ++ first.word) hrest
    have hwritten : whole = TypeName.written ⟨global, first :: more, last⟩ := by
      rw [hwhole, Name.join_append]
      rfl
    have hne : whole ≠ "" := by
      rw [hwhole]
      exact Name.join_ne_empty (by simp [first.word_ne_empty]) _
    have hlast := (hfirst.trans (.of_turn (by simp) (turn_typeQualifier h _ _ _ _ _) (by simp)
      (by simp))).trans (hwords.trans (.of_turn (by simp)
        (turn_qualifiedTypeName _ _ _ _ _ _ _) (by simp) (by simp)))
    have hawaits : p.Stands (.awaiting path opened "") := h
    obtain ⟨q, rest', hreach, hq⟩ :=
      leads_methodName hname hne "" hawaits hoptions hts ⟨l₃, left, rfl, hleft⟩
    exact ⟨q, rest', hlast.trans hreach, hwritten ▸ hq⟩

/-- The qualifier of a type is looked up where it is written, or globally after a leading `::`. -/
theorem denotes_type (type : TypeName) (hpath : ∀ word ∈ path, word ≠ "")
    (hne : type.words ≠ []) : Denotes path type.written (type.base path) type.words := by
  have hwords : IsQualifier type.words := isQualifier_words type.qualifier
  have hqualifier : type.qualifier ≠ [] := by simpa [TypeName.words] using hne
  have hlocal (path : List String) (hpath : ∀ word ∈ path, word ≠ "") :=
    denotes_join hpath hwords hne
  cases hglobal : type.global with
  | false =>
    simpa [TypeName.written, TypeName.base, hqualifier, hglobal] using hlocal path hpath
  | true =>
    have hroot := hlocal [] (by simp)
    have hwritten : type.written = "::" ++ Name.join type.words := by
      simp [TypeName.written, hqualifier, hglobal]
    obtain ⟨first, more, hsplit⟩ := List.exists_cons_of_ne_nil hne
    have hsegments : (Name.ofWritten (Name.join type.words)).segments = first :: more := by
      rw [hsplit] at hwords ⊢
      exact Name.ofWritten_join first more fun word hword ↦ (hwords word hword).2
    have hfirst : first ≠ "" := (hwords first (hsplit ▸ List.mem_cons_self)).1
    rw [hwritten, TypeName.base, if_pos hglobal]
    refine ⟨hwords, hne, by simp, by simp, fun f t ↦ ?_⟩
    rw [Forest.qualifyWritten, Name.ofWritten_global, hsegments,
      Forest.Literal.qualify_global f t path hfirst, ← hsplit]

variable {inner : List Token} {deeds : List String → List Deed}

theorem TellsIn.inBodies (h : TellsIn includer options inner deeds) (names : List Identifier) :
    TellsIn includer options (InlineMethod.inBodies inner names) fun path ↦
      (Outline.entries path (names.map Identifier.word)).map .plain ++
        deeds (path ++ names.map Identifier.word) := by
  induction names with
  | nil =>
    intro path opened ts hpath hroot hts
    have htells := h path opened ts hpath hroot hts
    simpa [InlineMethod.inBodies, Outline.entries] using htells
  | cons name names ih =>
    intro path opened ts hpath hroot hts
    have hinner := ih (path ++ [name.word]) (opened ++ [path.length + 1])
      (.closing .brace :: .semicolon :: ts) (words_ne_empty hpath [name]) (by simp) (by simp)
    have hdeeds : (Outline.entries path ((name :: names).map Identifier.word)).map Deed.plain ++
        deeds (path ++ (name :: names).map Identifier.word) =
        [.plain (.entered (path ++ [name.word]))] ++
          ((Outline.entries (path ++ [name.word]) (names.map Identifier.word)).map .plain ++
            deeds (path ++ [name.word] ++ names.map Identifier.word)) ++ [] := by
      simp [Outline.entries]
    simp only [InlineMethod.inBodies, List.cons_append, List.append_assoc, List.nil_append]
    rw [hdeeds]
    exact ((reads_classHead name "" rfl (by simp)).tells.trans
      (tells_scopeBody _ hroot (by simp) hinner)).trans (reads_semicolon hts).tells

/-- The members of a class and the method after them. -/
theorem tellsIn_inner (htr : options.calls.lookup "tr" = some .tr) (m : InlineMethod)
    (hnames : ∀ name ∈ m.name.word :: m.members.functionNames, options.calls.lookup name = none) :
    TellsIn includer options m.inner fun path ↦
      (m.members.events path).map .plain ++ m.deeds path := by
  intro path opened ts hpath hroot hts
  have hempty : m.type.words = [] → m.type.written = "" := fun h ↦
    if_pos (List.map_eq_nil_iff.1 h)
  have hmethod : Tells includer options
      ⟨.between path opened, ⟨opened.length, 0, 0⟩, m.type.tokens ++ .ident m.name.word ::
        .opening .paren :: .closing .paren :: .opening .brace ::
        (m.body.tokens ++ .closing .brace :: ts)⟩ (m.deeds path)
      ⟨.between path opened, ⟨opened.length, 0, 0⟩, ts⟩ :=
    (reads_typedHead m.type (hnames _ List.mem_cons_self) (by simp)).tells.trans
      (tells_body htr m.body hempty (denotes_type m.type hpath) hroot hts)
  simp only [InlineMethod.inner, List.append_assoc, List.cons_append, List.nil_append]
  exact (reads_outline htr m.members (fun name h ↦ hnames name (List.mem_cons_of_mem _ h)) hroot
    (by simp)).tells.trans hmethod

/-- A method in the body of its class, within the scopes around it. -/
theorem tells_inline (htr : options.calls.lookup "tr" = some .tr) (m : InlineMethod)
    (hnames : ∀ name ∈ m.name.word :: m.members.functionNames, options.calls.lookup name = none)
    (hts : ts ≠ []) :
    Tells includer options ⟨.between [] [], {}, m.tokens ++ ts⟩
      (m.before.map .plain ++ m.deeds m.path) ⟨.between [] [], {}, ts⟩ := by
  have hdeeds : m.before.map Deed.plain ++ m.deeds m.path =
      (Outline.entries [] (Method.spacePath m.spaces)).map .plain ++
        ((Outline.entries (Method.spacePath m.spaces) m.qualifier).map .plain ++
          ((m.members.events m.path).map .plain ++ m.deeds m.path)) := by
    simp [InlineMethod.before, Method.path, Outline.entries_append]
  rw [hdeeds]
  exact ((tellsIn_inner htr m hnames).inBodies (m.first :: m.more)).enclose m.spaces [] [] ts
    (by simp) (fun _ ↦ rfl) hts

end Parser

namespace InlineMethod

/-- The context of the calls in the method, after what the ledger holds. -/
def context (m : InlineMethod) (l : Ledger) : String :=
  if m.type.words = [] then l.context m.path else l.adoptive (m.type.base m.path) m.type.words

/-- The complaints about the calls in the method, after what the ledger holds. -/
def complaints (m : InlineMethod) (l : Ledger) (file : String) : List Diagnostic :=
  if m.type.words = [] ∨ m.body.texts = [] then
    l.allDiagnostics file (m.body.texts.map (.called m.path))
  else l.deedDiagnostics file (.adopted (m.type.base m.path) m.type.words m.body.texts)

theorem allDeedMessages_deeds (m : InlineMethod) (l : Ledger) (file : String) :
    l.allDeedMessages file (m.deeds m.path) = m.body.texts.map (.plain file (m.context l)) := by
  have hpath : m.path ≠ [] := by simp [Method.path, Method.qualifier]
  by_cases hwords : m.type.words = []
  · rw [deeds, if_pos (.inl hwords), context, if_pos hwords, Ledger.allDeedMessages_plain,
      Block.events_eq_map, Ledger.allMessages_called hpath]
  · by_cases hbody : m.body.texts = []
    · rw [deeds, if_pos (.inr hbody), Block.events_eq_map, hbody]
      rfl
    · rw [deeds, if_neg (not_or.2 ⟨hwords, hbody⟩), context, if_neg hwords]
      exact List.append_nil _

theorem allDeedDiagnostics_deeds (m : InlineMethod) (l : Ledger) (file : String) :
    l.allDeedDiagnostics file (m.deeds m.path) = m.complaints l file := by
  rw [deeds, complaints]
  split_ifs
  · rw [Ledger.allDeedDiagnostics_plain, Block.events_eq_map]
  · exact List.append_nil _

/-- The method makes sense after every outline. -/
theorem allowsAll (m : InlineMethod) {l : Ledger} (hroot : [] ∈ l.declared) :
    l.AllowsAll (m.before.map .plain ++ m.deeds m.path) := by
  have hpath : m.path ≠ [] := by simp [Method.path, Method.qualifier]
  obtain ⟨hentries, hentered⟩ : l.AdmitsAll [] _ ∧ _ := Ledger.admitsAll_entries m.path hroot
  have hmembers : Ledger.AdmitsAll _ [] (m.members.events m.path) :=
    Ledger.admitsAll_outline m.members hentered (fun _ ↦ hpath) (by simp)
  have hdeclared : m.path ∈ (m.before.foldl Ledger.step l).declared := by
    rw [before, List.foldl_append]
    exact Ledger.mem_declared_foldl _ hentered
  rw [Ledger.allowsAll_append, Ledger.allowsAll_plain, Ledger.foldl_deed_plain]
  refine ⟨hentries.append hmembers, ?_⟩
  rw [deeds]
  split_ifs
  · rw [Ledger.allowsAll_plain]
    exact Ledger.admitsAll_block m.body hdeclared
  · refine ⟨?_, trivial⟩
    change m.type.base m.path ∈ _
    rw [TypeName.base]
    split_ifs
    · exact Ledger.mem_declared_foldl _ hroot
    · exact hdeclared

end InlineMethod

namespace Extractor

/-- What the report on a text says, but for the lines. -/
def told (e : Extractor) (path : Path) (source : String) : List Message × List Diagnostic :=
  ((e.extractSource path source).1.messages.map Message.unlined,
    (e.extractSource path source).1.diagnostics.map Diagnostic.unlined)

/-- The report on a text that spells an outline and then a method in the body of its class. -/
theorem told_inline {e : Extractor} {path : Path} {o : Outline false} {m : InlineMethod}
    {source : String} (hnew : isParsed e.cache path.clean = false)
    (hempty : e.cache.messagesOf path.clean = []) (htr : e.options.calls.lookup "tr" = some .tr)
    (hnames : ∀ name ∈ m.name.word :: (m.members.functionNames ++ o.functionNames),
      e.options.calls.lookup name = none)
    (hspell : Spells false (o.tokens ++ m.tokens) source.toList) :
    e.told path source =
      (({} : Ledger).allMessages path.clean.text (o.events [] ++ m.before) ++ m.body.texts.map
          (.plain path.clean.text (m.context ((o.events [] ++ m.before).foldl Ledger.step {}))),
        ({} : Ledger).allDiagnostics path.clean.text (o.events [] ++ m.before) ++
          m.complaints ((o.events [] ++ m.before).foldl Ledger.step {}) path.clean.text) := by
  have hbalanced := o.balanced_tokens.append m.balanced_tokens
  obtain ⟨hcarries, htrailing⟩ := Stream.carries_ofText hspell
    (List.forall_mem_append.2 ⟨o.isPlain_of_mem_tokens, m.isPlain_of_mem_tokens⟩)
    (hbalanced {}).1 (hbalanced {}).2
  have houtline : ∀ name ∈ o.functionNames, e.options.calls.lookup name = none := fun name h ↦
    hnames name (List.mem_cons_of_mem _ (List.mem_append_right _ h))
  have hmethod : ∀ name ∈ m.name.word :: m.members.functionNames,
      e.options.calls.lookup name = none := fun name h ↦
    hnames name (List.cons_subset_cons _ (List.subset_append_left _ _) h)
  have htells (includer : Parser.Includer) : Parser.Tells includer e.options
      ⟨.between [] [], {}, o.tokens ++ m.tokens ++ [.eof]⟩
      ((o.events [] ++ m.before).map .plain ++ m.deeds m.path) ⟨.between [] [], {}, [.eof]⟩ := by
    rw [List.map_append, List.append_assoc, List.append_assoc]
    exact (Parser.reads_outline htr o houtline (fun _ ↦ rfl) (by simp)).tells.trans
      (Parser.tells_inline htr m hmethod (by simp))
  have hallows : ({} : Ledger).AllowsAll
      ((o.events [] ++ m.before).map .plain ++ m.deeds m.path) := by
    rw [List.map_append, List.append_assoc, Ledger.allowsAll_append, Ledger.allowsAll_plain,
      Ledger.foldl_deed_plain]
    exact ⟨Ledger.admitsAll_outline o (by simp) (by simp) (by simp),
      m.allowsAll (Ledger.mem_declared_foldl _ (by simp))⟩
  obtain ⟨-, -, hcache, hmessages, hdiagnostics⟩ :=
    readSource_of_tells hcarries htrailing htells hallows
  rw [Ledger.allDeedMessages_append, Ledger.allDeedMessages_plain, Ledger.foldl_deed_plain,
    m.allDeedMessages_deeds] at hmessages
  rw [Ledger.allDeedDiagnostics_append, Ledger.allDeedDiagnostics_plain, Ledger.foldl_deed_plain,
    m.allDeedDiagnostics_deeds] at hdiagnostics
  rw [told, report_readSource hnew hempty hcache, hmessages, hdiagnostics]

/-- A method in the body of its class adds one message for each of its calls. They have the context
of the class, as after the type `void`, if the type of the method has no qualifier; else that of the
scope which the qualifier names. Complaints are about that scope too. -/
theorem extractSource_inline (e : Extractor) (path : Path) (o : Outline false) (m : InlineMethod)
    (source plain : String) (hnew : isParsed e.cache path.clean = false)
    (hempty : e.cache.messagesOf path.clean = []) (htr : e.options.calls.lookup "tr" = some .tr)
    (hnames : ∀ name ∈ m.name.word :: (m.members.functionNames ++ o.functionNames),
      e.options.calls.lookup name = none)
    (hsource : Spells false (o.tokens ++ m.tokens) source.toList)
    (hplain : Spells false (o.tokens ++ { m with type := .void }.tokens) plain.toList) :
    let file := path.clean.text
    let earlier := o.events [] ++ m.before
    let l := earlier.foldl Ledger.step {}
    e.told path source =
        (({} : Ledger).allMessages file earlier ++ m.body.texts.map (.plain file (m.context l)),
          ({} : Ledger).allDiagnostics file earlier ++ m.complaints l file) ∧
      e.told path plain =
        (({} : Ledger).allMessages file earlier ++
            m.body.texts.map (.plain file (l.context m.path)),
          ({} : Ledger).allDiagnostics file earlier ++
            l.allDiagnostics file (m.body.texts.map (.called m.path))) ∧
      (m.type.qualifier = [] ∨ m.body.texts = [] → e.told path source = e.told path plain) := by
  intro file earlier l
  have htold := told_inline hnew hempty htr hnames hsource
  have hvoid : e.told path plain =
      (({} : Ledger).allMessages file earlier ++ m.body.texts.map (.plain file (l.context m.path)),
        ({} : Ledger).allDiagnostics file earlier ++
          l.allDiagnostics file (m.body.texts.map (.called m.path))) :=
    @told_inline e path o { m with type := .void } plain hnew hempty htr hnames hplain
  refine ⟨htold, hvoid, fun hquiet ↦ ?_⟩
  rw [htold, hvoid]
  rcases hquiet with hunqualified | hsilent
  · have hwords : m.type.words = [] := by rw [TypeName.words, hunqualified, List.map_nil]
    rw [InlineMethod.context, InlineMethod.complaints, if_pos hwords, if_pos (.inl hwords)]
  · rw [InlineMethod.complaints, if_pos (.inr hsilent), hsilent]
    rfl

theorem spells_inline (m : InlineMethod) :
    Spells false ((.done : Outline false).tokens ++ m.tokens)
      (String.ofList (spaced m.tokens)).toList := by
  rw [String.toList_ofList]
  exact spells_spaced _ _

/-- A method of a class that supports translation, with a type from the namespaces around it. -/
def drawMethod : InlineMethod where
  spaces := [(⟨"app", Eq.refl true⟩, [⟨"ui", Eq.refl true⟩])]
  first := ⟨"Box", Eq.refl true⟩
  more := []
  name := ⟨"draw", Eq.refl true⟩
  body := .call (.of "Draw" (Eq.refl true)) .done
  members := .marker .done
  type := ⟨true, [⟨"app", Eq.refl true⟩, ⟨"ui", Eq.refl true⟩], ⟨"View", Eq.refl true⟩⟩

theorem extractSource_inline_draw :
    let told := fun m : InlineMethod ↦ ({} : Extractor).told ⟨"box.cpp"⟩
      (String.ofList (spaced m.tokens))
    let plain := { drawMethod with type := .void }
    let global := { drawMethod with type := ⟨true, [], ⟨"View", Eq.refl true⟩⟩ }
    told drawMethod = ([.plain "box.cpp" "app::ui" "Draw"], [.missingSupport "box.cpp" "app::ui"]) ∧
      told plain = ([.plain "box.cpp" "app::ui::Box" "Draw"], []) ∧ told global = told plain := by
  intro told plain global
  have hqualified := extractSource_inline {} ⟨"box.cpp"⟩ .done drawMethod _ _ rfl rfl (by decide)
    (by decide) (spells_inline _) (spells_inline _)
  have hglobal := extractSource_inline {} ⟨"box.cpp"⟩ .done global _ _ rfl rfl (by decide)
    (by decide) (spells_inline _) (spells_inline _)
  refine ⟨hqualified.1.trans ?_, hqualified.2.1.trans ?_, hglobal.2.2 (.inl rfl)⟩
  · decide +kernel
  · decide +kernel

/-- `class A { std::string f() { tr("s"); } };` -/
def nameMethod : InlineMethod where
  spaces := []
  first := ⟨"A", Eq.refl true⟩
  more := []
  name := ⟨"f", Eq.refl true⟩
  body := .call (.of "s" (Eq.refl true)) .done
  members := .done
  type := ⟨false, [⟨"std", Eq.refl true⟩], ⟨"string", Eq.refl true⟩⟩

/-- The return type of a method changes the context of its calls. -/
theorem told_nameMethod :
    let told := fun m : InlineMethod ↦ ({} : Extractor).told ⟨"main.cpp"⟩
      (String.ofList (spaced m.tokens))
    told nameMethod =
        ([.plain "main.cpp" "std" "s"], [.unknownQualifier "main.cpp" "::std"]) ∧
      told { nameMethod with type := .void } =
        ([.plain "main.cpp" "A" "s"], [.missingSupport "main.cpp" "A"]) := by
  intro told
  refine ⟨(told_inline rfl rfl (by decide) (by decide) (spells_inline _)).trans ?_,
    (told_inline rfl rfl (by decide) (by decide) (spells_inline _)).trans ?_⟩
  · decide +kernel
  · decide +kernel

end Extractor

end Harvest
