import Harvest.Proofs.Extract.Contexts

/-!
# Inclusion of a header

A header that spells an outline is read once, on its own, and its scopes are looked up from the
including file. Main statement: the messages of a file that includes the header are those that the
text of the header followed by the rest of the file would give after the messages of the header, as
long as the file marks no class that the header has declared.
-/

namespace Harvest

/-- The text of a file that includes another one and goes on with `text`. -/
def including (written text : String) : String := "#include \"" ++ written ++ "\"\n" ++ text

theorem toList_including (written text : String) :
    (including written text).toList = ['#', 'i', 'n', 'c', 'l', 'u', 'd', 'e', ' ', '"'] ++
      (written.toList ++ '"' :: '\n' :: text.toList) := by
  simp [including]

theorem spells_cons_newline {ts : List Token} {cs : List Char} (h : Spells false ts cs) :
    Spells false ts ('\n' :: cs) := by
  have hlonger : ∀ gap, isSpacing gap = true → isSpacing ('\n' :: gap) = true := by
    intro gap hgap
    simpa [isSpacing, Lexeme.isSpace] using hgap
  cases h with
  | blank hgap => exact .blank (hlonger _ hgap)
  | token hgap _ hrest => exact .token (hlonger _ hgap) (by simp) hrest

namespace Lexeme

/-- The written path of an include is read up to its closing quote. -/
theorem includeToken_reads {gs : List Glyph} {written : String} {rest : List Char}
    (hgs : gs.map Glyph.char =
      ['c', 'l', 'u', 'd', 'e', ' ', '"'] ++ (written.toList ++ '"' :: rest))
    (hwritten : written.toList.all Token.isLiteralChar = true) :
    ∃ left, includeToken gs = (some (.quotedInclude written), left) ∧
      left.map Glyph.char = rest := by
  have hword : gs.map Glyph.char =
      ['c', 'l', 'u', 'd', 'e'] ++ ' ' :: '"' :: (written.toList ++ '"' :: rest) := hgs
  obtain ⟨-, hskip⟩ := take_skip_of_append (p := fun c ↦ !isSpace c && c ≠ '"' && c ≠ '<') hword
    (List.all_eq_true.1 (by decide)) (by simp [isSpace])
  have hgap : (skip (fun c ↦ !isSpace c && c ≠ '"' && c ≠ '<') gs).map Glyph.char =
      [' '] ++ '"' :: (written.toList ++ '"' :: rest) := hskip
  obtain ⟨-, hpath⟩ := take_skip_of_append (p := isSpace) hgap (List.all_eq_true.1 (by decide))
    (by simp [isSpace])
  obtain ⟨quote, path, heq, hquote, hbody⟩ := List.map_eq_cons_iff.1 hpath
  have hall : ∀ c ∈ written.toList, (c ≠ '"' && c ≠ '\n') = true := by
    intro c hc
    have hliteral := List.all_eq_true.1 hwritten c hc
    simp_all [Token.isLiteralChar]
  obtain ⟨htake, hclosed⟩ := take_skip_of_append (p := fun c ↦ c ≠ '"' && c ≠ '\n') hbody hall
    (by simp)
  obtain ⟨closing, left, hleft, hclosing, hrest⟩ := List.map_eq_cons_iff.1 hclosed
  refine ⟨left, ?_, hrest⟩
  simp only [includeToken, heq, char?, List.head?_cons, Option.map_some, hquote, List.tail_cons,
    htake, String.ofList_toList, hleft, hclosing, if_true]

/-- The line of an include is one token. -/
theorem next_include {g : Glyph} {gs : List Glyph} {written : String} {rest : List Char}
    (hleads : g.leads = true)
    (hgs : (g :: gs).map Glyph.char = ['#', 'i', 'n', 'c', 'l', 'u', 'd', 'e', ' ', '"'] ++
      (written.toList ++ '"' :: rest))
    (hwritten : written.toList.all Token.isLiteralChar = true) :
    ∃ left, next g gs = ⟨.token (.quotedInclude written), none, left⟩ ∧
      left.map Glyph.char = rest := by
  obtain ⟨hhash, hline⟩ := List.cons.inj hgs
  obtain ⟨i, gs, rfl, hi, hline⟩ := List.map_eq_cons_iff.1 hline
  obtain ⟨n, gs, rfl, hn, hline⟩ := List.map_eq_cons_iff.1 hline
  obtain ⟨left, hread, hleft⟩ := includeToken_reads hline hwritten
  refine ⟨left, ?_, hleft⟩
  have hgap : isGap 'i' = false := by decide
  simp [next, hhash, hleads, directive, skip, hi, hgap, char?, hn, hread]

end Lexeme

/-- Reading a file that includes another one and goes on with balanced tokens. -/
theorem Stream.carries_including_tokens {written text : String} {ts : List Token}
    (hwritten : written.toList.all Token.isLiteralChar = true)
    (hspell : Spells false ts text.toList) (hplain : ∀ t ∈ ts, t.isPlain = true)
    (hsafe : ({} : Depths).Safe ts) (hclosed : ts.foldl Depths.after {} = {}) :
    Carries {} (.quotedInclude written :: (ts ++ [.eof]))
        (ofText (including written text)).items ∧
      (ofText (including written text)).trailing = [] := by
  have hrest := spells_cons_newline hspell
  obtain ⟨hslash, hreturn⟩ := spells_printable hrest hplain
  have hliteral := List.all_eq_true.1 hwritten
  have hglyphs : (Glyph.ofText (including written text)).map Glyph.char =
      (including written text).toList := by
    apply Glyph.map_char_read
    · rw [toList_including]
      simp only [List.mem_append, List.mem_cons, not_or] at hslash ⊢
      exact ⟨by decide, fun h ↦ absurd (hliteral _ h) (by decide), by decide, hslash⟩
    · rw [toList_including]
      simp only [List.mem_append, List.mem_cons, not_or] at hreturn ⊢
      exact ⟨by decide, fun h ↦ absurd (hliteral _ h) (by decide), by decide, hreturn⟩
  have hlexed : Lexed (.quotedInclude written :: ts)
      (Lexeme.scan (Glyph.ofText (including written text))) := by
    obtain ⟨g, gs, hg, hleads⟩ : ∃ g gs, Glyph.ofText (including written text) = g :: gs ∧
        g.leads = true := by
      rw [Glyph.ofText, toList_including]
      exact ⟨_, _, rfl, rfl⟩
    rw [hg, toList_including] at hglyphs
    obtain ⟨left, hnext, hleft⟩ := Lexeme.next_include hleads hglyphs hwritten
    rw [hg, Lexeme.scan, hnext]
    exact .token rfl rfl (Lexeme.lexed_scan hrest hplain hleft)
  obtain ⟨hitems, hafter⟩ := Nesting.carries_items hlexed (n := {}) 1 rfl rfl ⟨by simp, hsafe⟩
  refine ⟨hitems, ?_⟩
  have hbalanced : (Nesting.after {} (Lexeme.scan (Glyph.ofText (including written text)))).depths =
      {} := hafter.trans hclosed
  simp [ofText, ofLexemes, Nesting.unbalanced, hbalanced]

/-- Reading a file that includes another one and goes on with an outline. -/
theorem Stream.carries_including {written text : String} {o : Outline false}
    (hwritten : written.toList.all Token.isLiteralChar = true)
    (hspell : Spells false o.tokens text.toList) :
    Carries {} (.quotedInclude written :: (o.tokens ++ [.eof]))
        (ofText (including written text)).items ∧
      (ofText (including written text)).trailing = [] :=
  carries_including_tokens hwritten hspell o.isPlain_of_mem_tokens (o.balanced_tokens {}).1
    (o.balanced_tokens {}).2

namespace Forest

variable {f : Forest} {t h : Nat}

/-- A file with one include that includes nothing is looked up in two trees. -/
theorem order_of_one_include {id : Nat} (ht : t < f.trees.size)
    (htree : (f.tree t).includes = [(id, h)]) (hheader : (f.tree h).includes = []) :
    f.order t = [t, h] := by
  have hincluded : f.included t = [h] := by rw [included, htree]; rfl
  have hfresh : f.fileId h ∈ f.includedIds :=
    List.mem_flatMap.2 ⟨t, List.mem_range.2 ht, by rw [hincluded]; exact List.mem_singleton_self _⟩
  rw [order, hincluded, preorder_cons, if_pos hfresh, included, hheader]
  rw [List.map_nil, List.nil_append, preorder_nil]

namespace Bare

theorem lt_size (hbare : f.Bare t) : t < f.trees.size := hbare.has_root.tree_lt

theorem order_addInclude (hbare : f.Bare t) (hne : h ≠ t) (hheader : (f.tree h).includes = []) :
    (f.addInclude t h).order t = [t, h] := by
  have hincludes : ((f.addInclude t h).tree t).includes = [((f.tree h).fileId, h)] := by
    rw [tree_addInclude hbare.lt_size, if_pos rfl, hbare.includes]
    rfl
  apply order_of_one_include _ hincludes
  · rw [tree_addInclude hbare.lt_size, if_neg hne, hheader]
  · simpa [addInclude, modifyTree] using hbare.lt_size

/-- But for the global scope, what the file finds is what the header finds. -/
theorem find?_addInclude (hbare : f.Bare t) (hne : h ≠ t) (hheader : (f.tree h).includes = [])
    (p : List String) :
    (f.addInclude t h).find? t p = if p = [] then some ⟨t, 0⟩ else f.find? h p := by
  rw [Forest.find?_eq, hbare.order_addInclude hne hheader, walk_addInclude hbare.lt_size,
    hbare.walk_eq, find?_of_no_includes hheader]
  split_ifs
  · rfl
  · simp [walk_addInclude hbare.lt_size]

end Bare

/-- A file that has said nothing of its own has the scopes of the header that it includes. -/
theorem tracks_addInclude {l : Ledger} (hbare : f.Bare t) (hne : h ≠ t)
    (hheader : (f.tree h).includes = []) (htracks : f.Tracks h [] l) (hmarked : [] ∉ l.marked)
    (hcomplained : [] ∉ l.complained) : (f.addInclude t h).Tracks t l.declared l := by
  have hsize := hbare.lt_size
  have horder := hbare.order_addInclude hne hheader
  have hfind := hbare.find?_addInclude hne hheader
  have hscope := scope_addInclude (h := h) hsize
  have hdefinition := definition_addInclude (h := h) hsize
  have htrees : ∀ p r, f.find? h p = some r → (f.definition r).tree = h := by
    intro p r hr
    have hhome := htracks.home p r hr
    rw [order_of_no_includes hheader] at hhome
    exact List.mem_singleton.1 hhome
  have hcases : ∀ p r, (f.addInclude t h).find? t p = some r →
      p = [] ∧ r = ⟨t, 0⟩ ∨ p ≠ [] ∧ f.find? h p = some r := by
    intro p r hr
    rw [hfind] at hr
    split_ifs at hr with hp
    · exact .inl ⟨hp, (Option.some.inj hr).symm⟩
    · exact .inr ⟨hp, hr⟩
  exact {
    apart := by simpa [horder] using Ne.symm hne
    inherits := by
      intro u hu p hp
      rw [horder, List.tail_cons, List.mem_singleton] at hu
      rw [hu, walk_addInclude hsize, ← find?_of_no_includes hheader] at hp
      exact (htracks.found p).1 hp
    found := by
      intro p
      rw [hfind]
      split_ifs with hp
      · simpa [hp] using htracks.root_declared
      · exact htracks.found p
    has := by
      intro p r hr
      rw [hdefinition, has_addInclude hsize, has_addInclude hsize]
      rcases hcases p r hr with ⟨-, rfl⟩ | ⟨-, hr⟩
      · exact ⟨hbare.has_root, hbare.definition_root.symm ▸ hbare.has_root⟩
      · exact htracks.has p r hr
    home := by
      intro p r hr
      rw [hdefinition, horder]
      rcases hcases p r hr with ⟨-, rfl⟩ | ⟨-, hr⟩
      · simp [hbare.definition_root]
      · simp [htrees p r hr]
    fits := by
      intro p r hr
      rw [hdefinition, hscope]
      rcases hcases p r hr with ⟨rfl, rfl⟩ | ⟨-, hr⟩
      · rw [hbare.definition_root, hbare.scope_root]
        exact ⟨by simpa using hmarked, by simpa using hcomplained, by simp, rfl⟩
      · exact htracks.fits p r hr
    bases := by
      intro p r hr
      rw [hscope]
      rcases hcases p r hr with ⟨-, rfl⟩ | ⟨-, hr⟩
      · rw [hbare.scope_root]
      · exact htracks.bases p r hr
    distinct := by
      intro p q r s hr hs heq
      rw [hdefinition, hdefinition] at heq
      rcases hcases p r hr with ⟨hp, rfl⟩ | ⟨-, hr⟩ <;>
        rcases hcases q s hs with ⟨hq, rfl⟩ | ⟨-, hs⟩
      · rw [hp, hq]
      · rw [hbare.definition_root] at heq
        exact absurd ((htrees q s hs).symm.trans (congrArg ScopeRef.tree heq.symm)) hne
      · rw [hbare.definition_root] at heq
        exact absurd ((htrees p r hr).symm.trans (congrArg ScopeRef.tree heq)) hne
      · exact htracks.distinct p q r s hr hs heq
    own := by
      intro p r hr hp
      rw [walk_addInclude hsize, hbare.walk_eq] at hr
      split_ifs at hr with hnil
      exact absurd (hnil ▸ htracks.root_declared) hp
    marked := htracks.marked
    complained := htracks.complained }

end Forest

namespace IncludeCache

/-- The messages of other files stay. -/
theorem messagesOf_setMessages_of_not_same {c : IncludeCache} {path other : Path}
    (h : other.same path = false) (messages : List Message) :
    (c.setMessages other messages).messagesOf path = c.messagesOf path := by
  cases messages with
  | nil => rfl
  | cons m messages =>
    have hother : path.same other = false := by
      simp only [Path.same, decide_eq_false_iff_not] at h ⊢
      exact Ne.symm h
    have hkept : ∀ q : Path × List Message,
        (!other.same q.1 && path.same q.1) = path.same q.1 := by
      intro q
      simp only [Path.same, decide_eq_false_iff_not] at h ⊢
      by_cases hq : path.parts = q.1.parts
      · simp [← hq, h]
      · simp [hq]
    simp [setMessages, messagesOf, hother, List.find?_filter, hkept]

end IncludeCache

namespace Parser

/-- The include of `written` in `file` finds a header that is to be read on its own, and its text:
it is not excluded, was not read before, and is not the file itself. -/
structure IncludesAlone (options : Options) (files : FileTree) (cache : IncludeCache) (file : Path)
    (written : String) (found : Path) (source : String) : Prop where
  resolves : resolveInclude files file written true options.includePaths = some found
  included : options.excludes found.clean = false
  unread : Extractor.isParsed cache found.clean = false
  isHeader : found.clean.isHeader = true
  apart : found.clean.same file = false
  text : files.readText found.clean = .ok source

theorem followInclude_alone (read : Parser → Parser) {p : Parser} {written source : String}
    {found : Path}
    (h : IncludesAlone p.options p.files p.session.cache p.file written found source)
    (hstack : p.stack = [p.file]) (hsnapshot : p.snapshot = {}) :
    followInclude read found p =
      (includeAlone read found.clean source p).clearProspective.clearPending := by
  have hunread := h.unread
  simp only [Extractor.isParsed, Bool.or_eq_false_iff, Bool.not_eq_false'] at hunread
  simp [followInclude, h.included, hstack, h.apart, h.isHeader, h.text, hsnapshot, hunread]

theorem forest_store (session : Session) (file : Path) (d : Detached) (header : Bool) :
    (store session file d header).forest = session.forest := by
  cases header <;> rfl

/-- A header that includes nothing stands for itself. -/
theorem representative_of_no_includes {forest : Forest} {d : Detached}
    (h : (forest.tree d.tree).includes = []) : representative forest d = d.tree := by
  simp [representative, h]

/-- What a parser is left with after including a header that spells an outline: it has the scopes
of the header, and its own state is as before. -/
theorem includeAlone_outline {p : Parser} {source : String} {o : Outline false}
    (path : Path) (hspell : Spells false o.tokens source.toList)
    (htr : p.options.calls.lookup "tr" = some .tr)
    (hnames : ∀ name ∈ o.functionNames, p.options.calls.lookup name = none) (depth : Nat)
    (hbare : p.session.forest.Bare p.tree) :
    ∃ session, includeAlone (parse depth) path source p = { p with session } ∧
      session.forest.Tracks p.tree ((o.events []).foldl Ledger.step {}).declared
        ((o.events []).foldl Ledger.step {}) ∧
      session.cache.blacklist = p.session.cache.blacklist ∧
      ∀ other : Path, path.same other = false →
        session.cache.messagesOf other = p.session.cache.messagesOf other := by
  obtain ⟨d, s, hd⟩ : ∃ d s, (d, s) =
      detached (parse depth) p.options p.files path source (p.stack ++ [path]) p.session :=
    ⟨_, _, rfl⟩
  obtain ⟨htree, -, hcache, hyield⟩ :=
    detached_outline hspell htr hnames depth p.files path _ p.session hd
  have hadmits : ({} : Ledger).AdmitsAll [] (o.events []) :=
    Ledger.admitsAll_outline o (by simp) (by simp) (by simp)
  have hroot := Ledger.root_not_mem hadmits (by simp) (by simp)
  obtain ⟨htracks, -, -, hwithin⟩ := Forest.Tracks.run
    (y := ⟨p.session.forest.plant p.session.cache.nextFileId, [], _⟩)
    (Forest.bare_plant p.session.forest p.session.cache.nextFileId).tracks path.text hadmits
  have hforest : s.forest = _ := congrArg Yield.forest hyield
  have hplant := Forest.bare_plant p.session.forest p.session.cache.nextFileId
  have hne : p.session.forest.trees.size ≠ p.tree := Nat.ne_of_gt hbare.lt_size
  -- Reading the header leaves the includer's tree alone and gives the header no includes.
  have horder : (p.session.forest.plant p.session.cache.nextFileId).order
      p.session.forest.trees.size = [p.session.forest.trees.size] :=
    Forest.order_of_no_includes hplant.includes
  have htree' : s.forest.tree p.tree = p.session.forest.tree p.tree := by
    rw [hforest,
      ← Forest.tree_plant_of_ne p.session.forest p.session.cache.nextFileId (Ne.symm hne)]
    apply hwithin.trees
    simpa [horder] using Ne.symm hne
  have hincludes : (s.forest.tree d.tree).includes = [] := by
    rw [hforest, htree, hwithin.files.includes, hplant.includes]
  have hshown : (s.forest.addInclude p.tree d.tree).Tracks p.tree
      ((o.events []).foldl Ledger.step {}).declared ((o.events []).foldl Ledger.step {}) := by
    rw [hforest, htree] at hincludes ⊢
    rw [hforest] at htree'
    exact Forest.tracks_addInclude (hbare.congr htree') hne hincludes htracks hroot.1 hroot.2
  refine ⟨{ store s path d true with forest := s.forest.addInclude p.tree d.tree }, ?_, hshown, ?_,
    ?_⟩
  · simp only [includeAlone, ← hd]
    rw [representative_of_no_includes (by rw [forest_store, hincludes])]
    rfl
  · exact (blacklist_store s path d true).trans (by rw [hcache])
  · intro other hother
    rw [IncludeCache.messagesOf, messages_store, ← IncludeCache.messagesOf,
      IncludeCache.messagesOf_setMessages_of_not_same hother, hcache]
    rfl

theorem turn_quotedInclude {includer : Includer} {p : Parser} {written : String} {found : Path}
    (hresolve : resolveInclude p.files p.file written true p.options.includePaths = some found)
    (l : Nat) (is : List Item) :
    (p.load (⟨[], .quotedInclude written, l, {}⟩ :: is)).turn includer =
      (includer found (p.load (⟨[], .quotedInclude written, l, {}⟩ :: is))).advance := by
  have hturn : (p.load (⟨[], .quotedInclude written, l, {}⟩ :: is)).turn includer =
      (p.load (⟨[], .quotedInclude written, l, {}⟩ :: is)).onInclude includer written true := by
    simp [turn, load]
  have hfound : resolveInclude (p.load (⟨[], .quotedInclude written, l, {}⟩ :: is)).files
      (p.load (⟨[], .quotedInclude written, l, {}⟩ :: is)).file written true
      (p.load (⟨[], .quotedInclude written, l, {}⟩ :: is)).options.includePaths = some found :=
    hresolve
  rw [hturn, onInclude, hfound]

/-- A parser goes on after an include with the session that reading the included file has left. -/
def resume (p : Parser) (session : Session) : Parser :=
  { p with session }.clearProspective.clearPending

theorem Stands.resume {p : Parser} (hp : p.Stands {}) (session : Session) :
    (p.resume session).Stands {} := by
  refine ⟨?_, hp.statement, rfl, hp.remarks⟩
  change { p.snapshot with pending := "" } = _
  rw [hp.snapshot]

section Include

variable {p : Parser} {written source : String} {found : Path} {o m : Outline false}

/-- One turn takes a parser that has said nothing yet past the include of a header. -/
theorem reaches_include {l l' : Nat} {t : Token} {d : Depths} (is : List Item)
    (hp : p.Stands {})
    (h : IncludesAlone p.options p.files p.session.cache p.file written found source)
    (hstack : p.stack = [p.file]) (hsource : Spells false o.tokens source.toList)
    (htr : p.options.calls.lookup "tr" = some .tr)
    (hnames : ∀ name ∈ o.functionNames, p.options.calls.lookup name = none) (depth : Nat)
    (hbare : p.session.forest.Bare p.tree) :
    ∃ session, Reaches (followInclude (parse depth))
        (p.load (⟨[], .quotedInclude written, l, {}⟩ :: ⟨[], t, l', d⟩ :: is))
        ((p.resume session).load (⟨[], t, l', d⟩ :: is)) ∧
      session.forest.Tracks p.tree ((o.events []).foldl Ledger.step {}).declared
        ((o.events []).foldl Ledger.step {}) ∧
      session.cache.blacklist = p.session.cache.blacklist ∧
      ∀ other : Path, found.clean.same other = false →
        session.cache.messagesOf other = p.session.cache.messagesOf other := by
  obtain ⟨session, hinclude, htracks, hblacklist, hmessages⟩ := includeAlone_outline
    (p := p.load (⟨[], .quotedInclude written, l, {}⟩ :: ⟨[], t, l', d⟩ :: is)) found.clean
    hsource htr hnames depth hbare
  have halone := followInclude_alone (parse depth)
    (p := p.load (⟨[], .quotedInclude written, l, {}⟩ :: ⟨[], t, l', d⟩ :: is))
    h hstack hp.snapshot
  have hturn : (p.load (⟨[], .quotedInclude written, l, {}⟩ :: ⟨[], t, l', d⟩ :: is)).turn
      (followInclude (parse depth)) = (p.resume session).load (⟨[], t, l', d⟩ :: is) := by
    rw [turn_quotedInclude h.resolves, halone, hinclude]
    rfl
  exact ⟨session, .of_turn (by simp) hturn (by simp) (by simp), htracks, hblacklist, hmessages⟩

/-- The events of an outline make sense after those of another one of whose paths it marks none. -/
theorem admitsAll_after
    (hmarked : ∀ path, .marked path ∈ m.events [] → .entered path ∉ o.events []) :
    ((o.events []).foldl Ledger.step {}).AdmitsAll
      ((o.events []).foldl Ledger.step {}).declared (m.events []) := by
  apply Ledger.admitsAll_outline m (Ledger.mem_declared_foldl _ (by simp)) (by simp)
  intro path hpath hne
  simpa [Ledger.mem_declared_foldl_iff, hne] using hmarked path hpath

/-- A file that includes a header and goes on with an outline is read with the ledger of the
header. -/
theorem run_including {l : Nat} {is : List Item} (hp : p.ready.Stands {})
    (hrest : p.rest = ⟨[], .quotedInclude written, l, {}⟩ :: is)
    (his : Carries {} (m.tokens ++ [.eof]) is) (htrailing : p.trailing = [])
    (h : IncludesAlone p.options p.files p.session.cache p.file written found source)
    (hstack : p.stack = [p.file]) (hsource : Spells false o.tokens source.toList)
    (htr : p.options.calls.lookup "tr" = some .tr)
    (honames : ∀ name ∈ o.functionNames, p.options.calls.lookup name = none)
    (hmnames : ∀ name ∈ m.functionNames, p.options.calls.lookup name = none)
    (hmarked : ∀ path, .marked path ∈ m.events [] → .entered path ∉ o.events []) (depth : Nat)
    (hbare : p.session.forest.Bare p.tree) :
    let r := p.run (followInclude (parse depth))
    r.messages.toList.map Message.unlined = p.messages.toList.map Message.unlined ++
        ((o.events []).foldl Ledger.step {}).allMessages p.file.text (m.events []) ∧
      r.session.cache.blacklist = p.session.cache.blacklist ∧
      r.session.cache.messagesOf p.file = p.session.cache.messagesOf p.file := by
  obtain ⟨t, ts, hts⟩ := List.exists_cons_of_ne_nil (show m.tokens ++ [.eof] ≠ [] by simp)
  obtain ⟨l', is', rfl, -⟩ : Carries {} (t :: ts) is := hts ▸ his
  obtain ⟨session, hreach, htracks, hblacklist, hmessages⟩ :=
    reaches_include (p := p.ready) (l := l) (t := t) is' hp h hstack hsource htr honames depth hbare
  have hq : (p.ready.resume session).IsAt (⟨[], t, l', ({} : Depths).after t⟩ :: is')
      ⟨{}, {}, m.tokens ++ [.eof]⟩ := ⟨hp.resume session, his⟩
  have hend : (p.ready.resume session).trailing = [] := by
    unfold resume clearPending clearProspective ready
    exact htrailing
  obtain ⟨-, hcache, hyield⟩ := run_of_isAt hrest (hrest.symm ▸ hreach) hq hend htr hmnames
  obtain ⟨-, hreported, -, -⟩ := Forest.Tracks.run (y := (p.ready.resume session).yield) htracks
    p.file.text (admitsAll_after hmarked)
  refine ⟨(congrArg Yield.messages hyield).trans hreported, ?_, ?_⟩
  · rw [hcache]
    exact hblacklist
  · rw [hcache]
    exact hmessages p.file h.apart

end Include

end Parser

namespace FileTree

/-- A file that holds the bytes of a text is read as that text. -/
theorem readText_of_resolve {t : FileTree} {path : Path} {location : Location} {cs : List Char}
    (hresolve : t.resolve path = .ok location)
    (hentry : t.entry? location = some (.file ⟨(Text.Utf8.encode cs).toArray⟩)) :
    t.readText path = .ok (String.ofList cs) := by
  have hread : t.read path = .ok ⟨(Text.Utf8.encode cs).toArray⟩ := by
    simp [read, hresolve, hentry, bind, Except.bind]
  simp [readText, hread, Except.map, Text.Utf8.decode_encode]

end FileTree

namespace Extractor

variable {e : Extractor} {main found : Path} {written source text : String} {o m : Outline false}

/-- Extraction from a file that includes a header and goes on with an outline. -/
theorem messages_including (hnew : isParsed e.cache main.clean = false)
    (hempty : e.cache.messagesOf main.clean = [])
    (hwritten : written.toList.all Token.isLiteralChar = true)
    (h : Parser.IncludesAlone e.options e.files e.cache main.clean written found source)
    (htr : e.options.calls.lookup "tr" = some .tr)
    (honames : ∀ name ∈ o.functionNames, e.options.calls.lookup name = none)
    (hmnames : ∀ name ∈ m.functionNames, e.options.calls.lookup name = none)
    (hsource : Spells false o.tokens source.toList) (htext : Spells false m.tokens text.toList)
    (hmarked : ∀ path, .marked path ∈ m.events [] → .entered path ∉ o.events []) :
    (e.extractSource main (including written text)).1.messages.map Message.unlined =
      ((o.events []).foldl Ledger.step {}).allMessages main.clean.text (m.events []) := by
  obtain ⟨⟨l, is, hitems, his⟩, htrailing⟩ := Stream.carries_including hwritten htext
  obtain ⟨depth, hdepth⟩ : ∃ depth, Parser.depthLimit = depth + 1 :=
    Parser.depthLimit_eq.imp' Nat.succ fun _ h ↦ h
  let session : Session :=
    { forest := e.forest.plant e.cache.nextFileId
      cache := { e.cache with nextFileId := e.cache.nextFileId + 1 } }
  have hready : (Parser.start e.options e.files main.clean (including written text) false
      [main.clean] e.forest.trees.size #[] session).ready.Stands {} := ⟨rfl, rfl, rfl, rfl⟩
  have halone : Parser.IncludesAlone e.options e.files session.cache main.clean written found
      source := { h with unread := h.unread }
  obtain ⟨hmessages, hblacklist, hkept⟩ := Parser.run_including hready hitems his htrailing halone
    rfl hsource htr honames hmnames hmarked depth (Forest.bare_plant e.forest e.cache.nextFileId)
  have hfree : e.cache.isBlacklisted main.clean = false := (Bool.or_eq_false_iff.1 hnew).2
  rw [extractSource_of_detached hnew rfl, hdepth]
  · exact hmessages
  · rw [hdepth, IncludeCache.isBlacklisted]
    exact hblacklist.symm ▸ hfree
  · rw [hdepth]
    exact hkept.trans hempty

/-- Including a header is like having its text in place. A file that includes the header is reported
with the ledger that the header leaves; its messages are those that the text of the header with the
text of the file after it has after the messages of the header. -/
theorem extractSource_including (e : Extractor) (main found : Path)
    (written source text whole : String) (o m : Outline false)
    (hnew : isParsed e.cache main.clean = false) (hempty : e.cache.messagesOf main.clean = [])
    (hwritten : written.toList.all Token.isLiteralChar = true)
    (h : Parser.IncludesAlone e.options e.files e.cache main.clean written found source)
    (htr : e.options.calls.lookup "tr" = some .tr)
    (honames : ∀ name ∈ o.functionNames, e.options.calls.lookup name = none)
    (hmnames : ∀ name ∈ m.functionNames, e.options.calls.lookup name = none)
    (hsource : Spells false o.tokens source.toList) (htext : Spells false m.tokens text.toList)
    (hwhole : Spells false (o.tokens ++ m.tokens) whole.toList)
    (hmarked : ∀ path, .marked path ∈ m.events [] → .entered path ∉ o.events []) :
    (e.extractSource main (including written text)).1.messages.map Message.unlined =
        ((o.events []).foldl Ledger.step {}).allMessages main.clean.text (m.events []) ∧
      (e.extractSource main whole).1.messages.map Message.unlined =
        (e.extractSource main source).1.messages.map Message.unlined ++
          (e.extractSource main (including written text)).1.messages.map Message.unlined := by
  have hincluding := messages_including hnew hempty hwritten h htr honames hmnames hsource htext
    hmarked
  have hnames : ∀ name ∈ (o.append m).functionNames, e.options.calls.lookup name = none := by
    intro name hname
    rw [Declarations.functionNames_append, List.mem_append] at hname
    exact hname.elim (honames name) (hmnames name)
  have hfile := extractSource_yield hnew hempty htr hnames
    (by rw [Declarations.tokens_append]; exact hwhole)
  have hfirst := extractSource_yield hnew hempty htr honames hsource
  refine ⟨hincluding, ?_⟩
  calc
    (e.extractSource main whole).1.messages.map Message.unlined
      = ({} : Ledger).allMessages main.clean.text ((o.append m).events []) :=
        hfile.1.trans (yield_outline _ _ _ _).1
    _ = ({} : Ledger).allMessages main.clean.text (o.events []) ++
          ((o.events []).foldl Ledger.step {}).allMessages main.clean.text (m.events []) := by
        rw [Declarations.events_append, Ledger.allMessages_append]
    _ = _ := by rw [hincluding, hfirst.1, (yield_outline _ _ _ _).1]

/-- A header with a marked class and a plain one. -/
def viewHeader : Outline false :=
  .namespaces ⟨"lib", by decide⟩ []
    (.classBody ⟨"Page", by decide⟩
      (.marker (.function ⟨"load", by decide⟩ (.call ⟨"Load", by decide, by decide⟩ .done) .done))
      (.classBody ⟨"Cell", by decide⟩ .done .done))
    .done

/-- Opens the scopes of the header again and marks a class of its own. -/
def viewBody : Outline false :=
  .namespaces ⟨"lib", by decide⟩ [⟨"Page", by decide⟩]
    (.function ⟨"hide", by decide⟩ (.call ⟨"Hide", by decide, by decide⟩ .done) .done)
    (.namespaces ⟨"lib", by decide⟩ []
      (.classBody ⟨"Cell", by decide⟩
        (.classBody ⟨"Inner", by decide⟩
          (.marker (.function ⟨"paint", by decide⟩
            (.call ⟨"Paint", by decide, by decide⟩ .done) .done))
          (.function ⟨"halt", by decide⟩ (.call ⟨"Halt", by decide, by decide⟩ .done) .done))
        .done)
      .done)

def viewFiles (bytes : ByteArray) : FileTree := { entries := [(["view.h"], .file bytes)] }

theorem resolve_viewFiles (bytes : ByteArray) :
    (viewFiles bytes).resolve ⟨"view.h"⟩ = .ok ["view.h"] := by
  have hsteps : FileTree.steps ⟨"view.h"⟩ = ["view.h"] := by decide
  have hstart : FileTree.start [] ⟨"view.h"⟩ = [] := by decide
  have hrefusal : FileTree.refusal? ⟨"view.h"⟩ = none := by decide
  simp [FileTree.resolve, hrefusal, viewFiles, hsteps, hstart, FileTree.maxLinks, FileTree.follow,
    FileTree.followWith, FileTree.entry?,
    Entry.isDirectory]

theorem extractSource_including_view :
    let e : Extractor :=
      { files := viewFiles ⟨(Text.Utf8.encode (spaced viewHeader.tokens)).toArray⟩ }
    let pairs := fun source : String ↦
      (e.extractSource ⟨"view.cpp"⟩ source).1.messages.map fun m ↦ (m.context, m.sourceText)
    let text := String.ofList (spaced viewBody.tokens)
    pairs (including "view.h" text) =
        [("lib::Page", "Hide"), ("lib::Cell::Inner", "Paint"), ("lib::Cell", "Halt")] ∧
      pairs (String.ofList (spaced (viewHeader.tokens ++ viewBody.tokens))) =
        pairs (String.ofList (spaced viewHeader.tokens)) ++ pairs (including "view.h" text) := by
  intro e pairs text
  have hpairs : ∀ source, pairs source = ((e.extractSource ⟨"view.cpp"⟩ source).1.messages.map
      Message.unlined).map fun m ↦ (m.context, m.sourceText) := by
    intro source
    rw [List.map_map]
    rfl
  have hspaced : ∀ ts, Spells false ts (String.ofList (spaced ts)).toList := by
    intro ts
    rw [String.toList_ofList]
    exact spells_spaced _ _
  have hfile : e.files.isFile ⟨"view.h"⟩ = true := by
    rw [FileTree.isFile, FileTree.get?, FileTree.resolve?, resolve_viewFiles]
    rfl
  have halone : Parser.IncludesAlone e.options e.files e.cache (⟨"view.cpp"⟩ : Path).clean "view.h"
      ⟨"view.h"⟩ (String.ofList (spaced viewHeader.tokens)) := {
    resolves := by
      have hcandidates : includeCandidates (⟨"view.cpp"⟩ : Path).clean "view.h" true [] =
          [⟨"view.h"⟩] := by decide
      rw [resolveInclude, show e.options.includePaths = [] from rfl, hcandidates, List.find?_cons,
        hfile]
      decide
    included := rfl
    unread := rfl
    isHeader := by decide
    apart := by decide
    text := FileTree.readText_of_resolve (resolve_viewFiles _) rfl }
  have hmarked : ∀ path, .marked path ∈ viewBody.events [] →
      .entered path ∉ viewHeader.events [] := by
    intro path hpath
    obtain rfl : path = ["lib", "Cell", "Inner"] := by
      simpa [viewBody, Declarations.events, Outline.entries, Block.events] using hpath
    decide
  obtain ⟨hincluding, hwhole⟩ := extractSource_including e ⟨"view.cpp"⟩ ⟨"view.h"⟩ "view.h"
    (String.ofList (spaced viewHeader.tokens)) text
    (String.ofList (spaced (viewHeader.tokens ++ viewBody.tokens))) viewHeader viewBody rfl rfl
    (by decide) halone (by decide) (by decide) (by decide) (hspaced _) (hspaced _) (hspaced _)
    hmarked
  constructor
  · rw [hpairs, hincluding]
    decide
  · rw [hpairs, hwhole, List.map_append, ← hpairs, ← hpairs]

end Extractor

end Harvest
