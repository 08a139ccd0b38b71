import Harvest.Proofs.Extract.Canon
import Harvest.Proofs.Extract.Reuse

/-!
# Files that are read alone

What is to be expected of a file is what an extraction of that file alone finds. This module says
under which conditions the reading of a file in any good session ends as expected, whatever other
files were read before: no file that it includes leads back to itself, the headers agree about the
scopes that they declare and leave no alias unsettled, and no include stands amid a declaration
where a header may be known. The two readings are compared token by token; the induction is along
the includes.
-/

namespace Harvest

/-- The files that a text at a path includes, apart from those that are excluded. -/
def includesIn (options : Options) (files : FileTree) (file : Path) (source : String) : List Path :=
  ((Stream.ofText source).items.filterMap fun item ↦
    (includeTarget? options files file item.token).map Path.clean).filter
      fun path ↦ !options.excludes path

theorem mem_includesIn {options : Options} {files : FileTree} {file found : Path} {source : String}
    {t : Token} (ht : t ∈ (Stream.ofText source).items.map Item.token)
    (hfound : includeTarget? options files file t = some found)
    (hincluded : options.excludes found.clean = false) :
    found.clean ∈ includesIn options files file source := by
  obtain ⟨item, hitem, rfl⟩ := List.mem_map.1 ht
  refine List.mem_filter.2 ⟨List.mem_filterMap.2 ⟨item, hitem, ?_⟩, ?_⟩
  · rw [hfound]
    rfl
  · rw [hincluded]
    rfl

namespace Extractor

variable {e : Extractor} {x y path input : Path}

/-- The text of a file; nothing for a file that cannot be read. -/
def textOf (e : Extractor) (path : Path) : String := (e.files.readText path).toOption.getD ""

theorem textOf_of_readText {source : String} (h : e.files.readText path = .ok source) :
    e.textOf path = source := by
  rw [textOf, h]
  rfl

/-- The file `x` includes the file `y`. -/
def Includes (e : Extractor) (x y : Path) : Prop :=
  y ∈ includesIn e.options e.files x (e.textOf x)

/-- The file `x` includes the file `y`, directly or not. -/
def LeadsTo (e : Extractor) : Path → Path → Prop := Relation.TransGen e.Includes

theorem Includes.clean (h : e.Includes x y) : y.clean = y := by
  obtain ⟨item, -, hitem⟩ := List.mem_filterMap.1 (List.mem_filter.1 h).1
  obtain ⟨found, -, rfl⟩ := Option.map_eq_some_iff.1 hitem
  exact found.clean_clean

theorem LeadsTo.clean (h : e.LeadsTo x y) : y.clean = y := by
  cases h with
  | single hxy => exact hxy.clean
  | tail _ hxy => exact hxy.clean

theorem Includes.included (h : e.Includes x y) : e.options.excludes y = false := by
  simpa using (List.mem_filter.1 h).2

/-- The readable files to which a file leads. -/
def below (e : Extractor) (x : Path) : Set Path := { y ∈ e.files.readable | e.LeadsTo x y }

theorem ncard_below_lt (h : e.Includes x y) (hy : y ∈ e.files.readable) (hback : ¬e.LeadsTo y y) :
    (e.below y).ncard < (e.below x).ncard := by
  apply Set.ncard_lt_ncard _ (e.files.finite_readable.subset fun _ h ↦ h.1)
  refine ⟨fun z hz ↦ ⟨hz.1, .head h hz.2⟩, fun hsub ↦ ?_⟩
  exact hback (hsub ⟨hy, .single h⟩).2

/-- None of the inputs leads to a file that includes itself, directly or not. -/
def Acyclic (e : Extractor) (inputs : List Path) : Prop :=
  ∀ input ∈ inputs, ∀ path, Relation.ReflTransGen e.Includes input path → ¬e.LeadsTo path path

/-- The parser that has read a file alone, with nothing before it. -/
def alone (e : Extractor) (path : Path) : Parser :=
  Parser.parse Parser.depthLimit
    (Parser.aloneAt e.options e.files path (e.textOf path) [path] {})

/-- What a file teaches when it is read alone. -/
def lore (e : Extractor) (path : Path) : Lore :=
  (e.alone path).session.forest.Teaches (e.alone path).tree

/-- The file `y` is read in place of an include when `x` is read alone. -/
def Inserts (e : Extractor) (x y : Path) : Prop := (e.alone x).session.cache.isBlacklisted y = true

/-- A header to which the input leads. -/
def Shares (e : Extractor) (input path : Path) : Prop := path.isHeader = true ∧ e.LeadsTo input path

/-- The input itself, or a header to which it leads. -/
def Counts (e : Extractor) (input path : Path) : Prop := path = input ∨ e.Shares input path

/-- What the headers to which an input leads teach. -/
def commonLore (e : Extractor) (input : Path) : Lore :=
  fun topic a ↦ ∃ path, e.Shares input path ∧ e.lore path topic a

/-- The parser comes up when the input is read alone, or a header to which it leads. -/
def Arises (e : Extractor) (input : Path) (p : Parser) : Prop :=
  ∃ path waiting, e.Counts input path ∧
    Stage.Reaches e (.between {} [(path, e.textOf path)]) (.reading p waiting [])

/-- The headers to which an input leads say nothing different about one topic. -/
def HeadersAgree (e : Extractor) (input : Path) : Prop := (e.commonLore input).Agrees

/-- The headers to which an input leads have settled all aliases at their end. -/
def HeadersSettle (e : Extractor) (input : Path) : Prop :=
  ∀ path, e.Shares input path → (e.alone path).session.forest.Settled (e.alone path).tree

/-- No include of a header stands amid a declaration, in the snapshot in which the header ends. -/
def IncludesCalm (e : Extractor) (input : Path) : Prop :=
  ∀ p, e.Arises input p → ∀ found, p.include? = some found → found.clean.isHeader = true →
    p.snapshot = (e.alone found.clean).snapshot → p.prospective = "" ∧ p.snapshot.pending = ""

/-- The reading of an input does not depend on what was read before. -/
structure Fit (e : Extractor) (input : Path) : Prop where
  agrees : e.HeadersAgree input
  settled : e.HeadersSettle input
  calm : e.IncludesCalm input

/-- What is expected of the files of a run on inputs, for the sake of one of them. -/
def canon (e : Extractor) (inputs : List Path) {input : Path} (hinput : input.clean = input) :
    Canon where
  files := e.files
  Insertable path := ∃ other ∈ inputs, e.LeadsTo other path
  Counts := e.Counts input
  messages path := (e.alone path).messages.toList
  Inserts := e.Inserts
  Shared := e.Shares input
  snapshot path := (e.alone path).snapshot
  lore := e.lore
  clean path hcounts := by
    rcases hcounts with rfl | ⟨-, hleads⟩
    · exact hinput
    · exact hleads.clean
  counts _ := .inr

end Extractor

namespace Bond

variable {C : Canon} {V : Lore} {opened opened' : Set Nat} {s s' s₀ s₀' : Session} {t t' : Nat}

/-- Two sessions in which the same file is being read. What was read in place of an include in the
first one was so in the second, where nothing was besides since `s₀'`. -/
structure Abreast (C : Canon) (V : Lore) (opened : Set Nat) (s₀ : Session) (opened' : Set Nat)
    (s₀' : Session) (s : Session) (t : Nat) (s' : Session) (t' : Nat) : Prop where
  kin : Forest.Kin V s.forest t s'.forest t'
  left : s₀.Tended C opened s t
  right : s₀'.Tended C opened' s' t'
  lower : ∀ y, s.cache.isBlacklisted y = true → s'.cache.isBlacklisted y = true
  upper : ∀ y, s'.cache.isBlacklisted y = true →
    s₀'.cache.isBlacklisted y = true ∨ s.cache.isBlacklisted y = true

theorem Abreast.spares (h : Abreast C V opened s₀ opened' s₀' s t s' t') {f f' : Forest}
    (hkin : Forest.Kin V f t f' t') (hspares : s.forest.Spares t f)
    (hspares' : s'.forest.Spares t' f') (diagnostics diagnostics' : Array Diagnostic) :
    Abreast C V opened s₀ opened' s₀' { s with forest := f, diagnostics := diagnostics } t
      { s' with forest := f', diagnostics := diagnostics' } t' :=
  ⟨hkin, h.left.spares hspares hkin.left.formed _, h.right.spares hspares' hkin.right.formed _,
    h.lower, h.upper⟩

theorem fair_abreast {α : Type} {ask : Forest → Nat → α × Forest}
    (hkin : ∀ {f t f' t'}, Forest.Kin V f t f' t' →
      (ask f' t').1 = (ask f t).1 ∧ Forest.Kin V (ask f t).2 t (ask f' t').2 t')
    (hspares : ∀ f t, Forest.WellFormed f → t < f.trees.size → f.Spares t (ask f t).2) :
    Fair (Abreast C V opened s₀ opened' s₀') ask := by
  intro s t s' t' h
  obtain ⟨hanswer, hafter⟩ := hkin h.kin
  exact ⟨hanswer, h.spares hafter (hspares _ _ h.kin.left.formed h.kin.left.lt)
    (hspares _ _ h.kin.right.formed h.kin.right.lt) _ _⟩

theorem attributes_abreast {ask : Forest → Nat → Context × Forest}
    (hkin : ∀ {f t f' t'}, Forest.Kin V f t f' t' →
      (ask f' t').1.text = (ask f t).1.text ∧ Forest.Kin V (ask f t).2 t (ask f' t').2 t')
    (hspares : ∀ f t, Forest.WellFormed f → f.Spares t (ask f t).2) :
    Attributes (Abreast C V opened s₀ opened' s₀') ask := by
  intro s t s' t' h
  obtain ⟨hanswer, hafter⟩ := hkin h.kin
  exact ⟨hanswer, fun d ↦ h.spares hafter (hspares _ _ h.kin.left.formed)
    (hspares _ _ h.kin.right.formed) _ _⟩

/-- The file `x` is being read in two sessions, which tell it the same. -/
def abreast (e : Extractor) (C : Canon) (hV : V.Agrees) (opened : Set Nat) (s₀ : Session)
    (opened' : Set Nat) (s₀' : Session) (stack stack' : List Path) (x : Path) : Bond where
  options := e.options
  files := e.files
  stack := stack
  stack' := stack'
  Rel := Abreast C V opened s₀ opened' s₀'
  Lists _ _ := True
  Follows found := e.options.excludes found.clean = false → e.Includes x found.clean
  qualify here count segments declaration := fair_abreast
    (fun h ↦ h.qualify hV here count segments declaration) fun f t _ _ ↦
      f.spares_qualify t here count segments declaration
  unqualifiedContext place := attributes_abreast (fun h ↦ h.unqualifiedContext hV place)
    fun _ t hformed ↦ hformed.spares_unqualifiedContext t place
  qualifiedContext place written := attributes_abreast (fun h ↦ h.qualifiedContext hV place written)
    fun _ t hformed ↦ hformed.spares_qualifiedContext t place written
  enter place := fair_abreast (fun h ↦ ⟨rfl, h.enter hV place⟩) fun _ _ hformed ht ↦
    hformed.spares_enter ht place
  modifyAt place change hlocal hchildren := fair_abreast
    (fun h ↦ ⟨rfl, h.modifyAt hV place hlocal hchildren⟩) fun _ _ hformed ht ↦
      hformed.spares_modifyAt ht place change
  report _ h := h.spares h.kin (.refl _ _) (.refl _ _) _ _
  push _ _ := trivial

/-- A session in which a file is being read, by itself. -/
def Upkeep (C : Canon) (opened : Set Nat) (s₀ : Session) (s : Session) (t : Nat) (s' : Session)
    (t' : Nat) : Prop :=
  s' = s ∧ t' = t ∧ s₀.Tended C opened s t

theorem fair_upkeep {α : Type} {ask : Forest → Nat → α × Forest}
    (hask : ∀ f t, Forest.WellFormed f → t < f.trees.size →
      f.Spares t (ask f t).2 ∧ (ask f t).2.WellFormed) : Fair (Upkeep C opened s₀) ask := by
  rintro s t _ _ ⟨rfl, rfl, h⟩
  obtain ⟨updates, hgood⟩ := h.good
  obtain ⟨hspares, hformed⟩ := hask _ _ hgood.sound.forest h.lt
  exact ⟨rfl, rfl, rfl, h.spares hspares hformed _⟩

theorem upkeep_report {d : Diagnostic} (h : Upkeep C opened s₀ s t s' t') :
    Upkeep C opened s₀ { s with diagnostics := s.diagnostics.push d } t
      { s' with diagnostics := s'.diagnostics.push d } t' := by
  obtain ⟨rfl, rfl, h⟩ := h
  obtain ⟨updates, hgood⟩ := h.good
  exact ⟨rfl, rfl, h.spares (.refl _ _) hgood.sound.forest _⟩

/-- The file `x` is being read and keeps its session good. -/
def upkeep (e : Extractor) (C : Canon) (opened : Set Nat) (s₀ : Session) (stack : List Path)
    (x : Path) : Bond where
  options := e.options
  files := e.files
  stack := stack
  stack' := stack
  Rel := Upkeep C opened s₀
  Lists _ _ := True
  Follows found := e.options.excludes found.clean = false → e.Includes x found.clean
  qualify here count segments declaration := fair_upkeep fun f t hformed _ ↦
    ⟨f.spares_qualify t here count segments declaration,
      hformed.congr (f.sameShape_qualify t here count segments declaration)⟩
  unqualifiedContext place := Fair.attributes (fair_upkeep fun f t hformed _ ↦
    ⟨hformed.spares_unqualifiedContext t place,
      hformed.congr (f.sameShape_unqualifiedContext t place)⟩) fun _ ↦ upkeep_report
  qualifiedContext place written := Fair.attributes (fair_upkeep fun f t hformed _ ↦
    ⟨hformed.spares_qualifiedContext t place written,
      hformed.congr (f.sameShape_qualifiedContext t place written)⟩) fun _ ↦ upkeep_report
  enter place := fair_upkeep fun _ _ hformed ht ↦
    ⟨hformed.spares_enter ht place, (hformed.enter ht place).1⟩
  modifyAt place change hlocal hchildren := fair_upkeep fun _ _ hformed ht ↦
    ⟨hformed.spares_modifyAt ht place change, (hformed.modifyAt ht place hlocal hchildren).1⟩
  report _ := upkeep_report
  push _ _ := trivial

end Bond

namespace Parser

variable {p q : Parser} {path : Path} {source : String} {depth : Nat}

theorem way_of_not_header (hincluded : q.options.excludes path = false)
    (hstack : q.stack.findIdx? path.same = none) (hheader : path.isHeader = false) :
    q.way path =
      match q.files.readText path with
      | .error e => .unreadable e
      | .ok source => .inPlace source := by
  cases htext : q.files.readText path <;> simp [way, hincluded, hstack, hheader, htext]

theorem way_of_header (hincluded : q.options.excludes path = false)
    (hstack : q.stack.findIdx? path.same = none) (hheader : path.isHeader = true)
    (hblacklist : q.session.cache.isBlacklisted path = false) :
    q.way path =
      if q.session.cache.results path q.snapshot = [] then
        match q.files.readText path with
        | .error e => .unreadable e
        | .ok source => .alone source
      else .known (q.session.cache.results path q.snapshot) := by
  simp only [way, hincluded, hstack, hheader, hblacklist, Bool.false_eq_true, if_false,
    Bool.not_false, Bool.true_and, if_true]
  cases q.session.cache.results path q.snapshot <;> cases q.files.readText path <;> simp

theorem frame_parse (hends : p.Ends) (hdepth : (p.files.unread p.stack).ncard < depth) :
    (p.parse depth).frame = p.frame := by
  obtain ⟨q, -, -, hfinish, hframe⟩ := Stage.simulates {} [] depth p [] hends hdepth
  rw [← hfinish, q.frame_finish, hframe]

/-- The includer takes up what a header has left. -/
theorem take_alone {parse : Parser → Parser} {r : Parser}
    (hr : parse (aloneAt q.options q.files path source (q.stack ++ [path]) q.session) = r)
    (hfile : r.file = path) (htree : r.tree = q.session.forest.trees.size) :
    (Way.alone source).take parse path q =
      { q.clearProspective.clearPending with
        session := { store r.session r.file (r.outcome r.tree) true with
          forest := r.session.forest.addInclude q.tree r.standIn } } := by
  rw [Way.take, includeAlone, detached_eq, hr, hfile, ← htree]
  rfl

theorem take_inPlace {parse : Parser → Parser} {r : Parser}
    (hr : parse (q.inPlaceAt path source) = r) :
    (Way.inPlace source).take parse path q =
      { q.clearProspective.clearPending with
        session := { r.session with cache := r.session.cache.addBlacklisted path }
        messages := r.messages } := by
  rw [← hr]
  rfl

end Parser

/-- The parser has read a file on its own, from the session `s` on, and the file is as expected. -/
structure Canon.Reads (C : Canon) (opened : Set Nat) (s : Session) (path : Path) (r : Parser) :
    Prop where
  file : r.file = path
  tree : r.tree = s.forest.trees.size
  tended : s.Tended C opened r.session r.tree
  yields : C.Yields r
  inserts : C.Shared path → ∀ y, r.session.cache.isBlacklisted y = true →
    s.cache.isBlacklisted y = true ∨ C.Inserts path y

namespace Parser

variable {C : Canon} {V : Lore} {opened opened' : Set Nat} {s s' s₀ s₀' : Session} {e : Extractor}
  {stack stack' : List Path} {p p' q q' : Parser} {x path : Path} {source : String} {depth : Nat}

/-- Where no declaration is under way, there is nothing to clear. -/
theorem clear_of_calm (hprospective : q.prospective = "") (hpending : q.snapshot.pending = "") :
    q.clearProspective.clearPending = q := by
  obtain ⟨_⟩ := q
  simp only [clearProspective, clearPending] at hprospective hpending ⊢
  simp [hprospective, ← hpending]

/-- An include of a header, where the header is as expected if it is read. -/
theorem tended_take_header {parse : Parser → Parser} (h : s₀.Tended C opened q.session q.tree)
    (hfiles : C.files = q.files) (hclean : path.clean = path)
    (hincluded : q.options.excludes path = false) (hstack : q.stack.findIdx? path.same = none)
    (hheader : path.isHeader = true)
    (hreads : ∀ source, q.files.readText path = .ok source →
      C.Reads (insert q.tree opened) q.session path
        (parse (aloneAt q.options q.files path source (q.stack ++ [path]) q.session))) :
    s₀.Tended C opened ((q.way path).take parse path q).session q.tree ∧
      (C.Shared path → path ∈ q.files.readable →
        (q.snapshot = C.snapshot path → q.prospective = "" ∧ q.snapshot.pending = "") →
        ∃ s', (q.way path).take parse path q =
            { q.clearProspective.clearPending with session := s' } ∧
          s₀.Tended C opened s' q.tree ∧
          (∀ y, s'.cache.isBlacklisted y = true ↔
            q.session.cache.isBlacklisted y = true ∨ C.Inserts path y) ∧
          (q.session.forest.Current q.tree →
            q.session.forest.Learns q.tree (C.lore path) s'.forest)) := by
  obtain ⟨updates, hgood⟩ := h.good
  rw [way_of_header hincluded hstack hheader (hgood.isBlacklisted_eq_false hclean hheader)]
  split_ifs with hknown
  · cases htext : q.files.readText path with
    | error e =>
      refine ⟨h.spares (.refl _ _) hgood.sound.forest _, fun _ hreadable ↦ ?_⟩
      obtain ⟨-, text, hok⟩ := hreadable
      rw [htext] at hok
      cases hok
    | ok source =>
      obtain ⟨hfile, htree, hnested, hyields, hupper⟩ := hreads source htext
      dsimp only
      rw [take_alone rfl hfile htree]
      generalize parse (aloneAt q.options q.files path source (q.stack ++ [path]) q.session) = r
        at hfile htree hnested hyields hupper
      subst hfile
      have hreadable : r.file ∈ C.files.readable := by
        rw [hfiles]
        exact ⟨⟨r.file, hclean⟩, source, htext⟩
      obtain ⟨htended, hlearns⟩ := h.alone hnested hyields hheader hreadable
      refine ⟨htended, fun hshared _ _ ↦ ⟨_, rfl, htended, fun y ↦ ?_, hlearns hshared⟩⟩
      rw [Session.isBlacklisted_store]
      exact ⟨hupper hshared y, fun hy ↦ hy.elim (hnested.kept.inserts y)
        (hyields.inserts (C.counts _ hshared) y)⟩
  · obtain ⟨htended, hlearns⟩ := h.known hclean q.snapshot
    obtain ⟨u, hu⟩ := List.exists_mem_of_ne_nil _ hknown
    obtain ⟨-, hmeets⟩ := hgood.meets_of_mem_results hclean hu
    refine ⟨htended, fun hshared _ hcalm ↦ ⟨_, ?_, htended, fun y ↦ ?_, hlearns hshared hknown⟩⟩
    swap
    · exact ⟨.inl, fun hy ↦ hy.elim id (hmeets.inserts (C.counts _ hshared) y)⟩
    -- What is known ended in this snapshot, in which nothing is left to be cleared.
    obtain ⟨hprospective, hpending⟩ := hcalm (hmeets.snapshot hshared)
    rw [clear_of_calm hprospective hpending]
    rfl

/-- An include of a header that cannot be read. -/
theorem way_of_unreadable {err : ReadError} (h : s₀.Tended C opened q.session q.tree)
    (hfiles : C.files = q.files) (hclean : path.clean = path)
    (hincluded : q.options.excludes path = false) (hstack : q.stack.findIdx? path.same = none)
    (hheader : path.isHeader = true) (htext : q.files.readText path = .error err) :
    q.way path = .unreadable err := by
  obtain ⟨updates, hgood⟩ := h.good
  have hunknown : q.session.cache.results path q.snapshot = [] := by
    apply List.eq_nil_iff_forall_not_mem.2
    intro u hu
    obtain ⟨-, text, hok⟩ := (hgood.meets_of_mem_results hclean hu).2.readable
    rw [hfiles, htext] at hok
    cases hok
  rw [way_of_header hincluded hstack hheader (hgood.isBlacklisted_eq_false hclean hheader),
    if_pos hunknown, htext]

/-- What a parser passes while it reads its file comes up in the extraction, too. -/
theorem Tandem.Passes.reaches {waiting : List Parser} {left : List (Path × String)} {start : Stage}
    (h : Tandem.Passes (followInclude (parse depth)) p q) (hends : p.Ends)
    (hdepth : (p.files.unread p.stack).ncard < depth + 1)
    (hstart : Stage.Reaches e start (.reading p.begin waiting left)) :
    q.Ends ∧ q.frame = p.frame ∧ Stage.Reaches e start (.reading q waiting left) := by
  induction h with
  | start =>
    have hbegin := p.onward_begin
    exact ⟨hbegin.ends hends, frame_of_fixed hbegin.fixed, hstart⟩
  | turn _ htoken ih =>
    obtain ⟨hq, hframe, hreaches⟩ := ih
    obtain ⟨hframe', hturned, -⟩ := turn_followInclude (parse depth) hq htoken
    refine ⟨hturned, hframe'.trans hframe, hreaches.trans ?_⟩
    apply Stage.reaches_turn (Stage.simulates e left depth) waiting htoken
    rwa [unread_congr hframe]

namespace Tandem

variable {B : Bond}

/-- Both parsers go on after an include. -/
theorem goOn (h : Tandem B x q q') (hrel : B.Rel s q.tree s' q'.tree)
    {messages messages' : Array Message} (hmessages : messages' = messages)
    (hlists : B.Lists x messages) :
    Tandem B x { q.clearProspective.clearPending with session := s, messages := messages }
      { q'.clearProspective.clearPending with session := s', messages := messages' } := by
  subst hmessages
  refine ⟨?_, h.options, h.files, h.reads, h.stack, h.stack', hrel, hlists, h.follows⟩
  rw [h.eq]
  rfl

theorem messages_eq (h : Tandem B x q q') : q'.messages = q.messages := by rw [h.eq]

theorem snapshot_eq (h : Tandem B x q q') : q'.snapshot = q.snapshot := by rw [h.eq]

end Tandem

theorem follows_items {found : Path} {t : Token}
    (ht : t ∈ Token.eof :: (Stream.ofText (e.textOf x)).items.map Item.token)
    (hfound : includeTarget? e.options e.files x t = some found)
    (hincluded : e.options.excludes found.clean = false) : e.Includes x found.clean := by
  rcases List.mem_cons.1 ht with rfl | ht
  · cases hfound
  · exact mem_includesIn ht hfound hincluded

/-- Two parsers at the start of a file that is read on its own. -/
theorem tandem_aloneAt {updates updates' : List IncludeCache.Update} (hV : V.Agrees)
    (h : s.Good C opened updates) (h' : s'.Good C opened' updates')
    (hlower : ∀ y, s.cache.isBlacklisted y = true → s'.cache.isBlacklisted y = true)
    (stack stack' : List Path) (x : Path) :
    Tandem (.abreast e C hV opened s opened' s' stack stack' x) x
      (aloneAt e.options e.files x (e.textOf x) stack s)
      (aloneAt e.options e.files x (e.textOf x) stack' s') := by
  have hkin : Forest.Kin V (planted s).forest s.forest.trees.size (planted s').forest
      s'.forest.trees.size := by
    rw [planted, planted, h.sound.next, h'.sound.next]
    exact Forest.kin_plant h.sound.forest h.sound.ids h'.sound.forest h'.sound.ids
  exact ⟨rfl, rfl, rfl, rfl, rfl, rfl, ⟨hkin, .planted h, .planted h', hlower, fun _ ↦ .inl⟩, trivial,
    fun t ht found hfound hincluded ↦ follows_items ht hfound hincluded⟩

/-- Two parsers at the start of a file that is read in place of an include. -/
theorem Tandem.inPlaceAt {hV : V.Agrees}
    (h : Tandem (.abreast e C hV opened s₀ opened' s₀' stack stack' x) x q q')
    (htext : e.files.readText path = .ok source) :
    Tandem (.abreast e C hV opened s₀ opened' s₀' (stack ++ [path]) (stack' ++ [path]) path) path
      (q.inPlaceAt path source) (q'.inPlaceAt path source) := by
  refine ⟨?_, h.options, h.files, rfl, congrArg (· ++ [path]) h.stack,
    congrArg (· ++ [path]) h.stack', h.rel, trivial, fun t ht found hfound hincluded ↦ ?_⟩
  · rw [h.eq]
    rfl
  · apply follows_items _ hfound hincluded
    rw [Extractor.textOf_of_readText htext]
    exact ht

end Parser

namespace Extractor

variable {e : Extractor} {stack : List Path} {x y input : Path} {depth : Nat}

/-- The files on the stack wait for `x`, within which so many files can be read. -/
structure Waits (e : Extractor) (stack : List Path) (x : Path) (depth : Nat) : Prop where
  depth : (e.files.unread stack).ncard < depth
  clean : ∀ y ∈ stack, y.clean = y
  leads : ∀ y ∈ stack, Relation.ReflTransGen e.Includes y x

namespace Waits

theorem single (hx : x.clean = x) : e.Waits [x] x Parser.depthLimit where
  depth := Nat.lt_of_le_of_lt (e.files.ncard_unread_le _) e.files.ncard_readable_lt
  clean y hy := by rwa [List.mem_singleton.1 hy]
  leads y hy := by rw [List.mem_singleton.1 hy]

theorem frame_aloneAt (h : e.Waits stack x depth) (s : Session) :
    ((Parser.aloneAt e.options e.files x (e.textOf x) stack s).parse depth).file = x ∧
      ((Parser.aloneAt e.options e.files x (e.textOf x) stack s).parse depth).tree =
        s.forest.trees.size := by
  have hends := Parser.ends_aloneAt e.options e.files x (e.textOf x) stack s
  have hframe := Parser.frame_parse hends h.depth
  simp only [Parser.frame, Prod.mk.injEq] at hframe
  exact ⟨hframe.2.2.1, hframe.2.2.2.2.2.2⟩

variable (hxy : e.Includes x y) (hback : ¬e.LeadsTo x x)

include hxy hback

theorem same_eq_false (h : e.Waits stack x depth) {z : Path} (hz : z ∈ stack) :
    y.same z = false := by
  rw [Bool.eq_false_iff]
  intro hsame
  obtain rfl := Path.eq_of_same hxy.clean (h.clean z hz) hsame
  exact hback (.head' hxy (h.leads y hz))

theorem findIdx?_eq_none (h : e.Waits stack x depth) : stack.findIdx? y.same = none :=
  List.findIdx?_eq_none_iff.2 fun _ hz ↦ h.same_eq_false hxy hback hz

theorem push (h : e.Waits stack x (depth + 1)) (hy : y ∈ e.files.readable) :
    e.Waits (stack ++ [y]) y depth where
  depth := by
    have hunread : y ∈ e.files.unread stack := ⟨hy, fun z hz ↦ h.same_eq_false hxy hback hz⟩
    exact Nat.lt_of_lt_of_le (FileTree.ncard_unread_lt hunread) (Nat.le_of_lt_succ h.depth)
  clean z hz := by
    rcases List.mem_append.1 hz with hz | hz
    · exact h.clean z hz
    · rw [List.mem_singleton.1 hz]
      exact hxy.clean
  leads z hz := by
    rcases List.mem_append.1 hz with hz | hz
    · exact (h.leads z hz).tail hxy
    · rw [List.mem_singleton.1 hz]

end Waits

variable {inputs : List Path} {hclean : input.clean = input}

/-- Readings of the file `x` that go side by side do so to its end, if the first of them comes up
when a file is read alone. -/
def ReadsAlike (e : Extractor) (inputs : List Path) {input : Path} (hclean : input.clean = input)
    (hV : (e.commonLore input).Agrees) (x : Path) : Prop :=
  ∀ ⦃opened s₀ opened' s₀' stack stack' depth depth' p p'⦄,
    Parser.Tandem (.abreast e (e.canon inputs hclean) hV opened s₀ opened' s₀' stack stack' x) x p p' →
    e.Waits stack x depth → e.Waits stack' x depth' → p.Ends → e.Arises input p.begin →
    Parser.Tandem (.abreast e (e.canon inputs hclean) hV opened s₀ opened' s₀' stack stack' x) x
      (p.parse depth) (p'.parse depth')

theorem arises_alone (hx : e.Counts input x) :
    e.Arises input (Parser.aloneAt e.options e.files x (e.textOf x) [x] {}).begin := by
  have hnew : isParsed {} x = false := rfl
  refine ⟨x, [], hx, .single ?_⟩
  simp only [Stage.step, hnew, Bool.false_eq_true, if_false]

/-- A file that counts is as expected in every good session. -/
theorem ReadsAlike.reads (hfit : e.Fit input) (h : e.ReadsAlike inputs hclean hfit.agrees x)
    (hx : e.Counts input x) {s : Session} {opened : Set Nat} {updates : List IncludeCache.Update}
    (hgood : s.Good (e.canon inputs hclean) opened updates) (hwaits : e.Waits stack x depth) :
    (e.canon inputs hclean).Reads opened s x
      ((Parser.aloneAt e.options e.files x (e.textOf x) stack s).parse depth) := by
  have hxclean : x.clean = x := (e.canon inputs hclean).clean x hx
  have hends := fun stack s ↦ Parser.ends_aloneAt e.options e.files x (e.textOf x) stack s
  have htandem := h (Parser.tandem_aloneAt hfit.agrees (.empty _) hgood
    (fun _ hinserted ↦ Bool.noConfusion hinserted) [x] stack x) (.single hxclean) hwaits (hends _ _)
    (arises_alone hx)
  obtain ⟨hfile, htree⟩ := hwaits.frame_aloneAt s
  generalize (Parser.aloneAt e.options e.files x (e.textOf x) stack s).parse depth = r
    at htandem hfile htree
  refine ⟨hfile, htree, htandem.rel.right, ?_, fun _ ↦ htandem.rel.upper⟩
  subst hfile
  refine ⟨hxclean, fun _ ↦ congrArg Array.toList htandem.messages_eq, fun _ ↦ htandem.rel.lower,
    fun _ ↦ ?_, fun hshared ↦ ?_, fun _ ↦ ?_⟩
  · exact htandem.snapshot_eq
  · exact htandem.rel.kin.settled (hfit.settled _ hshared)
  · exact htandem.rel.kin.teaches_eq hfit.agrees

theorem Arises.inPlace {q : Parser} {found : Path} {source : String} (h : e.Arises input q)
    (hinclude : q.include? = some found) (hway : q.way found.clean = .inPlace source) :
    e.Arises input (q.inPlaceAt found.clean source).begin := by
  obtain ⟨path, waiting, hcounts, hreaches⟩ := h
  have htoken : q.token ≠ .eof := by
    intro htoken
    rw [Parser.include?_of_token htoken] at hinclude
    cases hinclude
  refine ⟨path, q :: waiting, hcounts, hreaches.tail ?_⟩
  simp only [Stage.step, htoken, if_false, hinclude, Stage.follow, hway]

/-- The parser stands at an include of `path`, which is neither excluded nor being read. -/
structure Meets (e : Extractor) (stack : List Path) (q : Parser) (path : Path) : Prop where
  options : q.options = e.options
  files : q.files = e.files
  stack : q.stack = stack
  included : q.options.excludes path = false
  apart : q.stack.findIdx? path.same = none

/-- A file that is read in place of its include has the tree of the includer. -/
theorem Meets.frame_inPlace {q : Parser} (hq : e.Meets stack q y)
    (hwaits : e.Waits (stack ++ [y]) y depth) (source : String) :
    ((q.inPlaceAt y source).parse depth).tree = q.tree := by
  have hdepth : ((q.inPlaceAt y source).files.unread (q.inPlaceAt y source).stack).ncard < depth := by
    change (q.files.unread (q.stack ++ [y])).ncard < depth
    rw [hq.files, hq.stack]
    exact hwaits.depth
  have hframe := Parser.frame_parse (q.ends_inPlaceAt y source) hdepth
  simp only [Parser.frame, Prod.mk.injEq] at hframe
  exact hframe.2.2.2.2.2.2

/-- A header is included, of which it is known that it can be read alike. -/
theorem Meets.take_header (hfit : e.Fit input) {q : Parser} (hq : e.Meets stack q y)
    (hy : e.ReadsAlike inputs hclean hfit.agrees y) (hshares : e.Shares input y)
    (hwaits : e.Waits (stack ++ [y]) y depth) {opened : Set Nat} {s₀ : Session}
    (htended : s₀.Tended (e.canon inputs hclean) opened q.session q.tree)
    (hreadable : y ∈ e.files.readable)
    (hcalm : q.snapshot = (e.alone y).snapshot → q.prospective = "" ∧ q.snapshot.pending = "") :
    ∃ s, (q.way y).take (Parser.parse depth) y q =
        { q.clearProspective.clearPending with session := s } ∧
      s₀.Tended (e.canon inputs hclean) opened s q.tree ∧
      (∀ z, s.cache.isBlacklisted z = true ↔
        q.session.cache.isBlacklisted z = true ∨ e.Inserts y z) ∧
      (q.session.forest.Current q.tree → q.session.forest.Learns q.tree (e.lore y) s.forest) := by
  obtain ⟨updates, hgood⟩ := htended.good
  refine (Parser.tended_take_header htended hq.files.symm hshares.2.clean hq.included hq.apart
    hshares.1 fun source htext ↦ ?_).2 hshares (hq.files ▸ hreadable) hcalm
  rw [hq.files] at htext
  rw [hq.options, hq.files, hq.stack, ← textOf_of_readText htext]
  exact hy.reads hfit (.inr hshares) hgood hwaits

section Follow

variable (hfit : e.Fit input) {opened opened' : Set Nat} {s₀ s₀' : Session} {stack' : List Path}
  {depth' : Nat} {q q' : Parser}
  (h : Parser.Tandem (.abreast e (e.canon inputs hclean) hfit.agrees opened s₀ opened' s₀' stack
    stack' x) x q q')
  (hq : e.Meets stack q y) (hq' : e.Meets stack' q' y)
  (hy : y ∈ e.files.readable → e.ReadsAlike inputs hclean hfit.agrees y)
  (hwaits : y ∈ e.files.readable → e.Waits (stack ++ [y]) y depth)
  (hwaits' : y ∈ e.files.readable → e.Waits (stack' ++ [y]) y depth')

include h hq hq' hy hwaits hwaits'

/-- A header is included on both sides. -/
theorem tandem_take_header (hshares : e.Shares input y)
    (hcalm : q.snapshot = (e.alone y).snapshot → q.prospective = "" ∧ q.snapshot.pending = "") :
    Parser.Tandem (.abreast e (e.canon inputs hclean) hfit.agrees opened s₀ opened' s₀' stack
      stack' x) x ((q.way y).take (Parser.parse depth) y q)
        ((q'.way y).take (Parser.parse depth') y q') := by
  obtain ⟨hkin, htended, htended', hlower, hupper⟩ := h.rel
  have hyclean := hshares.2.clean
  cases htext : e.files.readText y with
  | error err =>
    rw [Parser.way_of_unreadable htended hq.files.symm hyclean hq.included hq.apart hshares.1
        (hq.files ▸ htext),
      Parser.way_of_unreadable htended' hq'.files.symm hyclean hq'.included hq'.apart hshares.1
        (hq'.files ▸ htext)]
    exact h.report _ _
  | ok source =>
    have hreadable : y ∈ e.files.readable := ⟨⟨y, hyclean⟩, source, htext⟩
    have hcalm' : q'.snapshot = (e.alone y).snapshot →
        q'.prospective = "" ∧ q'.snapshot.pending = "" := by
      rw [h.eq]
      exact hcalm
    obtain ⟨s, hs, hafter, hinserts, hlearns⟩ := hq.take_header hfit (hy hreadable) hshares
      (hwaits hreadable) htended hreadable hcalm
    obtain ⟨s', hs', hafter', hinserts', hlearns'⟩ := hq'.take_header hfit (hy hreadable) hshares
      (hwaits' hreadable) htended' hreadable hcalm'
    rw [hs, hs']
    have hkin' := hkin.learns (hlearns hkin.left) (hlearns' hkin.right)
      fun topic a hlore ↦ ⟨y, hshares, hlore⟩
    refine h.goOn ⟨hkin', hafter, hafter', fun z hz ↦ ?_, fun z hz ↦ ?_⟩ h.messages_eq h.lists
    · exact (hinserts' z).2 (((hinserts z).1 hz).imp_left (hlower z))
    · rw [hinserts, ← or_assoc]
      exact ((hinserts' z).1 hz).imp_left (hupper z)

/-- Another file is included on both sides. -/
theorem tandem_take_inPlace (hinsertable : (e.canon inputs hclean).Insertable y) (hyclean : y.clean = y)
    (hheader : y.isHeader = false)
    (harises : ∀ source, q.way y = .inPlace source → e.Arises input (q.inPlaceAt y source).begin) :
    Parser.Tandem (.abreast e (e.canon inputs hclean) hfit.agrees opened s₀ opened' s₀' stack
      stack' x) x ((q.way y).take (Parser.parse depth) y q)
        ((q'.way y).take (Parser.parse depth') y q') := by
  have hway := Parser.way_of_not_header hq.included hq.apart hheader
  rw [hway, Parser.way_of_not_header hq'.included hq'.apart hheader, hq.files, hq'.files]
  rw [hq.files] at hway
  cases htext : e.files.readText y with
  | error err => exact h.report _ _
  | ok source =>
    have hreadable : y ∈ e.files.readable := ⟨⟨y, hyclean⟩, source, htext⟩
    rw [htext] at hway
    have hchild := hy hreadable (h.inPlaceAt htext) (hwaits hreadable) (hwaits' hreadable)
      (q.ends_inPlaceAt y source) (harises source hway)
    have hframe := hq.frame_inPlace (hwaits hreadable) source
    have hframe' := hq'.frame_inPlace (hwaits' hreadable) source
    dsimp only
    rw [Parser.take_inPlace rfl, Parser.take_inPlace rfl]
    obtain ⟨hkin, htended, htended', hlower, hupper⟩ := hchild.rel
    rw [hframe, hframe'] at hkin
    rw [hframe] at htended
    rw [hframe'] at htended'
    refine h.goOn ?_ hchild.messages_eq trivial
    refine ⟨hkin, htended.addBlacklisted hyclean hheader hinsertable,
      htended'.addBlacklisted hyclean hheader hinsertable, fun z hz ↦ ?_, fun z hz ↦ ?_⟩
    · rw [IncludeCache.isBlacklisted_addBlacklisted, Bool.or_eq_true] at hz ⊢
      exact hz.imp_left (hlower z)
    · rw [IncludeCache.isBlacklisted_addBlacklisted, Bool.or_eq_true] at hz ⊢
      rw [← or_assoc]
      exact hz.imp_left (hupper z)

end Follow

/-- Readings of a file to which the input leads, the first of which comes up when a file is read
alone, go side by side to its end. -/
theorem readsAlike (hfit : e.Fit input) (hacyclic : e.Acyclic inputs) (hinput : input ∈ inputs)
    (hx : Relation.ReflTransGen e.Includes input x) :
    e.ReadsAlike inputs hclean hfit.agrees x := by
  -- Each include leaves fewer files to which the included one leads.
  induction hbelow : (e.below x).ncard using Nat.strongRecOn generalizing x with
  | ind below ih =>
    intro opened s₀ opened' s₀' stack stack' depth depth' p p' h hwaits hwaits' hends harises
    obtain ⟨depth, rfl⟩ := Nat.exists_eq_add_one_of_ne_zero (Nat.ne_zero_of_lt hwaits.depth)
    obtain ⟨depth', rfl⟩ := Nat.exists_eq_add_one_of_ne_zero (Nat.ne_zero_of_lt hwaits'.depth)
    have hback := hacyclic input hinput x hx
    refine h.run fun {found q q'} hpasses hinclude hfollows hq ↦ ?_
    have hoptions : q.options = e.options := hq.options
    have hoptions' : q'.options = e.options := by rw [hq.eq, hoptions]
    rw [Parser.followInclude_eq, Parser.followInclude_eq]
    by_cases hexcluded : e.options.excludes found.clean = true
    · have hskip : q.way found.clean = .skip := if_pos (hoptions ▸ hexcluded)
      have hskip' : q'.way found.clean = .skip := if_pos (hoptions' ▸ hexcluded)
      rw [hskip, hskip']
      exact hq
    have hincluded := Bool.eq_false_iff.2 hexcluded
    have hxy := hfollows hincluded
    have hmeets : e.Meets stack q found.clean :=
      ⟨hoptions, hq.files, hq.stack, hoptions.symm ▸ hincluded,
        hq.stack.symm ▸ hwaits.findIdx?_eq_none hxy hback⟩
    have hmeets' : e.Meets stack' q' found.clean :=
      ⟨hoptions', by rw [hq.eq]; exact hq.files, hq.stack', hoptions'.symm ▸ hincluded,
        hq.stack'.symm ▸ hwaits'.findIdx?_eq_none hxy hback⟩
    have hy : found.clean ∈ e.files.readable →
        e.ReadsAlike inputs hclean hfit.agrees found.clean := by
      intro hreadable
      have hless := ncard_below_lt hxy hreadable (hacyclic input hinput _ (hx.tail hxy))
      exact ih _ (hbelow ▸ hless) (hx.tail hxy) rfl
    have harises' : e.Arises input q := by
      obtain ⟨path, waiting, hcounts, hreaches⟩ := harises
      have hdepth : (p.files.unread p.stack).ncard < depth + 1 := by
        rw [h.files, h.stack]
        exact hwaits.depth
      exact ⟨path, waiting, hcounts, (hpasses.reaches hends hdepth hreaches).2.2⟩
    have hleads : e.LeadsTo input found.clean := .tail' hx hxy
    cases hheader : found.clean.isHeader with
    | true =>
      exact tandem_take_header hfit hq hmeets hmeets' hy (hwaits.push hxy hback)
        (hwaits'.push hxy hback) ⟨hheader, hleads⟩ (hfit.calm q harises' found hinclude hheader)
    | false =>
      exact tandem_take_inPlace hfit hq hmeets hmeets' hy (hwaits.push hxy hback)
        (hwaits'.push hxy hback) ⟨input, hinput, hleads⟩ found.clean_clean hheader
        fun source hway ↦ harises'.inPlace hinclude hway

end Extractor

end Harvest
