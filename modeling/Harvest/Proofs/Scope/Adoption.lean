import Harvest.Proofs.Parser.Pending
import Harvest.Proofs.Scope.Literal

/-!
# Ledgers of drafts

What a draft yields can be read off the ledger of its text. A function whose calls are adopted by an
earlier qualifier has one context for all of them: that of the scope which the qualifier names from
the function's own scope, if the text has declared it, and else the qualifier as far as it goes.

Main statement: a parser that agrees with a ledger still does so after the tokens of a draft, and its
messages and diagnostics have grown by those that the ledger tells.
-/

namespace Harvest

namespace Ledger

/-- The context of calls at `path` that belong to `qualifier`. -/
def adoptive (l : Ledger) (path qualifier : List String) : String :=
  if path ++ qualifier ∈ l.declared then l.context (path ++ qualifier)
  else if path ++ qualifier.take 1 ∈ l.declared then Name.join (path ++ qualifier)
  else Name.join qualifier

/-- The complaint about the first word of `qualifier` that leads from `path` to no declared scope. -/
def unknown (l : Ledger) (file : String) (path qualifier : List String) : Diagnostic :=
  let known := leading (· ∈ l.declared) path qualifier
  .unknownQualifier file ((if known = [] then "" else Name.join (path ++ known)) ++ "::" ++
    (qualifier.drop known.length).headD "")

def deed (l : Ledger) : Deed → Ledger
  | .plain e => l.step e
  | .adopted path qualifier texts =>
    if path ++ qualifier ∈ l.declared then
      (texts.map (.called (path ++ qualifier))).foldl step l
    else l

def deedMessages (l : Ledger) (file : String) : Deed → List Message
  | .plain e => l.messages file e
  | .adopted path qualifier texts => texts.map (.plain file (l.adoptive path qualifier))

def allDeedMessages (l : Ledger) (file : String) : List Deed → List Message
  | [] => []
  | d :: ds => l.deedMessages file d ++ (l.deed d).allDeedMessages file ds

def deedDiagnostics (l : Ledger) (file : String) : Deed → List Diagnostic
  | .plain e => l.diagnostics file e
  | .adopted path qualifier texts =>
    if path ++ qualifier ∈ l.declared then
      l.allDiagnostics file (texts.map (.called (path ++ qualifier)))
    else [l.unknown file path qualifier]

def allDeedDiagnostics (l : Ledger) (file : String) : List Deed → List Diagnostic
  | [] => []
  | d :: ds => l.deedDiagnostics file d ++ (l.deed d).allDeedDiagnostics file ds

/-- Deeds that make sense after what the ledger holds. -/
def Allows (l : Ledger) : Deed → Prop
  | .plain e => l.Admits [] e
  | .adopted path _ _ => path ∈ l.declared

def AllowsAll (l : Ledger) : List Deed → Prop
  | [] => True
  | d :: ds => l.Allows d ∧ (l.deed d).AllowsAll ds

variable {l : Ledger} {path : List String}

theorem foldl_deed_plain (l : Ledger) (es : List Event) :
    (es.map Deed.plain).foldl deed l = es.foldl step l := by
  rw [List.foldl_map]
  rfl

/-- Events tell what they tell in an outline. -/
theorem allDeedMessages_plain (l : Ledger) (file : String) (es : List Event) :
    l.allDeedMessages file (es.map .plain) = l.allMessages file es := by
  induction es generalizing l with
  | nil => rfl
  | cons e es ih =>
    rw [List.map_cons, allDeedMessages, ih]
    rfl

theorem allDeedDiagnostics_plain (l : Ledger) (file : String) (es : List Event) :
    l.allDeedDiagnostics file (es.map .plain) = l.allDiagnostics file es := by
  induction es generalizing l with
  | nil => rfl
  | cons e es ih =>
    rw [List.map_cons, allDeedDiagnostics, ih]
    rfl

theorem allowsAll_plain {es : List Event} :
    l.AllowsAll (es.map .plain) ↔ l.AdmitsAll [] es := by
  induction es generalizing l with
  | nil => rfl
  | cons e es ih => exact and_congr_right' ih

theorem allDeedMessages_append (l : Ledger) (file : String) (ds ds' : List Deed) :
    l.allDeedMessages file (ds ++ ds') =
      l.allDeedMessages file ds ++ (ds.foldl deed l).allDeedMessages file ds' := by
  induction ds generalizing l with
  | nil => rfl
  | cons d ds ih =>
    simp only [List.cons_append, allDeedMessages, ih, List.append_assoc, List.foldl_cons]

theorem allDeedDiagnostics_append (l : Ledger) (file : String) (ds ds' : List Deed) :
    l.allDeedDiagnostics file (ds ++ ds') =
      l.allDeedDiagnostics file ds ++ (ds.foldl deed l).allDeedDiagnostics file ds' := by
  induction ds generalizing l with
  | nil => rfl
  | cons d ds ih =>
    simp only [List.cons_append, allDeedDiagnostics, ih, List.append_assoc, List.foldl_cons]

theorem allowsAll_append {ds ds' : List Deed} :
    l.AllowsAll (ds ++ ds') ↔ l.AllowsAll ds ∧ (ds.foldl deed l).AllowsAll ds' := by
  induction ds generalizing l with
  | nil => simp [AllowsAll]
  | cons d ds ih =>
    rw [List.cons_append, AllowsAll, ih, ← and_assoc]
    rfl

/-- Calls leave the marks alone. -/
theorem marked_step_called (text : String) : (l.step (.called path text)).marked = l.marked := by
  rw [step]
  split_ifs <;> rfl

/-- Calls at one path all have one context. -/
theorem allMessages_called (hpath : path ≠ []) (file : String) (texts : List String) :
    l.allMessages file (texts.map (.called path)) = texts.map (.plain file (l.context path)) := by
  induction texts generalizing l with
  | nil => rfl
  | cons text texts ih =>
    have hcontext : (l.step (.called path text)).context path = l.context path := by
      rw [context, context, support?, support?, marked_step_called]
    rw [List.map_cons, allMessages, ih, hcontext, messages, if_neg hpath]
    rfl

theorem admitsAll_called (hpath : path ∈ l.declared) (texts : List String) :
    l.AdmitsAll [] (texts.map (.called path)) := by
  induction texts generalizing l with
  | nil => trivial
  | cons text texts ih => exact ⟨hpath, ih (mem_declared_step _ hpath)⟩

theorem mem_declared_deed (d : Deed) (h : path ∈ l.declared) : path ∈ (l.deed d).declared := by
  cases d with
  | plain e => exact mem_declared_step e h
  | adopted p q texts =>
    rw [deed]
    split_ifs
    · exact mem_declared_foldl _ h
    · exact h

theorem mem_declared_deeds (ds : List Deed) (h : path ∈ l.declared) :
    path ∈ (ds.foldl deed l).declared := by
  induction ds generalizing l with
  | nil => exact h
  | cons d ds ih => exact ih (mem_declared_deed d h)

/-- The deeds of a draft make sense wherever its scope is declared. -/
theorem allowsAll_draft {inClass : Bool} (d : Draft inClass) (hpath : path ∈ l.declared)
    (hclass : inClass = true → path ≠ []) (pending : List String) :
    l.AllowsAll (d.deeds path pending) := by
  induction d generalizing l path pending with
  | done => trivial
  | namespaces first more inner rest ihinner ihrest =>
    obtain ⟨hentries, hopened⟩ : l.AdmitsAll [] _ ∧ _ :=
      admitsAll_entries ((first :: more).map Identifier.word) hpath
    simp only [Declarations.deeds, allowsAll_append, allowsAll_plain, List.foldl_append,
      foldl_deed_plain]
    exact ⟨⟨hentries, ihinner hopened (by simp) _⟩,
      ihrest (mem_declared_deeds _ (mem_declared_foldl _ hpath)) hclass _⟩
  | unnamed inner rest ihinner ihrest =>
    simp only [Declarations.deeds, allowsAll_append]
    exact ⟨ihinner hpath (by simp) _, ihrest (mem_declared_deeds _ hpath) hclass _⟩
  | classBody name inner rest ihinner ihrest =>
    have hentered : path ++ [name.word] ∈ (l.step (.entered (path ++ [name.word]))).declared :=
      List.mem_cons_self
    simp only [Declarations.deeds, List.cons_append, AllowsAll, allowsAll_append]
    exact ⟨⟨by rw [List.dropLast_concat]; exact hpath, by simp⟩, ihinner hentered (by simp) _,
      ihrest (mem_declared_deeds _ (mem_declared_deed _ hpath)) hclass _⟩
  | marker rest ih =>
    exact ⟨⟨hpath, hclass rfl, by simp⟩, ih (mem_declared_deed _ hpath) hclass _⟩
  | function name body rest ih =>
    simp only [Declarations.deeds, allowsAll_append]
    refine ⟨?_, ih (mem_declared_deeds _ hpath) hclass _⟩
    split_ifs
    · rw [allowsAll_plain]
      exact admitsAll_block body hpath
    · exact ⟨hpath, trivial⟩
  | member allowed m rest ih => exact ih hpath hclass _

end Ledger

/-- Two parts of a name make the text of the whole. -/
theorem joinContexts_join {one two : List String} (hone : one ≠ []) (htwo : two ≠ [])
    (h : ∀ word ∈ one ++ two, word ≠ "") :
    joinContexts (Name.join one) (Name.join two) = Name.join (one ++ two) := by
  obtain ⟨a, as, rfl⟩ := List.exists_cons_of_ne_nil hone
  obtain ⟨b, bs, rfl⟩ := List.exists_cons_of_ne_nil htwo
  have ha : Name.join (a :: as) ≠ "" := Name.join_ne_empty (h a (by simp)) as
  have hb : Name.join (b :: bs) ≠ "" := Name.join_ne_empty (h b (by simp)) bs
  rw [joinContexts, if_neg hb, if_neg ha]
  exact (String.intercalate_append_of_ne_nil hone htwo).symm

namespace Parser

/-- The words of a qualifier that was read. -/
def IsQualifier (words : List String) : Prop := ∀ word ∈ words, word ≠ "" ∧ ':' ∉ word.toList

theorem isQualifier_nil : IsQualifier [] := by simp [IsQualifier]

theorem isQualifier_words (names : List Identifier) : IsQualifier (names.map Identifier.word) := by
  intro word hword
  obtain ⟨name, -, rfl⟩ := List.mem_map.1 hword
  exact ⟨name.word_ne_empty, name.colon_not_mem⟩

theorem isQualifier_member (m : Member) : IsQualifier m.qualifier := by
  intro word hword
  rw [Member.qualifier, List.mem_append] at hword
  rcases hword with hword | hword
  · have hint : word = "int" := by
      cases hlead : m.global <;> simp_all
    subst hint
    decide
  · exact isQualifier_words _ word hword

/-- In the scope at `path`, the text `written` is looked up as the words of `qualifier` are at
`base`. -/
structure Denotes (path : List String) (written : String) (base qualifier : List String) : Prop where
  words : IsQualifier qualifier
  nonempty : qualifier ≠ []
  text : written ≠ ""
  below : ∀ word ∈ base, word ≠ ""
  lookup : ∀ (f : Forest) (t : Nat), f.qualifyWritten t ⟨"" :: path⟩ written true =
    f.qualify t ⟨"" :: base⟩ (⟨"" :: base⟩ : Name).length qualifier true

/-- A qualifier without a leading `::` is looked up where it is written. -/
theorem denotes_join {path qualifier : List String} (hpath : ∀ word ∈ path, word ≠ "")
    (hwords : IsQualifier qualifier) (hne : qualifier ≠ []) :
    Denotes path (Name.join qualifier) path qualifier := by
  obtain ⟨first, more, rfl⟩ := List.exists_cons_of_ne_nil hne
  refine ⟨hwords, hne, Name.join_ne_empty (hwords first List.mem_cons_self).1 more, hpath, ?_⟩
  intro f t
  rw [Forest.qualifyWritten, Name.ofWritten_join first more fun word hword ↦ (hwords word hword).2]

/-- The ledger says what a pending qualifier is resolved to. -/
theorem resolve_pending {f : Forest} {t : Nat} {l : Ledger} (htracks : f.Tracks t [] l)
    (hliteral : f.Literal t) {path base qualifier : List String} {written : String}
    (h : Denotes path written base qualifier) (file : String) :
    ∃ outcome, f.qualifyWritten t ⟨"" :: path⟩ written true = (outcome, f) ∧
      (ownerOf outcome).1.take 1 = Name.root ∧
      if base ++ qualifier ∈ l.declared then
        ownerOf outcome = (⟨"" :: (base ++ qualifier)⟩, "") ∧ complaintOf file outcome = []
      else (ownerOf outcome).2 ≠ "" ∧
        joinContexts (ownerOf outcome).1.render (ownerOf outcome).2 = l.adoptive base qualifier ∧
        complaintOf file outcome = [l.unknown file base qualifier] := by
  obtain ⟨hwords, hne, -, hbase, hlookup⟩ := h
  obtain ⟨first, more, rfl⟩ := List.exists_cons_of_ne_nil hne
  have hdeclared : ∀ p, (f.walk t p).isSome ↔ p ∈ l.declared := by
    intro p
    rw [← Forest.find?_of_no_includes hliteral.includes]
    exact htracks.found p
  obtain ⟨known, rest, hparts, hleading, hrest, hknown, hqualify⟩ :=
    hliteral.qualify_declaration base (hwords first List.mem_cons_self).1 more
  rw [hdeclared] at hrest hknown
  rw [leading_congr hdeclared] at hleading
  rw [hlookup, hqualify]
  refine ⟨_, rfl, ?_⟩
  by_cases hfull : base ++ first :: more ∈ l.declared
  · rw [if_pos (hrest.2 hfull), if_pos hfull]
    exact ⟨rfl, rfl, rfl⟩
  · have hpartial : rest ≠ [] := fun h ↦ hfull (hrest.1 h)
    have hleft : ∀ word ∈ rest, word ≠ "" := fun word hword ↦
      (hwords word (hparts ▸ List.mem_append_right known hword)).1
    have hunknown : complaintOf file (.error ⟨if known = [] then Name.root else
        ⟨"" :: (base ++ known)⟩, rest⟩) = [l.unknown file base (first :: more)] := by
      rw [complaintOf, Ledger.unknown, ← hleading, ← hparts, List.drop_left]
      split_ifs <;> rfl
    obtain ⟨a, as, rfl⟩ := List.exists_cons_of_ne_nil hpartial
    rw [if_neg hpartial, if_neg hfull, Ledger.adoptive, if_neg hfull]
    refine ⟨?_, Name.join_ne_empty (hleft a List.mem_cons_self) as, ?_, hunknown⟩
    · simp only [ownerOf]
      split_ifs <;> rfl
    · change known = [] ↔ base ++ (first :: more).take 1 ∉ l.declared at hknown
      by_cases hfirst : base ++ (first :: more).take 1 ∈ l.declared
      · have hne : known ≠ [] := fun h ↦ hknown.1 h hfirst
        have hwhole : ∀ word ∈ base ++ known ++ a :: as, word ≠ "" := by
          intro word hword
          rw [List.append_assoc, hparts, List.mem_append] at hword
          exact hword.elim (hbase word) fun hword ↦ (hwords word hword).1
        rw [if_pos hfirst, ownerOf, if_neg hne, ← hparts, ← List.append_assoc]
        exact joinContexts_join (by simp [hne]) hpartial hwhole
      · obtain rfl : known = [] := hknown.2 hfirst
        rw [if_neg hfirst, ownerOf, if_pos rfl, ← hparts, List.nil_append]
        exact if_neg (Name.join_ne_empty (hleft a List.mem_cons_self) as)

/-- The scopes of the parser's file agree with the ledger, and names are looked up there without
detours. -/
structure Agrees (p : Parser) (l : Ledger) : Prop where
  tracks : p.forest.Tracks p.tree [] l
  literal : p.forest.Literal p.tree

/-- Reading leads from the first spot to the second, and a parser that agrees with a ledger does so
after the deeds, with the messages and the diagnostics that they tell. -/
def Tells (includer : Includer) (options : Options) (s : Spot) (deeds : List Deed) (s' : Spot) :
    Prop :=
  ∀ (p : Parser) (is : List Item) (l : Ledger), p.options = options → p.IsAt is s → p.Agrees l →
    l.AllowsAll deeds →
    ∃ (q : Parser) (rest : List Item), Reaches includer (p.load is) (q.load rest) ∧
      q.IsAt rest s' ∧ q.fixed = p.fixed ∧ q.Agrees (deeds.foldl Ledger.deed l) ∧
      q.yield.messages = p.yield.messages ++ l.allDeedMessages p.file.text deeds ∧
      q.yield.diagnostics = p.yield.diagnostics ++ l.allDeedDiagnostics p.file.text deeds

variable {includer : Includer} {options : Options} {path : List String} {opened : List Nat}
  {ts : List Token}

theorem Tells.trans {s s' s'' : Spot} {deeds deeds' : List Deed}
    (hone : Tells includer options s deeds s') (htwo : Tells includer options s' deeds' s'') :
    Tells includer options s (deeds ++ deeds') s'' := by
  intro p is l hoptions hat hagrees hallows
  obtain ⟨hallows, hallows'⟩ := Ledger.allowsAll_append.1 hallows
  obtain ⟨q, rest, hreach, hq, hfixed, hagrees, hmessages, hdiagnostics⟩ :=
    hone p is l hoptions hat hagrees hallows
  obtain ⟨hsame, hfile, -⟩ := of_fixed_eq hfixed
  obtain ⟨r, rest', hreach', hr, hfixed', hagrees', hmessages', hdiagnostics'⟩ :=
    htwo q rest _ (hsame.trans hoptions) hq hagrees hallows'
  refine ⟨r, rest', hreach.trans hreach', hr, hfixed'.trans hfixed, ?_, ?_, ?_⟩
  · rw [List.foldl_append]
    exact hagrees'
  · rw [hmessages', hmessages, hfile, Ledger.allDeedMessages_append, List.append_assoc]
  · rw [hdiagnostics', hdiagnostics, hfile, Ledger.allDeedDiagnostics_append, List.append_assoc]

/-- What events tell. -/
theorem Reads.tells {s s' : Spot} {events : List Event}
    (h : Reads includer options s events s') :
    Tells includer options s (events.map .plain) s' := by
  intro p is l hoptions hat hagrees hallows
  obtain ⟨q, rest, hreach, hq, hfixed, hyield⟩ := h p is hoptions hat
  obtain ⟨-, -, htree⟩ := of_fixed_eq hfixed
  obtain ⟨htracks, hmessages, hdiagnostics, -⟩ := Forest.Tracks.run (y := p.yield) hagrees.tracks
    p.file.text (Ledger.allowsAll_plain.1 hallows)
  have hliteral := Forest.Literal.run (y := p.yield) hagrees.literal p.file.text p.tree events
  have hforest : q.forest = _ := congrArg Yield.forest hyield
  refine ⟨q, rest, hreach, hq, hfixed, ⟨?_, ?_⟩, ?_, ?_⟩
  · rw [Ledger.foldl_deed_plain, hforest, htree]
    exact htracks
  · rw [hforest, htree]
    exact hliteral
  · rw [hyield, Ledger.allDeedMessages_plain]
    exact hmessages
  · rw [hyield, Ledger.allDeedDiagnostics_plain]
    exact hdiagnostics

/-- What calls yield that belong to a name which was not resolved. -/
theorem hearing_of_unresolved {unresolved : String} (hne : unresolved ≠ "") (owner : Name)
    (texts : List String) (file : String) (t : Nat) (y : Yield) :
    Yield.hearing owner unresolved texts file t y = { y with
      messages := y.messages ++ texts.map (.plain file (joinContexts owner.render unresolved)) } := by
  induction texts generalizing y with
  | nil => simp [Yield.hearing]
  | cons text texts ih =>
    have hfirst : y.heard file t owner unresolved text = { y with
        messages := y.messages ++ [.plain file (joinContexts owner.render unresolved) text] } :=
      if_pos hne
    change Yield.hearing owner unresolved texts file t (y.heard file t owner unresolved text) = _
    rw [ih, hfirst, List.map_cons, List.append_assoc, List.singleton_append]

/-- The body of a function that a pending qualifier adopts. -/
theorem tells_adopted (htr : options.calls.lookup "tr" = some .tr) {body : Block}
    (hbody : body.texts ≠ []) {written : String} {base qualifier : List String}
    (hdenotes : Denotes path written base qualifier) (hroot : opened = [] → path = [])
    (hts : ts ≠ []) :
    Tells includer options
      ⟨.awaiting path opened written, ⟨opened.length + 1, 0, 0⟩,
        body.tokens ++ .closing .brace :: ts⟩
      [.adopted base qualifier body.texts] ⟨.between path opened, ⟨opened.length, 0, 0⟩, ts⟩ := by
  intro p is l hoptions hat hagrees hallows
  obtain ⟨outcome, hresolve, hrooted, howner⟩ :=
    resolve_pending hagrees.tracks hagrees.literal hdenotes p.file.text
  -- The first call resolves the qualifier, and the end of the body forgets it.
  obtain ⟨q, rest, y, hreach, hq, hfixed, hy, hbefore, hcomplaint, hyield⟩ :=
    reaches_adoptedBody htr hbody hdenotes.text (Nat.lt_succ_self _) (by simp) hoptions hat hresolve
  obtain ⟨hsame, -, htree⟩ := of_fixed_eq hfixed
  obtain ⟨v, rest', hreach', hv, hfixed', hyield'⟩ :=
    reads_bodyEnd hrooted (ownerOf outcome).2 "" hroot hts q rest (hsame.trans hoptions) hq
  obtain ⟨-, -, htree'⟩ := of_fixed_eq hfixed'
  have hend : v.yield = Yield.hearing (ownerOf outcome).1 (ownerOf outcome).2 body.texts
      p.file.text p.tree y := hyield'.trans hyield
  have htrees : v.tree = p.tree := htree'.trans htree
  have hvforest : v.forest = _ := congrArg Yield.forest hend
  refine ⟨v, rest', hreach.trans hreach', hv, hfixed'.trans hfixed, ?_⟩
  simp only [List.foldl_cons, List.foldl_nil, Ledger.allDeedMessages, Ledger.allDeedDiagnostics,
    List.append_nil, Ledger.deedMessages, Ledger.deedDiagnostics, Ledger.deed]
  by_cases hdeclared : base ++ qualifier ∈ l.declared
  · rw [if_pos hdeclared] at howner
    rw [howner.1, Yield.hearing_scope] at hend hvforest
    rw [howner.2, List.append_nil] at hcomplaint
    have htracks : y.forest.Tracks p.tree [] l := hy ▸ hagrees.tracks
    have hliteral : y.forest.Literal p.tree := hy ▸ hagrees.literal
    obtain ⟨htracks', hmessages', hdiagnostics', -⟩ :=
      htracks.run p.file.text (Ledger.admitsAll_called hdeclared body.texts)
    rw [if_pos hdeclared, if_pos hdeclared, Ledger.adoptive, if_pos hdeclared]
    refine ⟨⟨?_, ?_⟩, ?_, ?_⟩
    · rw [hvforest, htrees]
      exact htracks'
    · rw [hvforest, htrees]
      exact hliteral.run _ _ _
    · rw [hend, ← hbefore, ← Ledger.allMessages_called (by simp [hdenotes.nonempty])]
      exact hmessages'
    · rw [hend, ← hcomplaint]
      exact hdiagnostics'
  · rw [if_neg hdeclared] at howner
    obtain ⟨hunresolved, hcontext, hunknown⟩ := howner
    rw [hearing_of_unresolved hunresolved] at hend hvforest
    rw [if_neg hdeclared, if_neg hdeclared, ← hcontext, ← hunknown]
    refine ⟨⟨?_, ?_⟩, ?_, ?_⟩
    · rw [hvforest, htrees]
      exact hy ▸ hagrees.tracks
    · rw [hvforest, htrees]
      exact hy ▸ hagrees.literal
    · rw [hend, ← hbefore]
    · rw [hend, ← hcomplaint]

/-- The body of a function, whether its calls are adopted or its own. Nothing is pending after it. -/
theorem tells_body (htr : options.calls.lookup "tr" = some .tr) (body : Block) {written : String}
    {base qualifier : List String} (hempty : qualifier = [] → written = "")
    (hdenotes : qualifier ≠ [] → Denotes path written base qualifier)
    (hroot : opened = [] → path = []) (hts : ts ≠ []) :
    Tells includer options
      ⟨.awaiting path opened written, ⟨opened.length + 1, 0, 0⟩,
        body.tokens ++ .closing .brace :: ts⟩
      (if qualifier = [] ∨ body.texts = [] then (body.events path).map .plain
        else [.adopted base qualifier body.texts])
      ⟨.between path opened, ⟨opened.length, 0, 0⟩, ts⟩ := by
  by_cases hbody : body.texts = []
  · have hevents : body.events path = [] := by rw [Block.events_eq_map, hbody, List.map_nil]
    rw [if_pos (.inr hbody), hevents]
    exact ((reads_silentBlock hbody (Nat.lt_succ_self _) (by simp)).trans
      (reads_bodyEnd rfl "" _ hroot hts)).tells
  · by_cases hne : qualifier = []
    · rw [if_pos (.inl hne), hempty hne]
      exact (reads_body htr body hroot hts).tells
    · rw [if_neg (not_or.2 ⟨hne, hbody⟩)]
      exact tells_adopted htr hbody (hdenotes hne) hroot hts

/-- A function after which nothing is pending, whether its calls are adopted or its own. -/
theorem tells_function (htr : options.calls.lookup "tr" = some .tr) {name : String}
    (hname : options.calls.lookup name = none) (body : Block) (hpath : ∀ word ∈ path, word ≠ "")
    {pending : List String} (hpending : IsQualifier pending) (hroot : opened = [] → path = [])
    (hts : ts ≠ []) :
    Tells includer options
      ⟨.awaiting path opened (Name.join pending), ⟨opened.length, 0, 0⟩, .ident "void" ::
        .ident name :: .opening .paren :: .closing .paren :: .opening .brace ::
        (body.tokens ++ .closing .brace :: ts)⟩
      (if pending = [] ∨ body.texts = [] then (body.events path).map .plain
        else [.adopted path pending body.texts])
      ⟨.between path opened, ⟨opened.length, 0, 0⟩, ts⟩ :=
  (reads_functionHead hname rfl (by simp)).tells.trans
    (tells_body htr body (by rintro rfl; rfl) (denotes_join hpath hpending) hroot hts)

/-- The body of a scope, up to the brace that closes it and past it. -/
theorem tells_scopeBody {inner : List Token} {deeds : List Deed} {pending left : String}
    (names : List String) (hroot : opened = [] → path = []) (hts : ts ≠ [])
    (hinner : Tells includer options
      ⟨.awaiting (path ++ names) (opened ++ [path.length + 1]) pending,
        ⟨(opened ++ [path.length + 1]).length, 0, 0⟩, inner ++ .closing .brace :: ts⟩ deeds
      ⟨.awaiting (path ++ names) (opened ++ [path.length + 1]) left,
        ⟨(opened ++ [path.length + 1]).length, 0, 0⟩, .closing .brace :: ts⟩) :
    Tells includer options
      ⟨.awaiting (path ++ names) (opened ++ [path.length + 1]) pending,
        ⟨opened.length + 1, 0, 0⟩, inner ++ .closing .brace :: ts⟩ deeds
      ⟨.between path opened, ⟨opened.length, 0, 0⟩, ts⟩ := by
  rw [List.length_append] at hinner
  have hwhole := hinner.trans (reads_scopeEnd names left hroot hts).tells
  rwa [List.map_nil, List.append_nil] at hwhole

theorem words_ne_empty (hpath : ∀ word ∈ path, word ≠ "") (names : List Identifier) :
    ∀ word ∈ path ++ names.map Identifier.word, word ≠ "" := by
  intro word hword
  rcases List.mem_append.1 hword with hword | hword
  · exact hpath word hword
  · obtain ⟨name, -, rfl⟩ := List.mem_map.1 hword
    exact name.word_ne_empty

/-- The declarations of a draft lead back to where they begin, but for what they leave pending. -/
theorem tells_draft (htr : options.calls.lookup "tr" = some .tr) {inClass : Bool}
    (d : Draft inClass) {pending : List String}
    (hnames : ∀ name ∈ d.outline.functionNames, options.calls.lookup name = none)
    (hpath : ∀ word ∈ path, word ≠ "") (hpending : IsQualifier pending)
    (hroot : opened = [] → path = []) (hts : ts ≠ []) :
    ∃ left, Tells includer options
      ⟨.awaiting path opened (Name.join pending), ⟨opened.length, 0, 0⟩, d.tokens ++ ts⟩
      (d.deeds path pending) ⟨.awaiting path opened left, ⟨opened.length, 0, 0⟩, ts⟩ := by
  induction d generalizing path opened ts pending with
  | done => exact ⟨_, (Reads.refl _).tells⟩
  | namespaces first more inner rest ihinner ihrest =>
    have hbelow := words_ne_empty hpath (first :: more)
    obtain ⟨_, hinner⟩ := @ihinner _ (opened ++ [path.length + 1])
      (.closing .brace :: (rest.tokens ++ ts)) []
      (fun name h ↦ hnames name (List.mem_append_left _ h)) hbelow isQualifier_nil (by simp)
      (by simp)
    obtain ⟨left, hrest⟩ := @ihrest path opened ts []
      (fun name h ↦ hnames name (List.mem_append_right _ h)) hpath isQualifier_nil hroot hts
    simp only [Declarations.tokens, List.cons_append, List.append_assoc]
    exact ⟨left, ((reads_namespaceHead first more _ (by simp)).tells.trans
      (tells_scopeBody _ hroot (by simp [hts]) hinner)).trans hrest⟩
  | unnamed inner rest ihinner ihrest =>
    obtain ⟨_, hinner⟩ := @ihinner (path ++ []) (opened ++ [path.length + 1])
      (.closing .brace :: (rest.tokens ++ ts)) pending
      (fun name h ↦ hnames name (List.mem_append_left _ h)) (by rwa [List.append_nil]) hpending
      (by simp) (by simp)
    obtain ⟨left, hrest⟩ := @ihrest path opened ts []
      (fun name h ↦ hnames name (List.mem_append_right _ h)) hpath isQualifier_nil hroot hts
    have hdeeds : inner.deeds path pending = inner.deeds (path ++ []) pending := by
      rw [List.append_nil]
    simp only [Declarations.tokens, List.cons_append, List.append_assoc, Declarations.deeds]
    rw [hdeeds]
    exact ⟨left, ((reads_unnamedHead _ (by simp)).tells.trans
      (tells_scopeBody [] hroot (by simp [hts]) hinner)).trans hrest⟩
  | classBody name inner rest ihinner ihrest =>
    have hbelow := words_ne_empty hpath [name]
    obtain ⟨_, hinner⟩ := @ihinner _ (opened ++ [path.length + 1])
      (.closing .brace :: .semicolon :: (rest.tokens ++ ts)) []
      (fun name h ↦ hnames name (List.mem_append_left _ h)) hbelow isQualifier_nil (by simp)
      (by simp)
    obtain ⟨left, hrest⟩ := @ihrest path opened ts []
      (fun name h ↦ hnames name (List.mem_append_right _ h)) hpath isQualifier_nil hroot hts
    simp only [Declarations.tokens, List.cons_append, List.append_assoc]
    exact ⟨left, ((reads_classHead name _ rfl (by simp)).tells.trans
      (tells_scopeBody _ hroot (by simp) hinner)).trans
        ((reads_semicolon (by simp [hts])).tells.trans hrest)⟩
  | marker rest ih =>
    obtain ⟨left, htells⟩ := @ih path opened ts pending hnames hpath hpending hroot hts
    simp only [Declarations.tokens, List.cons_append]
    exact ⟨left, (reads_marker _ (by simp [hts])).tells.trans htells⟩
  | function name body rest ih =>
    have hname := hnames name.word List.mem_cons_self
    have hrest := fun name h ↦ hnames name (List.mem_cons_of_mem _ h)
    obtain ⟨left, htells⟩ := @ih path opened ts [] hrest hpath isQualifier_nil hroot hts
    simp only [Declarations.tokens, List.cons_append, List.append_assoc]
    exact ⟨left, (tells_function htr hname body hpath hpending hroot (by simp [hts])).trans htells⟩
  | member allowed m rest ih =>
    obtain ⟨left, htells⟩ := ih hnames hpath (isQualifier_member m) hroot hts
    simp only [Declarations.tokens, List.append_assoc]
    exact ⟨left, (reads_member m _ (by simp [hts])).tells.trans htells⟩

end Parser

end Harvest
