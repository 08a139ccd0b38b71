import Harvest.Proofs.Extract.Reuse
import Harvest.Proofs.Parser.Pending
import Harvest.Proofs.Parser.Standing
import Harvest.Proofs.Source.Pulling

/-!
# Markers

A marker in a class says that the class supports localization, and it may declare the context of its
calls. It changes the scope that is open, in the tree of the file that is being read, while calls
read the definition of the scope that is found. Main statement: right after a marker the open scope
is found in the file itself. Its definition supports localization, unless the scope that was found
before is defined in an included file: that definition is as it was before the marker.
-/

namespace Harvest

/-- What a change of the scope called `place` comes to, as seen from the file `t`. -/
theorem Forest.WellFormed.modifyAt_cases {f : Forest} {t : Nat} (h : f.WellFormed)
    (ht : t < f.trees.size) (place : Name)
    {change : Scope → Scope} (hlocal : Scope.Local change)
    (hchildren : Scope.KeepsChildren change) :
    let g := f.modifyAt t place change
    ∃ r, g.findName? t place = some r ∧ r.tree = t ∧
      ((∀ x, f.findName? t place = some x → (f.definition x).tree = t) →
        g.definition r = r ∧ ∃ s, g.scope r = change s) ∧
      ∀ x, f.findName? t place = some x → (f.definition x).tree ≠ t →
        g.definition r = f.definition x ∧ g.scope (f.definition x) = f.scope (f.definition x) := by
  intro g
  have hopens := h.opens_openScope ht place true
  have hg : g = (f.openScope t place true).1.modifyScope (f.openScope t place true).2 change := rfl
  generalize f.openScope t place true = opened at hopens hg
  obtain ⟨k, r⟩ := opened
  obtain ⟨hformed, hfiles, hwalk, hothers, hdefinition⟩ := hopens
  dsimp only at hformed hfiles hwalk hothers hdefinition hg
  have htree : r.tree = t := tree_of_walk hwalk
  have hr : k.Has r := hformed.has_of_walk (hfiles.size ▸ ht) hwalk
  have hshape := k.sameShape_modifyScope r hlocal hchildren
  rw [← hg] at hshape
  have hfound : g.findName? t place = some r := by
    rw [findName?, find?_congr hshape.files hshape.children]
    exact find?_of_walk hwalk
  refine ⟨r, hfound, htree, fun hhere ↦ ?_, fun x hx hthere ↦ ?_⟩
  · have hself : k.definition r = r := by
      rw [hdefinition rfl]
      cases hx : f.find? t (place.below place.length) with
      | none => rfl
      | some x =>
        have hdefines := hformed.definition t _ r hwalk
        rw [hdefinition rfl, hx] at hdefines
        have hd : k.walk (f.definition x).tree (place.below place.length) =
          some (f.definition x) := hdefines.walk
        rw [hhere x hx, hwalk] at hd
        exact (Option.some.inj hd).symm
    rw [hshape.definition, hself]
    refine ⟨rfl, k.scope r, ?_⟩
    rw [hg, scope_modifyScope, if_pos ⟨rfl, hr⟩]
  · have hshared : k.definition r = f.definition x := by
      rw [hdefinition rfl, show f.find? t (place.below place.length) = some x from hx]
      rfl
    have hne : f.definition x ≠ r := by
      intro heq
      rw [heq] at hthere
      exact hthere htree
    refine ⟨(hshape.definition r).trans hshared, ?_⟩
    rw [hg, scope_modifyScope, if_neg fun heq ↦ hne heq.1, scope, hothers _ hthere, ← scope]

namespace Parser

variable {p q : Parser} {context : Option String} {words : List String} {ts : List Token} {n : Nat}

/-- The scopes, and which of them are open now and were open at the snapshots that were kept. -/
abbrev Bearings := Forest × Snapshot × Array Snapshot

def bearings (p : Parser) : Bearings := (p.forest, p.snapshot, p.kept)

/-- What a note does to the bearings of a parser. -/
def steer : Note → Bearings → Bearings
  | .save _, (f, s, kept) => (f, s, kept.push s)
  | .restore slot, (f, s, kept) => (f, kept.getD slot s, kept)
  | _, b => b

theorem bearings_note (p : Parser) (n : Note) : (p.note n).bearings = steer n p.bearings := by
  cases n with
  | comment body line =>
    obtain ⟨_, _, _, h⟩ := p.note_comment body line
    rw [h]
    rfl
  | _ => rfl

theorem bearings_notes (p : Parser) (ns : List Note) :
    (ns.foldl note p).bearings = ns.foldl (fun b n ↦ steer n b) p.bearings := by
  induction ns generalizing p with
  | nil => rfl
  | cons n ns ih => rw [List.foldl_cons, ih, bearings_note, List.foldl_cons]

theorem bearings_advance (p : Parser) :
    p.advance.bearings =
      (p.rest.head?.elim [] Item.notes).foldl (fun b n ↦ steer n b) p.bearings := by
  unfold advance
  cases p.rest with
  | nil => rfl
  | cons item rest => exact p.bearings_notes item.notes

/-- The bearings later on depend on those at present and on what is left to read. -/
theorem bearings_iterate (hrest : q.rest = p.rest) (h : q.bearings = p.bearings) (k : Nat) :
    (advance^[k] q).bearings = (advance^[k] p).bearings := by
  induction k generalizing p q with
  | zero => exact h
  | succ k ih =>
    rw [Function.iterate_succ_apply, Function.iterate_succ_apply]
    apply ih
    · rw [rest_advance, hrest, rest_advance]
    · rw [bearings_advance, hrest, h, bearings_advance]

theorem forest_advance (p : Parser) : p.advance.forest = p.forest := by
  have hsteer : ∀ (ns : List Note) (b : Bearings), (ns.foldl (fun b n ↦ steer n b) b).1 = b.1 := by
    intro ns
    induction ns with
    | nil => exact fun _ ↦ rfl
    | cons n ns ih =>
      intro b
      rw [List.foldl_cons, ih]
      cases n <;> rfl
  exact (congrArg Prod.fst p.bearings_advance).trans (hsteer _ _)

theorem tree_advance (p : Parser) : p.advance.tree = p.tree :=
  congrArg (·.2.2.2.2.2.2) (frame_of_fixed p.onward_advance.fixed)

theorem iterate_advance (p : Parser) (k : Nat) :
    (advance^[k] p).forest = p.forest ∧ (advance^[k] p).tree = p.tree := by
  induction k generalizing p with
  | zero => exact ⟨rfl, rfl⟩
  | succ k ih =>
    rw [Function.iterate_succ_apply]
    exact ⟨(ih _).1.trans p.forest_advance, (ih _).2.trans p.tree_advance⟩

/-- The tokens of a name that is written with `::` between its words. -/
def nameTokens (words : List String) : List Token := (words.map .ident).intersperse .colonColon

/-- The current token and the `n` tokens after it are a marker, with the context that it
declares. -/
inductive Marks (p : Parser) : Nat → Option String → Prop
  | word {after : List Token} (hahead : p.ahead = .marker :: after) : Marks p 0 none
  | declaration {word : String} {c : Call} {words : List String} {after : List Token}
      (hahead : p.ahead = .ident word :: .opening .paren ::
        (nameTokens words ++ .closing .paren :: after))
      (hcall : p.options.calls.lookup word = some c) (hshape : c.shape = .declare)
      (hwords : words ≠ []) : Marks p ((nameTokens words).length + 2) (some (Name.join words))

/-- The name in a marker is read up to the closing parenthesis. -/
theorem declaredName_eq (hwords : words ≠ []) {t : Token}
    (hahead : p.ahead = t :: (nameTokens words ++ .closing .paren :: ts)) (hn : words.length ≤ n)
    (before : String) :
    declaredName n before p =
      (some (before ++ Name.join words), advance^[(nameTokens words).length + 1] p) := by
  induction words generalizing p t n before with
  | nil => exact (hwords rfl).elim
  | cons word words ih =>
    obtain ⟨n, rfl⟩ := Nat.exists_eq_add_of_le' (Nat.le_trans (Nat.le_add_left 1 _) hn)
    cases words with
    | nil =>
      have hword := ahead_advance hahead
      have hclosing := ahead_advance hword
      simp only [declaredName, token_of_ahead hword, Token.ident?, token_of_ahead hclosing,
        Name.join, String.intercalate_singleton]
      rfl
    | cons next words =>
      have hword := ahead_advance hahead
      have hcolons := ahead_advance hword
      simp only [declaredName, token_of_ahead hword, Token.ident?, token_of_ahead hcolons]
      rw [ih (List.cons_ne_nil _ _) hcolons (Nat.le_of_succ_le_succ hn), Name.join_cons_cons,
        String.append_assoc, String.append_assoc, String.append_assoc]
      rfl

/-- What a marker does to the open scope. -/
def mark (context : Option String) (s : Scope) : Scope :=
  { s with supportsTr := true, qualification := context.or s.qualification }

theorem declareCall_eq (hwords : words ≠ []) {t : Token}
    (hahead : p.ahead = t :: (nameTokens words ++ .closing .paren :: ts)) :
    p.declareCall = (advance^[(nameTokens words).length + 1] p).modifyOpenScope
      (mark (some (Name.join words))) := by
  have hbudget : words.length ≤ p.budget := by
    have hlength := congrArg List.length hahead
    simp only [ahead, nameTokens, List.length_map, List.length_append, List.length_intersperse,
      List.length_cons] at hlength
    rw [budget]
    omega
  rw [declareCall, declaredName_eq hwords hahead hbudget, String.empty_append]
  rfl

/-- The token of a marker is neither the end of a file nor an include. -/
theorem Marks.token (h : p.Marks n context) : p.token = .marker ∨ ∃ word, p.token = .ident word := by
  cases h with
  | word hahead => exact .inl (token_of_ahead hahead)
  | declaration hahead => exact .inr ⟨_, token_of_ahead hahead⟩

/-- A turn at a marker changes the scope that is open at its last token. -/
theorem turn_of_marks (includer : Includer) (h : p.Marks n context)
    (hread : (p.depths.bracket > 0 && p.atNamespaceLevel) = false) :
    (p.turn includer).forest =
        p.forest.modifyAt p.tree (advance^[n] p).snapshot.namespaces (mark context) ∧
      (p.turn includer).tree = p.tree := by
  rw [turn, hread, if_neg Bool.false_ne_true]
  cases h with
  | word hahead =>
    rw [token_of_ahead hahead]
    exact ⟨forest_advance _, tree_advance _⟩
  | @declaration word c words after hahead hcall hshape hwords =>
    rw [token_of_ahead hahead]
    dsimp only [onIdent]
    -- That an initializer has begun makes no difference.
    generalize hq : (if p.statement.colonSeen && p.atDeclarationLevel then
      { p with statement := { p.statement with identSeen := true } } else p) = q
    obtain ⟨hsame, hrest, hbearings, hoptions, htree⟩ : q.ahead = p.ahead ∧ q.rest = p.rest ∧
        q.bearings = p.bearings ∧ q.options = p.options ∧ q.tree = p.tree := by
      rw [← hq]
      split <;> exact ⟨rfl, rfl, rfl, rfl, rfl⟩
    have hparen := ahead_advance (hsame.trans hahead)
    have hlookup : q.advance.options.calls.lookup word = some c := by
      have hoptions' : q.advance.options = q.options := congrArg Prod.fst q.onward_advance.fixed
      rw [hoptions', hoptions, hcall]
    have hcalled : q.advance.call c = (advance^[(nameTokens words).length + 2] q).modifyOpenScope
        (mark (some (Name.join words))) := by
      rw [call, hshape]
      exact declareCall_eq hwords hparen
    have hlater := bearings_iterate hrest hbearings ((nameTokens words).length + 2)
    have hplace : (advance^[(nameTokens words).length + 2] q).snapshot =
        (advance^[(nameTokens words).length + 2] p).snapshot := congrArg (·.2.1) hlater
    have hforest : q.forest = p.forest := congrArg Prod.fst hbearings
    obtain ⟨hforest', htree'⟩ := q.iterate_advance ((nameTokens words).length + 2)
    rw [if_pos (token_of_ahead hparen), hlookup]
    dsimp only
    rw [hcalled]
    constructor
    · rw [forest_advance, ← hplace, ← hforest, ← htree, ← hforest', ← htree']
      rfl
    · rw [tree_advance, ← htree, ← htree']
      rfl

end Parser

namespace Stage

variable {e : Extractor}

theorem step_of_marks {p : Parser} {waiting : List Parser} {left : List (Path × String)} {n : Nat}
    {context : Option String} (h : p.Marks n context) :
    (Stage.reading p waiting left).step e = some (.reading (p.turn fun _ p ↦ p) waiting left) := by
  have hinclude : p.include? = none := by
    unfold Parser.include?
    rcases h.token with htoken | ⟨word, htoken⟩ <;> rw [htoken] <;> split <;> rfl
  have heof : p.token ≠ .eof := by
    rcases h.token with htoken | ⟨word, htoken⟩ <;> rw [htoken] <;> nofun
  simp only [step, heof, if_false, hinclude]

/-- A file is read at the stage, by a parser that has a property. -/
def reads (P : Parser → Bool) : Stage → Bool
  | .reading p _ _ => P p
  | .between _ _ => false

theorem exists_reading {P : Parser → Bool} {n : Nat} {s : Stage}
    (h : (s.stepped e n).any (reads P) = true) :
    ∃ p waiting left, Reaches e s (.reading p waiting left) ∧ P p = true := by
  obtain ⟨s', hstepped, hreads⟩ := (Option.any_eq_true _ _).1 h
  cases s' with
  | between session left => exact (Bool.false_ne_true hreads).elim
  | reading p waiting left => exact ⟨p, waiting, left, reaches_of_stepped hstepped, hreads⟩

end Stage

namespace Extractor

/-- Right after a marker, the open scope is found in the file itself. Its definition supports
localization, under the context that the marker declares. Only if the scope that was found before is
defined in another file, that definition is shared and stays as it was. -/
theorem marker_takes_effect (options : Options) (files : FileTree)
    (runs : List (List (Path × String))) (inputs : List (Path × String)) {p : Parser}
    {waiting : List Parser} {left : List (Path × String)}
    (hreached : Stage.Reaches (after { options, files } runs)
      ((after { options, files } runs).start inputs) (.reading p waiting left))
    {n : Nat} {context : Option String} (hmarks : p.Marks n context)
    (hread : (p.depths.bracket > 0 && p.atNamespaceLevel) = false) :
    let place := (Parser.advance^[n] p).snapshot.namespaces
    ∃ q r, (Stage.reading p waiting left).step (after { options, files } runs) =
        some (.reading q waiting left) ∧
      q.tree = p.tree ∧ q.forest.findName? q.tree place = some r ∧ r.tree = p.tree ∧
      ((∀ x, p.forest.findName? p.tree place = some x → (p.forest.definition x).tree = p.tree) →
        q.forest.supports r ∧
          ∀ text ∈ context, (q.forest.scope (q.forest.definition r)).qualification = some text) ∧
      ∀ x, p.forest.findName? p.tree place = some x → (p.forest.definition x).tree ≠ p.tree →
        q.forest.definition r = p.forest.definition x ∧
          q.forest.scope (q.forest.definition r) = p.forest.scope (p.forest.definition x) := by
  intro place
  obtain ⟨updates, hstart⟩ := sound_after options files runs inputs
  obtain ⟨updates', -, hsound⟩ := hstart.later hreached.later
  have hformed : p.forest.WellFormed := hsound.1.forest
  have htree : p.tree < p.forest.trees.size := hsound.2 p List.mem_cons_self
  have hlocal : Scope.Local (Parser.mark context) := fun _ _ ↦ rfl
  have hchildren : Scope.KeepsChildren (Parser.mark context) := fun _ ↦ rfl
  obtain ⟨r, hfound, hr, heffect, hshared⟩ := hformed.modifyAt_cases htree place hlocal hchildren
  obtain ⟨hforest, hsame⟩ := Parser.turn_of_marks (fun _ p ↦ p) hmarks hread
  rw [← hforest] at hfound heffect hshared
  refine ⟨p.turn fun _ p ↦ p, r, Stage.step_of_marks hmarks, hsame, hsame ▸ hfound, hr,
    fun hhere ↦ ?_, fun x hx hthere ↦ ?_⟩
  · obtain ⟨hself, s, hs⟩ := heffect hhere
    rw [Forest.supports, hself, hs]
    refine ⟨rfl, fun text htext ↦ ?_⟩
    rw [Option.mem_def.1 htext]
    rfl
  · obtain ⟨hdefinition, hscope⟩ := hshared x hx hthere
    rw [hdefinition]
    exact ⟨rfl, hscope⟩

/-- A header with a namespace. -/
def namespaceFiles : FileTree :=
  { entries := [(["h.h"], .file ⟨(Text.Utf8.encode "namespace N \x7b \x7d".toList).toArray⟩)] }

def nestedMarker : List (Path × String) :=
  [(⟨"main.cpp"⟩, "#include \"h.h\"\n" ++
    "namespace N \x7b class C \x7b Q_DECLARE_TR_FUNCTIONS(A::B) \x7d; \x7d")]

/-- The namespace is shared with the header, but the class in it is not. -/
theorem marker_takes_effect_nested :
    ∃ p waiting left q r,
      Stage.Reaches { files := namespaceFiles } (start { files := namespaceFiles } nestedMarker)
        (.reading p waiting left) ∧
      p.Marks 5 (some "A::B") ∧
      (Parser.advance^[5] p).snapshot.namespaces = ⟨["", "N", "C"]⟩ ∧
      (Stage.reading p waiting left).step { files := namespaceFiles } =
        some (.reading q waiting left) ∧
      q.forest.findName? q.tree ⟨["", "N", "C"]⟩ = some r ∧ q.forest.supports r ∧
      (q.forest.scope (q.forest.definition r)).qualification = some "A::B" := by
  have hstages : ((start { files := namespaceFiles } nestedMarker).stepped
      { files := namespaceFiles } 7).any (Stage.reads fun p ↦
        p.ahead = .ident "Q_DECLARE_TR_FUNCTIONS" :: .opening .paren ::
          (Parser.nameTokens ["A", "B"] ++ .closing .paren :: p.ahead.drop 6) ∧
        p.options.calls.lookup "Q_DECLARE_TR_FUNCTIONS" = some .declareTrFunctions ∧
        (p.depths.bracket > 0 && p.atNamespaceLevel) = false ∧
        (Parser.advance^[5] p).snapshot.namespaces = ⟨["", "N", "C"]⟩ ∧
        p.forest.findName? p.tree ⟨["", "N", "C"]⟩ = some ⟨0, 2⟩ ∧
        (p.forest.definition ⟨0, 2⟩).tree = p.tree) = true := by
    decide +kernel
  obtain ⟨p, waiting, left, hreached, hstage⟩ := Stage.exists_reading hstages
  obtain ⟨hahead, hcall, hread, hplace, hfound, hhere⟩ := of_decide_eq_true hstage
  have hmarks : p.Marks 5 (some "A::B") :=
    .declaration hahead hcall rfl (List.cons_ne_nil "A" ["B"])
  obtain ⟨q, r, hstep, -, hr, -, heffect, -⟩ :=
    marker_takes_effect {} namespaceFiles [] nestedMarker hreached hmarks hread
  rw [hplace] at hr heffect
  have hsupports := heffect fun x hx ↦ by
    obtain rfl := Option.some.inj (hfound.symm.trans hx)
    exact hhere
  exact ⟨p, waiting, left, q, r, hreached, hmarks, hplace, hstep, hr, hsupports.1,
    hsupports.2 "A::B" rfl⟩

/-- A header with a class. -/
def classFiles : FileTree :=
  { entries := [(["h.h"], .file ⟨(Text.Utf8.encode "class C \x7b \x7d;".toList).toArray⟩)] }

def sharedMarker : List (Path × String) :=
  [(⟨"main.cpp"⟩, "#include \"h.h\"\n" ++
    "class C \x7b Q_DECLARE_TR_FUNCTIONS(X) void f() \x7b tr(\"s\"); \x7d \x7d;")]

/-- The class is shared with the header, and the marker in it is lost. -/
theorem marker_shared_lost :
    (∃ p waiting left q r,
      Stage.Reaches { files := classFiles } (start { files := classFiles } sharedMarker)
        (.reading p waiting left) ∧
      p.Marks 3 (some "X") ∧ (p.depths.bracket > 0 && p.atNamespaceLevel) = false ∧
      (Parser.advance^[3] p).snapshot.namespaces = ⟨["", "C"]⟩ ∧
      (Stage.reading p waiting left).step { files := classFiles } =
        some (.reading q waiting left) ∧
      q.forest.findName? q.tree ⟨["", "C"]⟩ = some r ∧ q.forest.supports r = false ∧
      (q.forest.scope (q.forest.definition r)).qualification = none) ∧
      (extractFiles { files := classFiles } sharedMarker).1.messages.map Message.context =
        ["C"] := by
  have hstages : ((start { files := classFiles } sharedMarker).stepped
      { files := classFiles } 7).any (Stage.reads fun p ↦
        p.ahead = .ident "Q_DECLARE_TR_FUNCTIONS" :: .opening .paren ::
          (Parser.nameTokens ["X"] ++ .closing .paren :: p.ahead.drop 4) ∧
        p.options.calls.lookup "Q_DECLARE_TR_FUNCTIONS" = some .declareTrFunctions ∧
        (p.depths.bracket > 0 && p.atNamespaceLevel) = false ∧
        (Parser.advance^[3] p).snapshot.namespaces = ⟨["", "C"]⟩ ∧
        (p.turn fun _ p ↦ p).forest.findName? (p.turn fun _ p ↦ p).tree ⟨["", "C"]⟩ =
          some ⟨0, 1⟩ ∧
        (p.turn fun _ p ↦ p).forest.supports ⟨0, 1⟩ = false ∧
        ((p.turn fun _ p ↦ p).forest.scope
          ((p.turn fun _ p ↦ p).forest.definition ⟨0, 1⟩)).qualification = none) = true := by
    decide +kernel
  obtain ⟨p, waiting, left, hreached, hstage⟩ := Stage.exists_reading hstages
  obtain ⟨hahead, hcall, hread, hplace, hfound⟩ := of_decide_eq_true hstage
  have hmarks : p.Marks 3 (some "X") :=
    .declaration hahead hcall rfl (List.cons_ne_nil "X" [])
  exact ⟨⟨p, waiting, left, p.turn fun _ p ↦ p, ⟨0, 1⟩, hreached, hmarks, hread, hplace,
    Stage.step_of_marks hmarks, hfound⟩, by decide +kernel⟩

end Extractor

end Harvest
