import Harvest.Parser.Loop
import Harvest.Proofs.Outline
import Harvest.Proofs.Text.Utf8

/-!
# Reading outlines

What the main loop of a parser makes of the tokens of an outline. Between two declarations, and
between two statements of a function body, a parser stands in a known scope with nothing under way.
Reading an outline leads from such a place to another one, and the scope forest, the messages and
the diagnostics change by the events of the outline, one after the other.

Lines are left out of messages and diagnostics here, since the tokens of an outline do not say on
which lines they are written.
-/

namespace Harvest

/-- A message apart from its line. -/
def Message.unlined (m : Message) : Message := { m with line := 0 }

/-- A diagnostic apart from its line. -/
def Diagnostic.unlined (d : Diagnostic) : Diagnostic := { d with line := 0 }

/-- The message of a call with nothing but a text. -/
def Message.plain (file context text : String) : Message :=
  { context, sourceText := text, comment := "", extraComment := "", id := "", extras := [],
    plural := false, kind := .translation, file, line := 0 }

def Diagnostic.missingContext (file : String) : Diagnostic :=
  ⟨file, 0, .missingContext, "tr() cannot be called without context"⟩

def Diagnostic.missingSupport (file context : String) : Diagnostic :=
  ⟨file, 0, .missingTrSupport, "Class '" ++ context ++ "' lacks Q_OBJECT macro"⟩

/-- Gives the scope called `place` localization support. -/
def Forest.mark (f : Forest) (t : Nat) (place : Name) : Forest :=
  f.modifyAt t place fun s ↦ { s with supportsTr := true }

/-- What reading a file changes. -/
structure Yield where
  forest : Forest
  messages : List Message
  diagnostics : List Diagnostic

namespace Yield

/-- A call of `text` at `path`, which has a context unless it lies outside of all scopes. -/
def called (y : Yield) (file : String) (t : Nat) (path : List String) (text : String) : Yield :=
  if path = [] then { y with diagnostics := y.diagnostics ++ [.missingContext file] }
  else
    let found := y.forest.unqualifiedContext t ⟨"" :: path⟩
    { forest := found.2
      messages := y.messages ++ [.plain file found.1.text text]
      diagnostics := y.diagnostics ++
        if found.1.lacksSupport then [.missingSupport file found.1.text] else [] }

def step (file : String) (t : Nat) (y : Yield) : Event → Yield
  | .entered path => { y with forest := y.forest.enter t ⟨"" :: path⟩ }
  | .marked path => { y with forest := y.forest.mark t ⟨"" :: path⟩ }
  | .called path text => y.called file t path text

/-- A call of `text` in a function that belongs to `owner`, of whose name `unresolved` is left. -/
def heard (y : Yield) (file : String) (t : Nat) (owner : Name) (unresolved text : String) : Yield :=
  if unresolved ≠ "" then
    { y with messages := y.messages ++ [.plain file (joinContexts owner.render unresolved) text] }
  else if owner.length < 2 then
    { y with diagnostics := y.diagnostics ++ [.missingContext file] }
  else
    let found := y.forest.unqualifiedContext t owner
    { forest := found.2
      messages := y.messages ++ [.plain file found.1.text text]
      diagnostics := y.diagnostics ++
        if found.1.lacksSupport then [.missingSupport file found.1.text] else [] }

/-- A call in a function of the scope at `path`. -/
theorem heard_scope (y : Yield) (file : String) (t : Nat) (path : List String) (text : String) :
    y.heard file t ⟨"" :: path⟩ "" text = y.called file t path text := by
  cases path with
  | nil => rfl
  | cons name path =>
    have hlength : ¬ (⟨"" :: name :: path⟩ : Name).length < 2 := by simp [Name.length]
    rw [heard, if_neg (by simp), if_neg hlength]
    rfl

/-- How a piece of text changes what is yielded, given the name of its file and its tree. -/
abbrev Change := String → Nat → Yield → Yield

/-- The change that events make, one after the other. -/
def along (events : List Event) : Change := fun file t y ↦ events.foldl (step file t) y

/-- The change that calls make in a function that belongs to `owner`. -/
def hearing (owner : Name) (unresolved : String) (texts : List String) : Change := fun file t y ↦
  texts.foldl (fun y text ↦ y.heard file t owner unresolved text) y

/-- The calls in a function of the scope at `path` are events. -/
theorem hearing_scope (path texts : List String) :
    hearing ⟨"" :: path⟩ "" texts = along (texts.map (.called path)) := by
  funext file t y
  simp only [along, hearing, List.foldl_map, step, heard_scope]

end Yield

namespace Snapshot

/-- The snapshot between two declarations of the scope at `path`. -/
def between (path : List String) (opened : List Nat) : Snapshot :=
  { namespaces := ⟨"" :: path⟩, depths := opened, functionContext := ⟨"" :: path⟩ }

/-- The snapshot in a function body of the scope at `path` that belongs to `owner`, of whose name
`unresolved` is left. -/
def within (path : List String) (opened : List Nat) (owner : Name) (unresolved : String) :
    Snapshot :=
  { between path opened with functionContext := owner, unresolved }

/-- The snapshot between two declarations of the scope at `path`, after the qualifier of what might
have been a definition. -/
def awaiting (path : List String) (opened : List Nat) (pending : String) : Snapshot :=
  { between path opened with pending }

theorem leave_of_le {s : Snapshot} {depth : Nat} (hdepth : s.depths.length ≤ depth) :
    s.leave depth = s := by
  unfold leave
  cases s.depths.getLast? with
  | none => rfl
  | some length => exact if_neg (by omega)

/-- The end of a block within a function body changes nothing. -/
theorem endBody_of_lt {s : Snapshot} {depth : Nat} (inPlace : Bool)
    (hdepth : s.depths.length < depth) : s.endBody depth inPlace = s := if_neg (by omega)

/-- After the end of a function body or of a scope, functions belong to the scope at `path`. -/
theorem endBody_within {path : List String} {opened : List Nat} {owner : Name}
    (howner : owner.take 1 = Name.root) (unresolved pending : String) (inPlace : Bool)
    (hroot : opened = [] → path = []) :
    ({ within path opened owner unresolved with pending } : Snapshot).endBody opened.length inPlace =
      between path opened := by
  cases opened with
  | nil => cases inPlace <;> simp [endBody, within, between, hroot, howner, Name.root]
  | cons length opened => simp [endBody, within, between]

/-- The end of a scope leads back to the scope around it. -/
theorem leave_awaiting (path names : List String) (opened : List Nat) (pending : String) :
    (awaiting (path ++ names) (opened ++ [path.length + 1]) pending).leave opened.length =
      { within path opened ⟨"" :: (path ++ names)⟩ "" with pending } := by
  simp [leave, within, awaiting, between, Name.take]

end Snapshot

theorem carries_length {d : Depths} {ts : List Token} {is : List Item} (his : Carries d ts is) :
    is.length = ts.length := by
  induction ts generalizing d is with
  | nil =>
    obtain rfl : is = [] := his
    rfl
  | cons t ts ih =>
    obtain ⟨l, rest, rfl, hrest⟩ := his
    simp [ih hrest]

namespace Parser

def yield (p : Parser) : Yield :=
  ⟨p.forest, p.messages.toList.map Message.unlined,
    p.session.diagnostics.toList.map Diagnostic.unlined⟩

/-- What stays the same while a file without includes is read. -/
def fixed (p : Parser) :=
  (p.options, p.files, p.file, p.inPlace, p.stack, p.trailing, p.tree, p.session.cache)

/-- A parser with these items ahead, the first of them current. -/
def load (p : Parser) : List Item → Parser
  | [] => { p with token := .eof, rest := [] }
  | i :: is => { p with token := i.token, line := i.line, depths := i.depths, rest := is }

theorem advance_load (p : Parser) (i : Item) (t : Token) (l : Nat) (d : Depths) (is : List Item) :
    (p.load (i :: ⟨[], t, l, d⟩ :: is)).advance = p.load (⟨[], t, l, d⟩ :: is) := rfl

/-! ### Turns of the loop -/

/-- The second parser comes from the first in turns of the main loop, each of which consumes
tokens. -/
inductive Reaches (includer : Includer) : Parser → Parser → Prop
  | refl (p : Parser) : Reaches includer p p
  | turn {p q : Parser} (htoken : p.token ≠ .eof)
      (hless : (p.turn includer).rest.length < p.rest.length)
      (hrest : Reaches includer (p.turn includer) q) : Reaches includer p q

theorem Reaches.trans {includer : Includer} {p q r : Parser} (hpq : Reaches includer p q)
    (hqr : Reaches includer q r) : Reaches includer p r := by
  induction hpq with
  | refl => exact hqr
  | turn htoken hless _ ih => exact .turn htoken hless (ih hqr)

/-- The loop ends in what is reached at the end of the tokens. -/
theorem loop_of_reaches {includer : Includer} {p q : Parser} (hreach : Reaches includer p q)
    (hend : q.token = .eof) {n : Nat} (hn : p.rest.length < n) : loop includer n p = q := by
  induction hreach generalizing n with
  | refl p =>
    obtain ⟨m, rfl⟩ := Nat.exists_eq_succ_of_ne_zero (Nat.ne_zero_of_lt hn)
    rw [loop, if_pos hend]
  | turn htoken hless _ ih =>
    obtain ⟨m, rfl⟩ := Nat.exists_eq_succ_of_ne_zero (Nat.ne_zero_of_lt hn)
    rw [loop, if_neg htoken]
    exact ih hend (by omega)

/-- One turn from loaded items to loaded items. -/
theorem Reaches.of_turn {includer : Includer} {p q : Parser} {i : Item} {is js : List Item}
    (htoken : i.token ≠ .eof) (hturn : (p.load (i :: is)).turn includer = q.load js)
    (hless : js.length ≤ is.length) (hjs : js ≠ []) :
    Reaches includer (p.load (i :: is)) (q.load js) := by
  refine .turn htoken ?_ (hturn ▸ .refl _)
  rw [hturn]
  cases js with
  | nil => exact absurd rfl hjs
  | cons j js =>
    simp only [load, List.length_cons] at hless ⊢
    omega

/-- Between two declarations, or two statements of a body: nothing is under way but what the snapshot
says. -/
structure Stands (p : Parser) (s : Snapshot) : Prop where
  snapshot : p.snapshot = s
  statement : p.statement = {}
  prospective : p.prospective = ""
  remarks : p.remarks = {}

/-- A place in a text: where a parser stands and which tokens are ahead of it. -/
structure Spot where
  snapshot : Snapshot
  depths : Depths
  tokens : List Token

/-- A parser that has these items ahead is at the spot. -/
structure IsAt (p : Parser) (is : List Item) (s : Spot) : Prop where
  stands : p.Stands s.snapshot
  carries : Carries s.depths s.tokens is

/-- The parser `q` is at the spot, and what `p` yields has changed. -/
structure Leads (p : Parser) (change : Yield.Change) (q : Parser) (rest : List Item) (s : Spot) :
    Prop where
  isAt : q.IsAt rest s
  fixed : q.fixed = p.fixed
  yield : q.yield = change p.file.text p.tree p.yield

/-- Reading leads from every parser at the first spot to one at the second, and changes what is
yielded. -/
def Passes (includer : Includer) (options : Options) (s : Spot) (change : Yield.Change)
    (s' : Spot) : Prop :=
  ∀ (p : Parser) (is : List Item), p.options = options → p.IsAt is s →
    ∃ (q : Parser) (rest : List Item), Reaches includer (p.load is) (q.load rest) ∧
      p.Leads change q rest s'

/-- Reading leads from the first spot to the second by the events. -/
def Reads (includer : Includer) (options : Options) (s : Spot) (events : List Event) (s' : Spot) :
    Prop :=
  Passes includer options s (Yield.along events) s'

variable {includer : Includer} {options : Options} {p : Parser} {path : List String}
  {opened : List Nat} {s : Snapshot} {n : Nat} {t : Token} {ts : List Token} {is : List Item}

/-- What stays fixed includes the options, the file and its tree. -/
theorem of_fixed_eq {q : Parser} (h : q.fixed = p.fixed) :
    q.options = p.options ∧ q.file = p.file ∧ q.tree = p.tree := by
  simp only [Parser.fixed, Prod.mk.injEq] at h
  exact ⟨h.1, h.2.2.1, h.2.2.2.2.2.2.1⟩

theorem Passes.trans {s s' s'' : Spot} {change change' : Yield.Change}
    (hone : Passes includer options s change s') (htwo : Passes includer options s' change' s'') :
    Passes includer options s (fun file t y ↦ change' file t (change file t y)) s'' := by
  intro p is hoptions h
  obtain ⟨q, rest, hreach, hq, hfixed, hyield⟩ := hone p is hoptions h
  obtain ⟨hsame, hfile, htree⟩ := of_fixed_eq hfixed
  obtain ⟨r, rest', hreach', hr, hfixed', hyield'⟩ := htwo q rest (hsame.trans hoptions) hq
  refine ⟨r, rest', hreach.trans hreach', hr, hfixed'.trans hfixed, ?_⟩
  rw [hyield', hyield, hfile, htree]

theorem Reads.refl (s : Spot) : Reads includer options s [] s :=
  fun p is _ h ↦ ⟨p, is, .refl _, h, rfl, rfl⟩

theorem Reads.trans {s s' s'' : Spot} {events events' : List Event}
    (hone : Reads includer options s events s') (htwo : Reads includer options s' events' s'') :
    Reads includer options s (events ++ events') s'' := by
  have hboth : Yield.along (events ++ events') =
      fun file t y ↦ Yield.along events' file t (Yield.along events file t y) := by
    funext file t y
    exact List.foldl_append
  rw [Reads, hboth]
  exact Passes.trans hone htwo

/-- Tokens without events may stand before others. -/
theorem Reads.andThen {s s' s'' : Spot} {change : Yield.Change}
    (hone : Reads includer options s [] s') (htwo : Passes includer options s' change s'') :
    Passes includer options s change s'' :=
  Passes.trans hone htwo

/-- A turn of the loop is a way of reading. -/
theorem Passes.of_turn {s s' : Spot} {change : Yield.Change}
    (htoken : s.tokens.head? ≠ some .eof) (hless : s'.tokens.length < s.tokens.length)
    (hends : s'.tokens ≠ [])
    (hturn : ∀ (p : Parser) (is : List Item), p.options = options → p.IsAt is s →
      ∃ (q : Parser) (rest : List Item), (p.load is).turn includer = q.load rest ∧
        p.Leads change q rest s') :
    Passes includer options s change s' := by
  intro p is hoptions h
  obtain ⟨q, rest, hq, hleads⟩ := hturn p is hoptions h
  refine ⟨q, rest, ?_, hleads⟩
  have hlength := carries_length h.carries
  have hlength' := carries_length hleads.isAt.carries
  have hcarries := h.carries
  cases htokens : s.tokens with
  | nil => simp [htokens] at hless
  | cons t ts =>
    rw [htokens] at hcarries htoken hless hlength
    obtain ⟨l, is, rfl, -⟩ := hcarries
    simp only [List.length_cons] at hlength hless
    refine Reaches.of_turn (fun h ↦ htoken (congrArg some h)) hq (by omega) ?_
    rintro rfl
    exact hends (List.eq_nil_of_length_eq_zero hlength'.symm)

theorem Reads.of_turn {s s' : Spot} {events : List Event} (htoken : s.tokens.head? ≠ some .eof)
    (hless : s'.tokens.length < s.tokens.length) (hends : s'.tokens ≠ [])
    (hturn : ∀ (p : Parser) (is : List Item), p.options = options → p.IsAt is s →
      ∃ (q : Parser) (rest : List Item), (p.load is).turn includer = q.load rest ∧
        p.Leads (Yield.along events) q rest s') :
    Reads includer options s events s' :=
  Passes.of_turn htoken hless hends hturn

/-- A turn that goes on to the next token and leaves it at that. -/
theorem Reads.of_pause {d : Depths} {u : Token} (expected : Bool) (hu : u ≠ .eof) (hts : ts ≠ [])
    (hturn : ∀ (p : Parser) (t : Token) (l l' : Nat) (d' : Depths) (is : List Item),
      p.options = options → p.Stands s → ts.head? = some t →
      (p.load (⟨[], u, l, d.after u⟩ :: ⟨[], t, l', d'⟩ :: is)).turn includer =
        (p.expectRemarks expected).load (⟨[], t, l', d'⟩ :: is)) :
    Reads includer options ⟨s, d, u :: ts⟩ [] ⟨s, d.after u, ts⟩ := by
  obtain ⟨t, ts, rfl⟩ := List.exists_cons_of_ne_nil hts
  refine .of_turn (by simpa using hu) (by simp) hts ?_
  rintro p is hoptions ⟨hstands, l, _, rfl, l', rest, rfl, hrest⟩
  refine ⟨p.expectRemarks expected, _, hturn p t l l' _ rest hoptions hstands rfl, ?_, rfl, rfl⟩
  exact ⟨⟨hstands.snapshot, hstands.statement, hstands.prospective, hstands.remarks⟩, l', rest, rfl,
    hrest⟩

theorem endStatement_load (h : p.Stands s) (i : Item) (l : Nat) (d : Depths) :
    (p.load (i :: ⟨[], t, l, d⟩ :: is)).endStatement =
      (p.expectRemarks true).load (⟨[], t, l, d⟩ :: is) := by
  simp [load, endStatement, clearQualifier, h.remarks, Remarks.isEmpty, advance, expectRemarks,
    h.statement, h.prospective]

theorem reads_semicolon (hts : ts ≠ []) :
    Reads includer options ⟨s, ⟨n, 0, 0⟩, .semicolon :: ts⟩ [] ⟨s, ⟨n, 0, 0⟩, ts⟩ :=
  .of_pause true (by simp) hts fun _ _ _ l' d' _ _ h _ ↦ endStatement_load h _ l' d'

/-- The brace that begins a block in a function body. -/
theorem reads_openingBrace (hts : ts ≠ []) :
    Reads includer options ⟨s, ⟨n, 0, 0⟩, .opening .brace :: ts⟩ [] ⟨s, ⟨n + 1, 0, 0⟩, ts⟩ := by
  refine .of_pause true (by simp) hts fun p t l l' d' is _ h _ ↦ ?_
  simp [turn, load, onOpeningBrace, h.statement, h.prospective, advance, expectRemarks, promote,
    Depths.after, Depths.set, Depths.get]

theorem reads_openingParen (hts : ts ≠ []) :
    Reads includer options ⟨s, ⟨n, 0, 0⟩, .opening .paren :: ts⟩ [] ⟨s, ⟨n, 1, 0⟩, ts⟩ := by
  refine .of_pause true (by simp) hts fun p t l l' d' is _ h _ ↦ ?_
  simp [turn, load, onOpeningParen, h.statement, h.prospective, advance, expectRemarks, promote,
    Depths.after, Depths.set, Depths.get]

/-- After the parameters of a function, what was pending is open again. -/
def demoted (p : Parser) : Parser :=
  { p with
    prospective := p.snapshot.pending
    snapshot := { p.snapshot with pending := "" }
    remarksExpected := true }

theorem turn_closingParen (h : p.Stands s) (hn : n = s.depths.length) (l l' : Nat) (d : Depths) :
    (p.load (⟨[], .closing .paren, l, ⟨n, 0, 0⟩⟩ :: ⟨[], t, l', d⟩ :: is)).turn includer =
      p.demoted.load (⟨[], t, l', d⟩ :: is) := by
  have hlevel : n = p.snapshot.depths.length := h.snapshot.symm ▸ hn
  by_cases hpending : p.snapshot.pending = ""
  · have hsame : p.demoted = p.expectRemarks true := by
      have hsnapshot : { p.snapshot with pending := "" } = p.snapshot := by rw [← hpending]
      rw [demoted, hsnapshot, hpending, ← h.prospective]
      rfl
    rw [hsame]
    simp [turn, load, onClosingParen, hpending, advance, expectRemarks]
  · simp [turn, load, onClosingParen, h.statement, hpending, advance, expectRemarks, demoted,
      atNamespaceLevel, hlevel]

/-- The brace of a function body makes the qualifier pending that was so before the parameters. -/
theorem turn_bodyBrace (h : p.Stands s) (hn : n = s.depths.length) (l l' : Nat) (d : Depths) :
    (p.demoted.load (⟨[], .opening .brace, l, ⟨n + 1, 0, 0⟩⟩ :: ⟨[], t, l', d⟩ :: is)).turn
        includer = (p.expectRemarks true).load (⟨[], t, l', d⟩ :: is) := by
  have hlevel : n = p.snapshot.depths.length := h.snapshot.symm ▸ hn
  by_cases hpending : p.snapshot.pending = ""
  · have hsnapshot : { p.snapshot with pending := "" } = p.snapshot := by rw [← hpending]
    simp [turn, load, onOpeningBrace, demoted, promote, hpending, hsnapshot, h.statement,
      h.prospective, advance, expectRemarks]
  · simp [turn, load, onOpeningBrace, demoted, promote, hpending, hlevel, h.statement,
      h.prospective, advance, expectRemarks]

/-- The end of the parameters of a function, and the brace that begins its body. -/
theorem reads_parametersEnd (hn : n = s.depths.length) (hts : ts ≠ []) :
    Reads includer options ⟨s, ⟨n, 1, 0⟩, .closing .paren :: .opening .brace :: ts⟩ []
      ⟨s, ⟨n + 1, 0, 0⟩, ts⟩ := by
  obtain ⟨t, ts, rfl⟩ := List.exists_cons_of_ne_nil hts
  rintro p is - ⟨h, l, _, rfl, l', _, rfl, l'', rest, rfl, hrest⟩
  let j : Item := ⟨[], t, l'', (⟨n + 1, 0, 0⟩ : Depths).after t⟩
  have hclosed : Reaches includer
      (p.load (⟨[], .closing .paren, l, ⟨n, 0, 0⟩⟩ ::
        ⟨[], .opening .brace, l', ⟨n + 1, 0, 0⟩⟩ :: j :: rest))
      (p.demoted.load (⟨[], .opening .brace, l', ⟨n + 1, 0, 0⟩⟩ :: j :: rest)) :=
    .of_turn (by simp) (turn_closingParen h hn l l' _) (by simp) (by simp)
  have hbegun : Reaches includer
      (p.demoted.load (⟨[], .opening .brace, l', ⟨n + 1, 0, 0⟩⟩ :: j :: rest))
      ((p.expectRemarks true).load (j :: rest)) :=
    .of_turn (by simp) (turn_bodyBrace h hn l' l'' _) (by simp) (by simp)
  refine ⟨_, _, hclosed.trans hbegun, ⟨?_, l'', rest, rfl, hrest⟩, rfl, rfl⟩
  exact ⟨h.snapshot, h.statement, h.prospective, h.remarks⟩

/-- The parentheses after the name of a function, and the brace that begins its body. -/
theorem reads_parameters (hn : n = s.depths.length) (hts : ts ≠ []) :
    Reads includer options
      ⟨s, ⟨n, 0, 0⟩, .opening .paren :: .closing .paren :: .opening .brace :: ts⟩ []
      ⟨s, ⟨n + 1, 0, 0⟩, ts⟩ :=
  (reads_openingParen (by simp)).trans (reads_parametersEnd hn hts)

/-- A word before another one. -/
theorem reads_word (word next : String) :
    Reads includer options ⟨s, ⟨n, 0, 0⟩, .ident word :: .ident next :: ts⟩ []
      ⟨s, ⟨n, 0, 0⟩, .ident next :: ts⟩ := by
  refine .of_pause false (by simp) (by simp) fun p t l l' d' is _ h hnext ↦ ?_
  obtain rfl : Token.ident next = t := by simpa using hnext
  simp [turn, load, onIdent, h.statement, advance, expectRemarks, clearQualifier, Depths.after]

/-- The name of a function that is no localization call. -/
theorem reads_functionName {word : String} (hword : options.calls.lookup word = none) :
    Reads includer options ⟨s, ⟨n, 0, 0⟩, .ident word :: .opening .paren :: ts⟩ []
      ⟨s, ⟨n, 0, 0⟩, .opening .paren :: ts⟩ := by
  refine .of_pause false (by simp) (by simp) fun p t l l' d' is hoptions h hnext ↦ ?_
  obtain rfl : Token.opening .paren = t := by simpa using hnext
  subst hoptions
  simp [turn, load, onIdent, h.statement, advance, expectRemarks, clearQualifier, Depths.after,
    hword]

/-- The head of a function, up to its body. -/
theorem reads_functionHead {name : String} (hname : options.calls.lookup name = none)
    (hn : n = s.depths.length) (hts : ts ≠ []) :
    Reads includer options
      ⟨s, ⟨n, 0, 0⟩, .ident "void" :: .ident name :: .opening .paren :: .closing .paren ::
        .opening .brace :: ts⟩ [] ⟨s, ⟨n + 1, 0, 0⟩, ts⟩ :=
  (reads_word "void" name).trans ((reads_functionName hname).trans (reads_parameters hn hts))

theorem turn_closing (h : p.Stands s) (l : Nat) (is : List Item) :
    (p.load (⟨[], .closing .brace, l, ⟨n, 0, 0⟩⟩ :: is)).turn includer =
      ((p.setSnapshot ((p.snapshot.leave n).endBody n p.inPlace)).load
        (⟨[], .closing .brace, l, ⟨n, 0, 0⟩⟩ :: is)).endStatement := by
  simp [turn, load, h.statement, closeBrace, setSnapshot]

/-- A closing brace leads to the place that its snapshot says. -/
theorem reads_closingBrace {s' : Snapshot} (hts : ts ≠ [])
    (hleave : ∀ inPlace : Bool, (s.leave n).endBody n inPlace = s') :
    Reads includer options ⟨s, ⟨n + 1, 0, 0⟩, .closing .brace :: ts⟩ [] ⟨s', ⟨n, 0, 0⟩, ts⟩ := by
  obtain ⟨t, ts, rfl⟩ := List.exists_cons_of_ne_nil hts
  refine .of_turn (by simp) (by simp) hts ?_
  rintro p is - ⟨hstands, l, _, rfl, l', rest, rfl, hrest⟩
  have hleft : (p.setSnapshot ((p.snapshot.leave n).endBody n p.inPlace)).Stands s' :=
    ⟨by rw [hstands.snapshot]; exact hleave p.inPlace, hstands.statement, hstands.prospective,
      hstands.remarks⟩
  refine ⟨_, _, (turn_closing hstands l _).trans (endStatement_load hleft _ l' _), ?_, rfl, rfl⟩
  exact ⟨⟨hleft.snapshot, hleft.statement, hleft.prospective, hleft.remarks⟩, l', rest, rfl, hrest⟩

/-- The end of a scope. What was pending in it is forgotten. -/
theorem reads_scopeEnd (names : List String) (pending : String) (hroot : opened = [] → path = [])
    (hts : ts ≠ []) :
    Reads includer options
      ⟨.awaiting (path ++ names) (opened ++ [path.length + 1]) pending, ⟨opened.length + 1, 0, 0⟩,
        .closing .brace :: ts⟩
      [] ⟨.between path opened, ⟨opened.length, 0, 0⟩, ts⟩ := by
  refine reads_closingBrace hts fun inPlace ↦ ?_
  rw [Snapshot.leave_awaiting]
  exact Snapshot.endBody_within rfl _ _ inPlace hroot

/-- The end of a function body. What was pending in it is forgotten. -/
theorem reads_bodyEnd {owner : Name} (howner : owner.take 1 = Name.root)
    (unresolved pending : String) (hroot : opened = [] → path = []) (hts : ts ≠ []) :
    Reads includer options
      ⟨{ Snapshot.within path opened owner unresolved with pending }, ⟨opened.length + 1, 0, 0⟩,
        .closing .brace :: ts⟩
      [] ⟨.between path opened, ⟨opened.length, 0, 0⟩, ts⟩ := by
  refine reads_closingBrace hts fun inPlace ↦ ?_
  have hleave : ({ Snapshot.within path opened owner unresolved with pending } : Snapshot).leave
      opened.length = { Snapshot.within path opened owner unresolved with pending } :=
    Snapshot.leave_of_le (Nat.le_refl _)
  rw [hleave]
  exact Snapshot.endBody_within howner _ _ inPlace hroot

/-- The end of a block in a function body. -/
theorem reads_blockEnd (hn : s.depths.length < n) (hts : ts ≠ []) :
    Reads includer options ⟨s, ⟨n + 1, 0, 0⟩, .closing .brace :: ts⟩ [] ⟨s, ⟨n, 0, 0⟩, ts⟩ := by
  refine reads_closingBrace hts fun inPlace ↦ ?_
  rw [Snapshot.leave_of_le (Nat.le_of_lt hn)]
  exact Snapshot.endBody_of_lt inPlace hn

theorem shownComment_empty : shownComment "" = "" := by
  rw [shownComment, show Text.simplified "" = "" by decide, Text.Escape.decode_of_plain (by decide)]

theorem text?_load (p : Parser) {body : String} (hbody : '\\' ∉ body.toList) (l l' : Nat)
    (d d' : Depths) (is : List Item) :
    (p.load (⟨[], .string body, l, d⟩ :: ⟨[], .closing .paren, l', d'⟩ :: is)).text? =
      (some body, p.load (⟨[], .closing .paren, l', d'⟩ :: is)) := by
  simp [text?, budget, load, literals, advance, Text.Escape.decode_of_plain hbody]

theorem commentAndCount_load (p : Parser) (plural : Bool) (l : Nat) (d : Depths) (is : List Item) :
    (p.load (⟨[], .closing .paren, l, d⟩ :: is)).commentAndCount plural =
      ("", plural, p.load (⟨[], .closing .paren, l, d⟩ :: is)) := by
  simp [commentAndCount, eat, load]

section Owned

variable {owner : Name} {unresolved : String}

theorem callContext?_spelled (h : p.Stands (.within path opened owner unresolved))
    (hrest : unresolved ≠ "") :
    p.callContext? = (some ⟨joinContexts owner.render unresolved, false⟩, p) := by
  simp [callContext?, h.snapshot, h.statement, Snapshot.within, hrest]

theorem callContext?_outside (h : p.Stands (.within path opened owner ""))
    (howner : owner.length < 2) :
    p.callContext? = (none, p.report .missingContext "tr() cannot be called without context") := by
  simp [callContext?, h.snapshot, h.statement, Snapshot.within, howner]

theorem callContext?_inside (h : p.Stands (.within path opened owner ""))
    (howner : ¬ owner.length < 2) :
    p.callContext? =
      (some (p.forest.unqualifiedContext p.tree owner).1,
        p.setForest (p.forest.unqualifiedContext p.tree owner).2) := by
  simp [callContext?, h.snapshot, h.statement, Snapshot.within, howner]

end Owned

theorem Stands.setForest (h : p.Stands s) (f : Forest) : (p.setForest f).Stands s :=
  ⟨h.snapshot, h.statement, h.prospective, h.remarks⟩

theorem Stands.reportAt (h : p.Stands s) (l : Nat) (kind : DiagnosticKind) (message : String) :
    (p.reportAt l kind message).Stands s :=
  ⟨h.snapshot, h.statement, h.prospective, h.remarks⟩

theorem Stands.record (h : p.Stands s) (line : Nat) (context text : String) :
    (p.record line context text "" false).forgetRemarks.Stands s :=
  ⟨h.snapshot, h.statement, h.prospective, rfl⟩

theorem yield_setForest (p : Parser) (f : Forest) :
    (p.setForest f).yield = { p.yield with forest := f } := rfl

theorem yield_reportAt (p : Parser) (l : Nat) (kind : DiagnosticKind) (message : String) :
    (p.reportAt l kind message).yield =
      { p.yield with diagnostics := p.yield.diagnostics ++ [⟨p.file.text, 0, kind, message⟩] } := by
  simp [yield, reportAt, forest, Diagnostic.unlined]

theorem yield_record (hremarks : p.remarks = {}) (line : Nat) (context text : String) :
    (p.record line context text "" false).forgetRemarks.yield =
      { p.yield with messages := p.yield.messages ++ [.plain p.file.text context text] } := by
  simp [yield, record, forgetRemarks, addMessage, forest, hremarks, Message.unlined, Message.plain,
    shownComment_empty]

theorem fixed_setForest (p : Parser) (f : Forest) : (p.setForest f).fixed = p.fixed := by
  simp only [fixed, setForest]

theorem fixed_reportAt (p : Parser) (l : Nat) (kind : DiagnosticKind) (message : String) :
    (p.reportAt l kind message).fixed = p.fixed := by
  simp only [fixed, reportAt]

theorem fixed_record (p : Parser) (line : Nat) (context text : String) :
    (p.record line context text "" false).forgetRemarks.fixed = p.fixed := by
  simp only [fixed, forgetRemarks, record, addMessage]

/-- A call at `line` in the context that was found for it, with its last token at `l`. -/
def finishCall (p : Parser) (found : Context × Forest) (line l : Nat) (body : String) : Parser :=
  let q := p.setForest found.2
  let q := if found.1.lacksSupport then
      q.reportAt l .missingTrSupport ("Class '" ++ found.1.text ++ "' lacks Q_OBJECT macro")
    else q
  (q.record line found.1.text body "" false).forgetRemarks

theorem finishCall_spec (h : p.Stands s) (found : Context × Forest) (line l : Nat)
    (body : String) :
    (p.finishCall found line l body).Stands s ∧
    (p.finishCall found line l body).fixed = p.fixed ∧
    (p.finishCall found line l body).yield =
      { forest := found.2
        messages := p.yield.messages ++ [.plain p.file.text found.1.text body]
        diagnostics := p.yield.diagnostics ++
          if found.1.lacksSupport then [.missingSupport p.file.text found.1.text] else [] } := by
  have hforest := h.setForest found.2
  unfold finishCall
  cases hlacks : found.1.lacksSupport with
  | true =>
    have hreport := hforest.reportAt l .missingTrSupport
      ("Class '" ++ found.1.text ++ "' lacks Q_OBJECT macro")
    simp only [if_true]
    refine ⟨hreport.record _ _ _, ?_, ?_⟩
    · rw [fixed_record, fixed_reportAt, fixed_setForest]
    · rw [yield_record hreport.remarks, yield_reportAt, yield_setForest]
      simp only [Diagnostic.missingSupport, Parser.reportAt, Parser.setForest]
  | false =>
    simp only [Bool.false_eq_true, if_false]
    refine ⟨hforest.record _ _ _, ?_, ?_⟩
    · rw [fixed_record, fixed_setForest]
    · rw [yield_record hforest.remarks, yield_setForest]
      simp only [List.append_nil, Parser.setForest]

section Owned

variable {owner : Name} {unresolved : String}

/-- The text of a call is read and its parenthesis is closed. -/
theorem trMessage_load (h : p.Stands (.within path opened owner unresolved)) (line l : Nat)
    (d : Depths) (body : String) (is : List Item) :
    ∃ q : Parser, (p.load (⟨[], .closing .paren, l, d⟩ :: is)).trMessage line body false =
        q.load (⟨[], .closing .paren, l, d⟩ :: is) ∧
      q.Stands (.within path opened owner unresolved) ∧ q.fixed = p.fixed ∧
      q.yield = p.yield.heard p.file.text p.tree owner unresolved body := by
  have hstands : (p.load (⟨[], .closing .paren, l, d⟩ :: is)).Stands
      (.within path opened owner unresolved) :=
    ⟨h.snapshot, h.statement, h.prospective, h.remarks⟩
  have hpending : (p.load (⟨[], .closing .paren, l, d⟩ :: is)).pendingMatters = false := by
    simp [pendingMatters, hstands.snapshot, Snapshot.within, Snapshot.between]
  by_cases hrest : unresolved = ""
  · subst hrest
    by_cases howner : owner.length < 2
    · refine ⟨p.reportAt l .missingContext "tr() cannot be called without context", ?_,
        h.reportAt _ _ _, rfl, ?_⟩
      · simp only [trMessage, commentAndCount_load, hpending, Bool.false_eq_true, if_false,
          callContext?_outside hstands howner]
        rfl
      · rw [yield_reportAt]
        simp only [Yield.heard, ne_eq, not_true_eq_false, if_false, howner, if_true]
        rfl
    · obtain ⟨hq, hfixed, hyield⟩ :=
        finishCall_spec h (p.forest.unqualifiedContext p.tree owner) line l body
      refine ⟨_, ?_, hq, hfixed, ?_⟩
      · simp only [trMessage, commentAndCount_load, hpending, Bool.false_eq_true, if_false,
          callContext?_inside hstands howner, finishCall]
        change (Parser.record
          (if (p.forest.unqualifiedContext p.tree owner).1.lacksSupport = true then _ else _)
          _ _ _ _ _).forgetRemarks = _
        cases (p.forest.unqualifiedContext p.tree owner).1.lacksSupport <;> rfl
      · rw [hyield]
        simp only [Yield.heard, ne_eq, not_true_eq_false, if_false, howner]
        rfl
  · obtain ⟨hq, hfixed, hyield⟩ := finishCall_spec h
      (⟨joinContexts owner.render unresolved, false⟩, p.forest) line l body
    refine ⟨_, ?_, hq, hfixed, ?_⟩
    · simp only [trMessage, commentAndCount_load, hpending, Bool.false_eq_true, if_false,
        callContext?_spelled hstands hrest, finishCall]
      rfl
    · rw [hyield]
      simp only [Yield.heard, ne_eq, hrest, not_false_eq_true, if_true, Bool.false_eq_true,
        if_false, List.append_nil]
      rfl

end Owned

/-- A call whose text is read in some way. -/
theorem trCall_load {q : Parser} (hremarks : p.remarks = {}) {body : String}
    (hbody : '\\' ∉ body.toList) (hne : body ≠ "") {l₁ l₂ l₃ l₄ : Nat} {d₁ d₂ d₃ d₄ : Depths}
    (htr : (p.load (⟨[], .closing .paren, l₃, d₃⟩ :: ⟨[], .semicolon, l₄, d₄⟩ :: is)).trMessage l₁
      body false = q.load (⟨[], .closing .paren, l₃, d₃⟩ :: ⟨[], .semicolon, l₄, d₄⟩ :: is)) :
    ((p.load (⟨[], .opening .paren, l₁, d₁⟩ :: ⟨[], .string body, l₂, d₂⟩ ::
        ⟨[], .closing .paren, l₃, d₃⟩ :: ⟨[], .semicolon, l₄, d₄⟩ :: is)).trCall false).advance =
      q.load (⟨[], .semicolon, l₄, d₄⟩ :: is) := by
  have hsource : (p.load (⟨[], .opening .paren, l₁, d₁⟩ :: ⟨[], .string body, l₂, d₂⟩ ::
      ⟨[], .closing .paren, l₃, d₃⟩ :: ⟨[], .semicolon, l₄, d₄⟩ :: is)).remarks.sourceText =
        "" := by
    simp [load, hremarks]
  rw [trCall, if_pos hsource, advance_load, text?_load p hbody]
  simp only [if_neg hne]
  exact (congrArg advance htr).trans (advance_load _ _ _ _ _ _)

theorem turn_call (h : p.Stands s) (htr : p.options.calls.lookup "tr" = some .tr)
    (l₀ l₁ : Nat) (d₁ : Depths) (is : List Item) :
    (p.load (⟨[], .ident "tr", l₀, ⟨n, 0, 0⟩⟩ :: ⟨[], .opening .paren, l₁, d₁⟩ :: is)).turn
        includer = ((p.load (⟨[], .opening .paren, l₁, d₁⟩ :: is)).trCall false).advance := by
  simp [turn, load, onIdent, h.statement, advance, htr, call, Call.shape, Call.forcesPlural]

/-- A call of `tr` with a plain text is one turn, which does what the text of the call does. -/
theorem turn_of_trMessage {q : Parser} {text : PlainText} {l₀ l₁ l₂ l₃ l₄ : Nat} (h : p.Stands s)
    (htr : p.options.calls.lookup "tr" = some .tr)
    (hmessage : (p.load (⟨[], .closing .paren, l₃, ⟨n, 0, 0⟩⟩ ::
        ⟨[], .semicolon, l₄, ⟨n, 0, 0⟩⟩ :: is)).trMessage l₁ text.text false =
      q.load (⟨[], .closing .paren, l₃, ⟨n, 0, 0⟩⟩ :: ⟨[], .semicolon, l₄, ⟨n, 0, 0⟩⟩ :: is)) :
    (p.load (⟨[], .ident "tr", l₀, ⟨n, 0, 0⟩⟩ :: ⟨[], .opening .paren, l₁, ⟨n, 1, 0⟩⟩ ::
        ⟨[], .string text.text, l₂, ⟨n, 1, 0⟩⟩ :: ⟨[], .closing .paren, l₃, ⟨n, 0, 0⟩⟩ ::
        ⟨[], .semicolon, l₄, ⟨n, 0, 0⟩⟩ :: is)).turn includer =
      q.load (⟨[], .semicolon, l₄, ⟨n, 0, 0⟩⟩ :: is) := by
  have hbody : '\\' ∉ text.text.toList := fun h ↦
    absurd (List.all_eq_true.1 text.plain _ h) (by decide)
  exact (turn_call h htr l₀ l₁ _ _).trans (trCall_load h.remarks hbody text.nonempty hmessage)

/-- A call of `tr` with a plain text, in a function that belongs to `owner`. -/
theorem passes_call (htr : options.calls.lookup "tr" = some .tr) (text : PlainText) (owner : Name)
    (unresolved : String) :
    Passes includer options
      ⟨.within path opened owner unresolved, ⟨n, 0, 0⟩, .ident "tr" :: .opening .paren ::
        .string text.text :: .closing .paren :: .semicolon :: ts⟩
      (Yield.hearing owner unresolved [text.text])
      ⟨.within path opened owner unresolved, ⟨n, 0, 0⟩, .semicolon :: ts⟩ := by
  refine .of_turn (by simp) (by simp) (by simp) ?_
  rintro p is rfl ⟨hstands, l₀, _, rfl, l₁, _, rfl, l₂, _, rfl, l₃, _, rfl, l₄, rest, rfl, hrest⟩
  obtain ⟨q, hmessage, hq, hfixed, hyield⟩ := trMessage_load hstands l₁ l₃ ⟨n, 0, 0⟩ text.text
    (⟨[], .semicolon, l₄, ⟨n, 0, 0⟩⟩ :: rest)
  exact ⟨q, _, turn_of_trMessage hstands htr hmessage, ⟨hq, l₄, rest, rfl, hrest⟩, hfixed, hyield⟩

/-- Scopes entered one below the other. -/
theorem foldl_enter {p : Parser} {path : List String} (names : List String)
    (hpath : p.snapshot.namespaces = ⟨"" :: path⟩) :
    (names.foldl enter p).snapshot = { p.snapshot with namespaces := ⟨"" :: (path ++ names)⟩ } ∧
      (names.foldl enter p).statement = p.statement ∧
      (names.foldl enter p).remarks = p.remarks ∧ (names.foldl enter p).fixed = p.fixed ∧
      (names.foldl enter p).yield =
        (Outline.entries path names).foldl (Yield.step p.file.text p.tree) p.yield := by
  induction names generalizing p path with
  | nil => exact ⟨by rw [List.append_nil, ← hpath]; rfl, rfl, rfl, rfl, rfl⟩
  | cons name names ih =>
    have hname : (p.enter name).snapshot.namespaces = ⟨"" :: (path ++ [name])⟩ := by
      simp [enter, setForest, setSnapshot, hpath, Name.push]
    obtain ⟨hsnapshot, hstatement, hremarks, hfixed, hyield⟩ := ih hname
    have hstep : (p.enter name).yield =
        p.yield.step p.file.text p.tree (.entered (path ++ [name])) := by
      simp [enter, setForest, setSnapshot, hpath, Name.push, yield, Yield.step, forest]
    refine ⟨?_, hstatement, hremarks, hfixed, ?_⟩
    · rw [List.foldl_cons, hsnapshot, List.append_assoc]
      rfl
    · rw [List.foldl_cons, hyield, hstep]
      rfl

/-- The body of a scope has begun, and the token after its brace is still to come. -/
def begun (p : Parser) : Parser :=
  let s := p.snapshot
  let s := { s with functionContext := s.namespaces, unresolved := "", pending := "" }
  (p.setSnapshot s).clearProspective.expectRemarks true

/-- The scopes of a head are entered and their body has begun. -/
def opensBody (p : Parser) (names : List String) : Parser := (names.foldl enter p.pushDepth).begun

theorem opensBody_spec {pending : String} (h : p.Stands (.awaiting path opened pending))
    (names : List String) :
    (p.opensBody names).Stands (.between (path ++ names) (opened ++ [path.length + 1])) ∧
      (p.opensBody names).fixed = p.fixed ∧
      (p.opensBody names).yield =
        (Outline.entries path names).foldl (Yield.step p.file.text p.tree) p.yield := by
  have hdepth :
      p.pushDepth.snapshot = { p.snapshot with depths := opened ++ [path.length + 1] } := by
    simp [pushDepth, setSnapshot, h.snapshot, Snapshot.awaiting, Snapshot.between, Name.length]
  have hpath : p.pushDepth.snapshot.namespaces = ⟨"" :: path⟩ := by
    rw [hdepth, h.snapshot]
    rfl
  obtain ⟨hsnapshot, hstatement, hremarks, hfixed, hyield⟩ := foldl_enter names hpath
  refine ⟨⟨?_, hstatement.trans h.statement, rfl, hremarks.trans h.remarks⟩, hfixed, hyield⟩
  simp [opensBody, begun, setSnapshot, clearProspective, expectRemarks, hsnapshot, hdepth,
    Snapshot.between]

theorem foldl_enter_load (p : Parser) (i : Item) (is : List Item) (names : List String) :
    names.foldl enter (p.load (i :: is)) = (names.foldl enter p).load (i :: is) := by
  induction names generalizing p with
  | nil => rfl
  | cons name names ih => exact ih (p.enter name)

theorem beginBody_load (p : Parser) (i : Item) (t : Token) (l : Nat) (d : Depths) (is : List Item) :
    (p.load (i :: ⟨[], t, l, d⟩ :: is)).beginBody = p.begun.load (⟨[], t, l, d⟩ :: is) := rfl

theorem pushDepth_load (p : Parser) (i : Item) (is : List Item) :
    (p.load (i :: is)).pushDepth = p.pushDepth.load (i :: is) := rfl

theorem opensBody_load (p : Parser) (i : Item) (t : Token) (l : Nat) (d : Depths) (is : List Item)
    (names : List String) :
    (names.foldl enter (p.load (i :: ⟨[], t, l, d⟩ :: is)).pushDepth).beginBody =
      (p.opensBody names).load (⟨[], t, l, d⟩ :: is) := by
  rw [pushDepth_load, foldl_enter_load, beginBody_load, opensBody]

/-- The names of a namespace are read up to its brace. -/
theorem namespacePath_load {d : Depths} {names : List String} {word : String}
    {more : List Identifier} {l fuel : Nat}
    (his : Carries d (Outline.furtherNames more ++ .opening .brace :: ts) is)
    (hfuel : more.length < fuel) :
    ∃ l' rest, namespacePath fuel names (p.load (⟨[], .ident word, l, d⟩ :: is)) =
        (names ++ word :: more.map Identifier.word,
          p.load (⟨[], .opening .brace, l', d.after (.opening .brace)⟩ :: rest)) ∧
      Carries (d.after (.opening .brace)) ts rest := by
  induction more generalizing names word l fuel is with
  | nil =>
    obtain ⟨l', rest, rfl, hrest⟩ := his
    obtain ⟨fuel, rfl⟩ := Nat.exists_eq_succ_of_ne_zero (Nat.ne_zero_of_lt hfuel)
    refine ⟨l', rest, ?_, hrest⟩
    simp [namespacePath, load, advance]
  | cons name more ih =>
    obtain ⟨l₁, rest, rfl, l₂, rest, rfl, hrest⟩ := his
    obtain ⟨fuel, rfl⟩ := Nat.exists_eq_succ_of_ne_zero (Nat.ne_zero_of_lt hfuel)
    have hless : more.length < fuel := by simpa using hfuel
    obtain ⟨l', left, hpath, hleft⟩ := @ih rest (names ++ [word]) name.word l₂ fuel hrest hless
    refine ⟨l', left, ?_, hleft⟩
    rw [List.append_assoc, List.singleton_append] at hpath
    rw [List.map_cons, ← hpath]
    simp [namespacePath, load, advance, Token.ident?, Depths.after]

theorem length_furtherNames (more : List Identifier) :
    (Outline.furtherNames more).length = 2 * more.length := by
  induction more with
  | nil => rfl
  | cons name more ih =>
    simp_all [Outline.furtherNames]
    omega

theorem namespaceHead_of_path {p q r : Parser} {word : String} {names : List String}
    (hadvance : p.advance = q) (htoken : q.token = .ident word)
    (hpath : namespacePath q.budget [] q = (names, r)) (hbrace : r.token = .opening .brace) :
    p.namespaceHead = (names.foldl enter r.pushDepth).beginBody := by
  subst hadvance
  simp only [namespaceHead, htoken, hpath, hbrace]

/-- The head of a namespace with a name. What was pending before it is forgotten. -/
theorem reads_namespaceHead (first : Identifier) (more : List Identifier) (pending : String)
    (hts : ts ≠ []) :
    Reads includer options
      ⟨.awaiting path opened pending, ⟨n, 0, 0⟩, .namespaceWord :: .ident first.word ::
        (Outline.furtherNames more ++ .opening .brace :: ts)⟩
      (Outline.entries path ((first :: more).map Identifier.word))
      ⟨.between (path ++ (first :: more).map Identifier.word) (opened ++ [path.length + 1]),
        ⟨n + 1, 0, 0⟩, ts⟩ := by
  obtain ⟨t, ts, rfl⟩ := List.exists_cons_of_ne_nil hts
  refine .of_turn (by simp) (by simp; omega) hts ?_
  rintro p is - ⟨hstands, l₀, _, rfl, l₁, is, rfl, his⟩
  have hfuel : more.length < (p.load (⟨[], .ident first.word, l₁, ⟨n, 0, 0⟩⟩ :: is)).budget := by
    have hlength := carries_length his
    have hfurther := length_furtherNames more
    simp only [List.length_append, List.length_cons] at hlength
    simp only [budget, load]
    omega
  obtain ⟨l', _, hpath, l'', rest, rfl, hrest⟩ := namespacePath_load his hfuel
  obtain ⟨hbody, hfixed, hyield⟩ := opensBody_spec hstands ((first :: more).map Identifier.word)
  refine ⟨_, _, ?_, ⟨hbody, l'', rest, rfl, hrest⟩, hfixed, hyield⟩
  exact (namespaceHead_of_path (advance_load _ _ _ _ _ _) rfl hpath rfl).trans
    (opensBody_load _ _ _ _ _ _ _)

/-- The head of a namespace without a name. -/
theorem reads_unnamedHead (pending : String) (hts : ts ≠ []) :
    Reads includer options
      ⟨.awaiting path opened pending, ⟨n, 0, 0⟩, .namespaceWord :: .opening .brace :: ts⟩ []
      ⟨.awaiting (path ++ []) (opened ++ [path.length + 1]) pending, ⟨n + 1, 0, 0⟩, ts⟩ := by
  obtain ⟨t, ts, rfl⟩ := List.exists_cons_of_ne_nil hts
  refine .of_turn (by simp) (by simp) hts ?_
  rintro p is - ⟨hstands, l₀, _, rfl, l₁, _, rfl, l₂, rest, rfl, hrest⟩
  refine ⟨p.pushDepth.expectRemarks true, _, rfl, ⟨?_, l₂, rest, rfl, hrest⟩, rfl, rfl⟩
  refine ⟨?_, hstands.statement, hstands.prospective, hstands.remarks⟩
  simp [pushDepth, setSnapshot, expectRemarks, hstands.snapshot, Snapshot.awaiting, Snapshot.between,
    Name.length]

theorem defineClass_unqualified (p : Parser) (name : String) :
    p.defineClass name [] [] = (p.pushDepth.enter name).beginBody := by
  simp only [defineClass, List.isEmpty_nil, if_true, enterClass, resolveBases]
  rfl

theorem classHead_load (p : Parser) (name : String) (l l' : Nat) (d d' : Depths) (is : List Item) :
    (p.load (⟨[], .ident name, l, d⟩ :: ⟨[], .opening .brace, l', d'⟩ :: is)).classHead =
      (p.load (⟨[], .opening .brace, l', d'⟩ :: is)).defineClass name [] [] := by
  simp [classHead, load, advance, budget, classNameFrom, Token.isColon]

/-- The head of a class. What was pending before it is forgotten. -/
theorem reads_classHead (name : Identifier) (pending : String) (hn : n = opened.length)
    (hts : ts ≠ []) :
    Reads includer options
      ⟨.awaiting path opened pending, ⟨n, 0, 0⟩,
        .classWord :: .ident name.word :: .opening .brace :: ts⟩
      [.entered (path ++ [name.word])]
      ⟨.between (path ++ [name.word]) (opened ++ [path.length + 1]), ⟨n + 1, 0, 0⟩, ts⟩ := by
  obtain ⟨t, ts, rfl⟩ := List.exists_cons_of_ne_nil hts
  refine .of_turn (by simp) (by simp) hts ?_
  rintro p is - ⟨hstands, l₀, _, rfl, l₁, _, rfl, l₂, _, rfl, l₃, rest, rfl, hrest⟩
  obtain ⟨hbody, hfixed, hyield⟩ := opensBody_spec hstands [name.word]
  refine ⟨_, _, ?_, ⟨hbody, l₃, rest, rfl, hrest⟩, hfixed, hyield⟩
  have hlevel : (p.load (⟨[], .ident name.word, l₁, ⟨n, 0, 0⟩⟩ ::
      ⟨[], .opening .brace, l₂, ⟨n + 1, 0, 0⟩⟩ ::
      ⟨[], t, l₃, (⟨n + 1, 0, 0⟩ : Depths).after t⟩ :: rest)).atDeclarationLevel = true := by
    simp [atDeclarationLevel, atNamespaceLevel, load, hstands.snapshot, Snapshot.awaiting,
      Snapshot.between, hn]
  change (Parser.onClass _) = _
  rw [onClass, advance_load]
  refine (if_pos hlevel).trans ?_
  rw [classHead_load, defineClass_unqualified]
  exact opensBody_load p _ t l₃ _ rest [name.word]

/-- The marker of a class. -/
theorem reads_marker (pending : String) (hts : ts ≠ []) :
    Reads includer options ⟨.awaiting path opened pending, ⟨n, 0, 0⟩, .marker :: ts⟩ [.marked path]
      ⟨.awaiting path opened pending, ⟨n, 0, 0⟩, ts⟩ := by
  obtain ⟨t, ts, rfl⟩ := List.exists_cons_of_ne_nil hts
  refine .of_turn (by simp) (by simp) hts ?_
  rintro p is - ⟨hstands, l, _, rfl, l', rest, rfl, hrest⟩
  refine ⟨p.modifyOpenScope fun s ↦ { s with supportsTr := true }, _, rfl,
    ⟨hstands.setForest _, l', rest, rfl, hrest⟩, rfl, ?_⟩
  rw [modifyOpenScope, hstands.snapshot]
  rfl

/-! ### Outlines -/

/-- The statements of a function body that belongs to `owner`. -/
theorem passes_block (htr : options.calls.lookup "tr" = some .tr) (owner : Name)
    (unresolved : String) (body : Block) (hn : opened.length < n) (hts : ts ≠ []) :
    Passes includer options ⟨.within path opened owner unresolved, ⟨n, 0, 0⟩, body.tokens ++ ts⟩
      (Yield.hearing owner unresolved body.texts)
      ⟨.within path opened owner unresolved, ⟨n, 0, 0⟩, ts⟩ := by
  induction body generalizing n ts with
  | done => exact Reads.refl _
  | block inner rest ihinner ihrest =>
    have hboth : Yield.hearing owner unresolved (inner.texts ++ rest.texts) = fun file t y ↦
        Yield.hearing owner unresolved rest.texts file t
          (Yield.hearing owner unresolved inner.texts file t y) := by
      funext file t y
      exact List.foldl_append
    simp only [Block.tokens, List.cons_append, List.append_assoc, Block.texts, hboth]
    exact (reads_openingBrace (by simp)).andThen
      ((ihinner (Nat.lt_succ_of_lt hn) (by simp)).trans
        ((reads_blockEnd hn (by simp [hts])).andThen (ihrest hn hts)))
  | call text rest ih =>
    simp only [Block.tokens, List.cons_append]
    exact (passes_call htr text owner unresolved).trans
      ((reads_semicolon (by simp [hts])).andThen (ih hn hts))

/-- The statements of a function body of the scope at `path`. -/
theorem reads_block (htr : options.calls.lookup "tr" = some .tr) (body : Block)
    (hn : opened.length < n) (hts : ts ≠ []) :
    Reads includer options ⟨.between path opened, ⟨n, 0, 0⟩, body.tokens ++ ts⟩ (body.events path)
      ⟨.between path opened, ⟨n, 0, 0⟩, ts⟩ := by
  rw [Reads, Block.events_eq_map, ← Yield.hearing_scope]
  exact passes_block htr ⟨"" :: path⟩ "" body hn hts

/-- The body of a function of the scope at `path`, past its end. -/
theorem reads_body (htr : options.calls.lookup "tr" = some .tr) (body : Block)
    (hroot : opened = [] → path = []) (hts : ts ≠ []) :
    Reads includer options
      ⟨.between path opened, ⟨opened.length + 1, 0, 0⟩, body.tokens ++ .closing .brace :: ts⟩
      (body.events path) ⟨.between path opened, ⟨opened.length, 0, 0⟩, ts⟩ := by
  have hbody : Reads includer options
      ⟨.between path opened, ⟨opened.length + 1, 0, 0⟩, body.tokens ++ .closing .brace :: ts⟩
      (body.events path ++ []) ⟨.between path opened, ⟨opened.length, 0, 0⟩, ts⟩ :=
    (reads_block htr body (Nat.lt_succ_self _) (by simp)).trans (reads_bodyEnd rfl "" "" hroot hts)
  rwa [List.append_nil] at hbody

/-- A function of the scope at `path`. -/
theorem reads_function (htr : options.calls.lookup "tr" = some .tr) {name : String}
    (hname : options.calls.lookup name = none) (body : Block) (hroot : opened = [] → path = [])
    (hts : ts ≠ []) :
    Reads includer options
      ⟨.between path opened, ⟨opened.length, 0, 0⟩, .ident "void" :: .ident name ::
        .opening .paren :: .closing .paren :: .opening .brace ::
        (body.tokens ++ .closing .brace :: ts)⟩
      (body.events path) ⟨.between path opened, ⟨opened.length, 0, 0⟩, ts⟩ :=
  (reads_functionHead hname rfl (by simp)).trans (reads_body htr body hroot hts)

/-- The body of a scope, up to the brace that closes it and past it. -/
theorem reads_scopeBody {inner : List Token} {events : List Event} (names : List String)
    (hroot : opened = [] → path = []) (hts : ts ≠ [])
    (hinner : Reads includer options
      ⟨.between (path ++ names) (opened ++ [path.length + 1]),
        ⟨(opened ++ [path.length + 1]).length, 0, 0⟩, inner ++ .closing .brace :: ts⟩ events
      ⟨.between (path ++ names) (opened ++ [path.length + 1]),
        ⟨(opened ++ [path.length + 1]).length, 0, 0⟩, .closing .brace :: ts⟩) :
    Reads includer options
      ⟨.between (path ++ names) (opened ++ [path.length + 1]), ⟨opened.length + 1, 0, 0⟩,
        inner ++ .closing .brace :: ts⟩ events
      ⟨.between path opened, ⟨opened.length, 0, 0⟩, ts⟩ := by
  rw [List.length_append] at hinner
  have hwhole := hinner.trans (reads_scopeEnd names "" hroot hts)
  rwa [List.append_nil] at hwhole

/-- The declarations of an outline, which lead back to where they begin. -/
theorem reads_outline (htr : options.calls.lookup "tr" = some .tr) {inClass : Bool}
    (o : Outline inClass) (hnames : ∀ name ∈ o.functionNames, options.calls.lookup name = none)
    (hroot : opened = [] → path = []) (hts : ts ≠ []) :
    Reads includer options ⟨.between path opened, ⟨opened.length, 0, 0⟩, o.tokens ++ ts⟩
      (o.events path) ⟨.between path opened, ⟨opened.length, 0, 0⟩, ts⟩ := by
  induction o generalizing path opened ts with
  | done => exact .refl _
  | namespaces first more inner rest ihinner ihrest =>
    have hinner := fun name h ↦ hnames name (List.mem_append_left _ h)
    have hrest := fun name h ↦ hnames name (List.mem_append_right _ h)
    simp only [Declarations.tokens, List.cons_append, List.append_assoc, Declarations.events]
    exact (reads_namespaceHead first more "" (by simp)).trans
      ((reads_scopeBody _ hroot (by simp [hts]) (ihinner hinner (by simp) (by simp))).trans
        (ihrest hrest hroot hts))
  | unnamed inner rest ihinner ihrest =>
    have hinner := fun name h ↦ hnames name (List.mem_append_left _ h)
    have hrest := fun name h ↦ hnames name (List.mem_append_right _ h)
    have hpath : inner.events path = inner.events (path ++ []) := by rw [List.append_nil]
    simp only [Declarations.tokens, List.cons_append, List.append_assoc, Declarations.events]
    rw [hpath]
    exact (reads_unnamedHead "" (by simp)).trans
      ((reads_scopeBody [] hroot (by simp [hts]) (ihinner hinner (by simp) (by simp))).trans
        (ihrest hrest hroot hts))
  | classBody name inner rest ihinner ihrest =>
    have hinner := fun name h ↦ hnames name (List.mem_append_left _ h)
    have hrest := fun name h ↦ hnames name (List.mem_append_right _ h)
    simp only [Declarations.tokens, List.cons_append, List.append_assoc, Declarations.events]
    exact (reads_classHead name "" rfl (by simp)).trans
      ((reads_scopeBody _ hroot (by simp) (ihinner hinner (by simp) (by simp))).trans
        ((reads_semicolon (by simp [hts])).trans (ihrest hrest hroot hts)))
  | marker rest ih =>
    simp only [Declarations.tokens, List.cons_append]
    exact (reads_marker "" (by simp [hts])).trans (ih hnames hroot hts)
  | function name body rest ih =>
    have hname := hnames name.word List.mem_cons_self
    have hrest := fun name h ↦ hnames name (List.mem_cons_of_mem _ h)
    simp only [Declarations.tokens, List.cons_append, List.append_assoc]
    exact (reads_function htr hname body hroot (by simp [hts])).trans (ih hrest hroot hts)
  | member allowed => cases allowed

/-- A parser about to read its file. -/
def ready (p : Parser) : Parser :=
  { p.clearPending.clearProspective with remarksExpected := true, statement := {} }

/-- A file is read to where the loop ends, if nothing is noted before its first token and after its
last one. -/
theorem run_of_reaches {q : Parser} {l : Nat} {d : Depths} {rest : List Item}
    (hrest : p.rest = ⟨[], t, l, d⟩ :: is)
    (hreach : Reaches includer (p.ready.load p.rest) (q.load rest))
    (hend : (q.load rest).token = .eof)
    (htrailing : q.trailing = []) : p.run includer = q.load rest := by
  have hadvance : p.ready.advance = p.ready.load p.rest := by
    rw [hrest, advance, show p.ready.rest = ⟨[], t, l, d⟩ :: is from hrest]
    rfl
  have hloop : loop includer p.ready.advance.budget p.ready.advance = q.load rest := by
    rw [hadvance]
    exact loop_of_reaches hreach hend (Nat.lt_succ_self _)
  have hload : (q.load rest).trailing = [] := by
    rw [← htrailing]
    cases rest <;> rfl
  change (loop includer p.ready.advance.budget p.ready.advance).trailing.foldl note
    (loop includer p.ready.advance.budget p.ready.advance) = _
  rw [hloop, hload]
  rfl

end Parser

end Harvest
