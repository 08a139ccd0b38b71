import Harvest.Proofs.Parser.Reading
import Harvest.Proofs.Scope.Growth

/-!
# Parsers side by side

Two parsers that read the same tokens of one file do the same, as long as their forests answer in
the same way what they are asked. So a relation between two sessions that every question and every
change keeps holds between them from the first token to the last, and the messages are the same. The
relation of a session to itself is a case of this: what no step of a parser breaks is an invariant.
-/

namespace Harvest

/-- The file that a token of `file` includes, if it is an include that leads anywhere. -/
def includeTarget? (options : Options) (files : FileTree) (file : Path) : Token → Option Path
  | .quotedInclude written => resolveInclude files file written true options.includePaths
  | .angledInclude written => resolveInclude files file written false options.includePaths
  | _ => none

/-- What is asked of a forest has the same answer on both sides, and the relation holds after it. -/
def Fair {α : Type} (Rel : Session → Nat → Session → Nat → Prop) (ask : Forest → Nat → α × Forest) :
    Prop :=
  ∀ s t s' t', Rel s t s' t' →
    (ask s'.forest t').1 = (ask s.forest t).1 ∧
      Rel { s with forest := (ask s.forest t).2 } t { s' with forest := (ask s'.forest t').2 } t'

/-- The session after a question about the context of a call; `d` is what is reported of a lack of
support. -/
def Session.attributed (s : Session) (answer : Context × Forest) (d : Diagnostic) : Session :=
  { s with
    forest := answer.2
    diagnostics := if answer.1.lacksSupport then s.diagnostics.push d else s.diagnostics }

/-- The context of a call is the same on both sides, and the relation holds after it. A lack of
support may be reported on one side only. -/
def Attributes (Rel : Session → Nat → Session → Nat → Prop) (ask : Forest → Nat → Context × Forest) :
    Prop :=
  ∀ s t s' t', Rel s t s' t' →
    (ask s'.forest t').1.text = (ask s.forest t).1.text ∧
      ∀ d, Rel (s.attributed (ask s.forest t) d) t (s'.attributed (ask s'.forest t') d) t'

/-- A relation between two sessions, each with one of its trees, that a parser of that tree keeps.
`Lists` is kept of the messages, and only includes of files in `Follows` are met. -/
structure Bond where
  options : Options
  files : FileTree
  stack : List Path
  stack' : List Path
  Rel : Session → Nat → Session → Nat → Prop
  Lists : Path → Array Message → Prop
  Follows : Path → Prop
  qualify : ∀ here count segments declaration,
    Fair Rel fun f t ↦ f.qualify t here count segments declaration
  unqualifiedContext : ∀ place, Attributes Rel fun f t ↦ f.unqualifiedContext t place
  qualifiedContext : ∀ place written, Attributes Rel fun f t ↦ f.qualifiedContext t place written
  enter : ∀ place, Fair Rel fun f t ↦ ((), f.enter t place)
  modifyAt : ∀ place {change}, Scope.Local change → Scope.KeepsChildren change →
    Fair Rel fun f t ↦ ((), f.modifyAt t place change)
  report : ∀ {s t s' t'} (d : Diagnostic), Rel s t s' t' →
    Rel { s with diagnostics := s.diagnostics.push d } t
      { s' with diagnostics := s'.diagnostics.push d } t'
  push : ∀ {file messages} {m : Message}, Lists file messages → m.file = file.text →
    Lists file (messages.push m)

/-- Where the whole answer is the same, so is what is reported. -/
theorem Fair.attributes {Rel : Session → Nat → Session → Nat → Prop}
    {ask : Forest → Nat → Context × Forest} (hask : Fair Rel ask)
    (hreport : ∀ {s t s' t'} (d : Diagnostic), Rel s t s' t' →
      Rel { s with diagnostics := s.diagnostics.push d } t
        { s' with diagnostics := s'.diagnostics.push d } t') : Attributes Rel ask := by
  intro s t s' t' h
  obtain ⟨hanswer, hrel⟩ := hask s t s' t' h
  refine ⟨congrArg Context.text hanswer, fun d ↦ ?_⟩
  unfold Session.attributed
  rw [hanswer]
  split
  · exact hreport d hrel
  · exact hrel

namespace Parser

variable {B : Bond} {file : Path} {p p' q q' : Parser}

/-- The two parsers of `file` differ in their sessions, their trees and the files that wait for them
only, and the sessions are related. -/
structure Tandem (B : Bond) (file : Path) (p p' : Parser) : Prop where
  eq : p' = { p with session := p'.session, tree := p'.tree, stack := p'.stack }
  options : p.options = B.options
  files : p.files = B.files
  reads : p.file = file
  stack : p.stack = B.stack
  stack' : p'.stack = B.stack'
  rel : B.Rel p.session p.tree p'.session p'.tree
  lists : B.Lists file p.messages
  follows : ∀ t ∈ p.token :: p.rest.map Item.token, ∀ found,
    includeTarget? B.options B.files file t = some found → B.Follows found

/-- Two readings have the same result and leave parsers in tandem. -/
structure Twin {α : Type} (B : Bond) (file : Path) (x x' : α × Parser) : Prop where
  fst : x'.1 = x.1
  snd : Tandem B file x.2 x'.2

/-- To show something of two such readings it is enough to look at one result and at the parsers after
it. -/
@[elab_as_elim]
theorem Twin.elim {α : Type} {x x' : α × Parser} {motive : α × Parser → α × Parser → Prop}
    (h : Twin B file x x')
    (pair : ∀ a q q', Tandem B file q q' → motive (a, q) (a, q')) : motive x x' := by
  obtain ⟨a, q⟩ := x
  obtain ⟨a', q'⟩ := x'
  obtain rfl : a' = a := h.fst
  exact pair a' q q' h.snd

/-- Two readings with two results each. -/
structure Twin₂ {α β : Type} (B : Bond) (file : Path) (x x' : α × β × Parser) : Prop where
  fst : x'.1 = x.1
  snd : Twin B file x.2 x'.2

@[elab_as_elim]
theorem Twin₂.elim {α β : Type} {x x' : α × β × Parser}
    {motive : α × β × Parser → α × β × Parser → Prop} (h : Twin₂ B file x x')
    (pair : ∀ a b q q', Tandem B file q q' → motive (a, b, q) (a, b, q')) : motive x x' := by
  obtain ⟨a, b, q⟩ := x
  obtain ⟨a', b', q'⟩ := x'
  obtain rfl : a' = a := h.fst
  obtain rfl : b' = b := h.snd.fst
  exact pair a' b' q q' h.snd.snd

/-- The file that the next turn includes, if it includes one. -/
def include? (p : Parser) : Option Path :=
  if p.depths.bracket > 0 && p.atNamespaceLevel then none
  else includeTarget? p.options p.files p.file p.token

/-- Reports that the scope of a context lacks localization support, if it does. -/
def reportLack (p : Parser) (context : Context) : Parser :=
  if context.lacksSupport then
    p.report .missingTrSupport ("Class '" ++ context.text ++ "' lacks Q_OBJECT macro")
  else p

theorem reportLack_clearQualifier (p : Parser) (context : Context) :
    p.clearQualifier.reportLack context = (p.reportLack context).clearQualifier := by
  unfold reportLack
  split <;> rfl

/-- The text of the context of a call, when a lack of support is reported. -/
def callContext (p : Parser) : Option String × Parser :=
  match p.callContext? with
  | (none, p) => (none, p)
  | (some context, p) => (some context.text, p.reportLack context)

theorem trMessage_eq (p : Parser) (line : Nat) (text : String) (plural : Bool) :
    p.trMessage line text plural =
      let (comment, plural, p) := p.commentAndCount plural
      match (if p.pendingMatters then p.resolvePending else p).callContext with
      | (none, p) => p
      | (some context, p) => (p.record line context text comment plural).forgetRemarks := by
  unfold trMessage callContext
  dsimp only
  generalize callContext? _ = outcome
  obtain ⟨context, q⟩ := outcome
  cases context <;> rfl

/-- The part of a parser that counts for what it is in tandem with. -/
def core (p : Parser) :
    Options × FileTree × Path × List Path × Session × Nat × Array Message × Token × List Item :=
  (p.options, p.files, p.file, p.stack, p.session, p.tree, p.messages, p.token, p.rest)

namespace Tandem

/-- Parsers stay in tandem if the rest of their state changes in the same way. -/
theorem soft (h : Tandem B file p p')
    (hq : q' = { q with session := p'.session, tree := p'.tree, stack := p'.stack })
    (hcore : q.core = p.core) : Tandem B file q q' := by
  simp only [core, Prod.mk.injEq] at hcore
  obtain ⟨hoptions, hfiles, hfile, hstack, hsession, htree, hmessages, htoken, hrest⟩ := hcore
  subst hq
  refine ⟨rfl, hoptions.trans h.options, hfiles.trans h.files, hfile.trans h.reads,
    hstack.trans h.stack, h.stack', ?_, ?_, ?_⟩
  · simpa only [hsession, htree] using h.rel
  · simpa only [hmessages] using h.lists
  · simpa only [htoken, hrest] using h.follows

theorem exists_eq (h : Tandem B file p p') :
    ∃ session tree stack, p' = { p with session := session, tree := tree, stack := stack } :=
  ⟨_, _, _, h.eq⟩

theorem token (h : Tandem B file p p') : p'.token = p.token := by rw [h.eq]

theorem budget (h : Tandem B file p p') : p'.budget = p.budget := by
  rw [h.eq]
  rfl

/-- A question to the forests: the answers are the same, and the parsers are in tandem after it. -/
theorem ask {α : Type} {ask : Forest → Nat → α × Forest} (h : Tandem B file p p')
    (hask : Fair B.Rel ask) :
    Twin B file ((ask p.forest p.tree).1, p.setForest (ask p.forest p.tree).2)
      ((ask p'.forest p'.tree).1, p'.setForest (ask p'.forest p'.tree).2) := by
  obtain ⟨hanswer, hrel⟩ := hask _ _ _ _ h.rel
  refine ⟨hanswer, ?_, h.options, h.files, h.reads, h.stack, h.stack', hrel, h.lists, h.follows⟩
  rw [h.eq]
  rfl

theorem reportAt (h : Tandem B file p p') (line : Nat) (kind : DiagnosticKind) (message : String) :
    Tandem B file (p.reportAt line kind message) (p'.reportAt line kind message) := by
  obtain ⟨session, tree, stack, rfl⟩ := h.exists_eq
  exact ⟨rfl, h.options, h.files, h.reads, h.stack, h.stack', B.report _ h.rel, h.lists, h.follows⟩

theorem report (h : Tandem B file p p') (kind : DiagnosticKind) (message : String) :
    Tandem B file (p.report kind message) (p'.report kind message) := by
  have hline : p'.line = p.line := by rw [h.eq]
  unfold Parser.report
  rw [hline]
  exact h.reportAt _ _ _

theorem addMessage (h : Tandem B file p p') {m : Message} (hm : m.file = p.file.text)
    (remarks : Remarks) :
    Tandem B file { p.addMessage m with remarks } { p'.addMessage m with remarks } := by
  have hlists := B.push h.lists (hm.trans (by rw [h.reads]))
  refine ⟨?_, h.options, h.files, h.reads, h.stack, h.stack', h.rel, hlists, h.follows⟩
  rw [h.eq]
  rfl

theorem contextRemark (h : Tandem B file p p') (context comment : String) (line : Nat) :
    Tandem B file (p.contextRemark context comment line)
      (p'.contextRemark context comment line) := by
  obtain ⟨session, tree, stack, rfl⟩ := h.exists_eq
  exact h.addMessage rfl _

theorem remark (h : Tandem B file p p') (line : Nat) (r : Remark) :
    Tandem B file (p.remark line r) (p'.remark line r) := by
  obtain ⟨session, tree, stack, rfl⟩ := h.exists_eq
  cases r with
  | extraComment text => exact h.soft rfl rfl
  | id id => exact h.soft rfl rfl
  | extra key value => exact h.soft rfl rfl
  | translator context comment => exact h.contextRemark context comment line
  | sourceText text faults =>
    have hfold : ∀ {q q' : Parser}, Tandem B file q q' →
        Tandem B file (faults.foldl (fun p fault ↦ p.reportAt line fault.kind fault.message) q)
          (faults.foldl (fun p fault ↦ p.reportAt line fault.kind fault.message) q') := by
      induction faults with
      | nil => exact id
      | cons fault faults ih => exact fun hq ↦ ih (hq.reportAt line fault.kind fault.message)
    exact hfold (h.soft rfl rfl)

theorem note (h : Tandem B file p p') (n : Note) : Tandem B file (p.note n) (p'.note n) := by
  obtain ⟨session, tree, stack, rfl⟩ := h.exists_eq
  cases n with
  | save slot => exact h.soft rfl rfl
  | restore slot => exact h.soft rfl rfl
  | macroEnded => exact h.soft rfl rfl
  | problem line kind message => exact h.reportAt line kind message
  | comment body line =>
    unfold Parser.note
    dsimp only
    split
    · split
      · exact h
      · exact h.remark line _
    · exact h

theorem notes (h : Tandem B file p p') (ns : List Note) :
    Tandem B file (ns.foldl Parser.note p) (ns.foldl Parser.note p') := by
  induction ns generalizing p p' with
  | nil => exact h
  | cons n ns ih => exact ih (h.note n)

theorem advance (h : Tandem B file p p') : Tandem B file p.advance p'.advance := by
  have hrest : p'.rest = p.rest := by rw [h.eq]
  unfold Parser.advance
  rw [hrest]
  cases hp : p.rest with
  | nil =>
    refine ⟨by rw [h.eq], h.options, h.files, h.reads, h.stack, h.stack', h.rel, h.lists, ?_⟩
    intro t ht found hfound
    obtain rfl : t = .eof := by simpa [hp] using ht
    cases hfound
  | cons item rest =>
    have hnotes := h.notes item.notes
    dsimp only
    refine ⟨by rw [hnotes.eq], hnotes.options, hnotes.files, hnotes.reads, hnotes.stack,
      hnotes.stack', hnotes.rel, hnotes.lists, fun t ht ↦ h.follows t ?_⟩
    rw [hp]
    exact List.mem_cons_of_mem _ ht

theorem eat (h : Tandem B file p p') (t : Token) : Twin B file (p.eat t) (p'.eat t) := by
  unfold Parser.eat
  rw [h.token]
  split
  · exact ⟨rfl, h.advance⟩
  · exact ⟨rfl, h⟩

theorem modifyOpenScope (h : Tandem B file p p') {change : Scope → Scope}
    (hchange : Scope.Local change) (hchildren : Scope.KeepsChildren change) :
    Tandem B file (p.modifyOpenScope change) (p'.modifyOpenScope change) := by
  obtain ⟨session, tree, stack, rfl⟩ := h.exists_eq
  exact (h.ask (B.modifyAt p.snapshot.namespaces hchange hchildren)).snd

theorem enter (h : Tandem B file p p') (segment : String) :
    Tandem B file (p.enter segment) (p'.enter segment) := by
  obtain ⟨session, tree, stack, rfl⟩ := h.exists_eq
  exact (h.ask (B.enter (p.snapshot.namespaces.push segment))).snd.soft rfl rfl

theorem beginBody (h : Tandem B file p p') : Tandem B file p.beginBody p'.beginBody := by
  obtain ⟨session, tree, stack, rfl⟩ := h.exists_eq
  exact Tandem.advance (h.soft rfl rfl)

theorem pushDepth (h : Tandem B file p p') : Tandem B file p.pushDepth p'.pushDepth := by
  obtain ⟨session, tree, stack, rfl⟩ := h.exists_eq
  exact h.soft rfl rfl

theorem enterUnnamed (h : Tandem B file p p') : Tandem B file p.enterUnnamed p'.enterUnnamed := by
  obtain ⟨session, tree, stack, rfl⟩ := h.exists_eq
  exact Tandem.advance (h.pushDepth.soft rfl rfl)

theorem writtenFrom (h : Tandem B file p p') (n : Nat) (name : Name) :
    Twin B file (Parser.writtenFrom n name p) (Parser.writtenFrom n name p') := by
  induction n generalizing name p p' with
  | zero => exact ⟨rfl, h⟩
  | succ n ih =>
    unfold Parser.writtenFrom
    rw [h.token]
    split
    · exact ih h.advance name
    · exact ih h.advance _
    · exact ⟨rfl, h⟩

theorem written (h : Tandem B file p p') : Twin B file p.written p'.written := by
  unfold Parser.written
  rw [h.token, h.budget]
  exact h.writtenFrom _ _

theorem qualifyHere (h : Tandem B file p p') (n : Name) :
    Twin B file (p.qualifyHere n) (p'.qualifyHere n) := by
  obtain ⟨session, tree, stack, rfl⟩ := h.exists_eq
  obtain ⟨hanswer, htandem⟩ := h.ask (B.qualify p.snapshot.namespaces p.snapshot.namespaces.length
    n.segments false)
  exact ⟨hanswer, htandem⟩

theorem addAlias (h : Tandem B file p p') (name : String) (target : Name) :
    Tandem B file (p.addAlias name target) (p'.addAlias name target) := by
  unfold Parser.addAlias
  refine (h.qualifyHere target).elim fun outcome q q' hq ↦ ?_
  cases outcome with
  | ok target => exact hq.modifyOpenScope (fun _ _ ↦ rfl) fun _ ↦ rfl
  | error rest => exact hq.modifyOpenScope (fun _ _ ↦ rfl) fun _ ↦ rfl

theorem classNameFrom (h : Tandem B file p p') (n : Nat) (name : String) (qualifier : List String) :
    Twin B file (Parser.classNameFrom n name qualifier p)
      (Parser.classNameFrom n name qualifier p') := by
  induction n generalizing name qualifier p p' with
  | zero => exact ⟨rfl, h⟩
  | succ n ih =>
    unfold Parser.classNameFrom
    rw [h.token]
    split
    · dsimp only
      rw [h.advance.token]
      split
      · exact ih h.advance.advance _ _
      · exact ⟨rfl, h.advance⟩
    · split
      · exact ⟨rfl, h.advance⟩
      · exact ih h.advance _ _
    · exact ⟨rfl, h⟩

theorem basesFrom (h : Tandem B file p p') (n : Nat) (collecting : Bool) (current : String)
    (bases : List String) :
    Twin₂ B file (Parser.basesFrom n collecting current bases p)
      (Parser.basesFrom n collecting current bases p') := by
  induction n generalizing collecting current bases p p' with
  | zero => exact ⟨rfl, ⟨rfl, h⟩⟩
  | succ n ih =>
    have hnext := h.advance
    unfold Parser.basesFrom
    dsimp only
    rw [hnext.token]
    split
    · exact ⟨rfl, ⟨rfl, hnext⟩⟩
    · exact ⟨rfl, ⟨rfl, hnext⟩⟩
    · exact ⟨rfl, ⟨rfl, hnext⟩⟩
    · exact ⟨rfl, ⟨rfl, hnext⟩⟩
    · exact ih hnext _ _ _
    · exact ih hnext _ _ _
    · split
      · exact ih hnext _ _ _
      · exact ih hnext _ _ _
    · exact ih hnext _ _ _
    · exact ih hnext _ _ _

end Tandem

theorem fair_resolveBases (B : Bond) (enclosing : Name) (bases : List String) :
    Fair B.Rel fun f t ↦ resolveBases f t enclosing bases := by
  induction bases with
  | nil => exact fun _ _ _ _ h ↦ ⟨rfl, h⟩
  | cons base bases ih =>
    intro s t s' t' h
    have hbase := B.qualify enclosing enclosing.length (Name.ofWritten base).segments false s t s' t' h
    obtain ⟨hanswer, hrel⟩ := hbase
    obtain ⟨hnames, hrest⟩ := ih _ _ _ _ hrel
    dsimp only at hanswer hnames hrest
    dsimp only [resolveBases, Forest.qualifyWritten]
    generalize s.forest.qualify t enclosing enclosing.length (Name.ofWritten base).segments false = x,
      s'.forest.qualify t' enclosing enclosing.length (Name.ofWritten base).segments false = x' at *
    obtain ⟨outcome, f⟩ := x
    obtain ⟨outcome', f'⟩ := x'
    obtain rfl : outcome' = outcome := hanswer
    cases outcome' with
    | ok n => exact ⟨congrArg (n :: ·) hnames, hrest⟩
    | error rest => exact ⟨hnames, hrest⟩

namespace Tandem

theorem enterClass (h : Tandem B file p p') (enclosing : Name) (name : String)
    (bases : List String) :
    Tandem B file (p.enterClass enclosing name bases) (p'.enterClass enclosing name bases) := by
  have hentered : ∀ {q q' : Parser}, Tandem B file q q' →
      Tandem B file ((q.pushDepth.setSnapshot
          { q.pushDepth.snapshot with namespaces := enclosing }).enter name)
        ((q'.pushDepth.setSnapshot
          { q'.pushDepth.snapshot with namespaces := enclosing }).enter name) := by
    intro q q' hq
    obtain ⟨session, tree, stack, rfl⟩ := hq.exists_eq
    apply Tandem.enter
    exact hq.soft rfl rfl
  obtain ⟨hbases, hq⟩ := h.ask (fair_resolveBases B enclosing bases)
  dsimp only at hbases hq
  unfold Parser.enterClass
  dsimp only
  rw [hbases]
  split
  · exact (hentered hq).beginBody
  · apply Tandem.beginBody
    exact (hentered hq).modifyOpenScope (fun _ _ ↦ rfl) fun _ ↦ rfl

theorem defineClass (h : Tandem B file p p') (name : String) (qualifier bases : List String) :
    Tandem B file (p.defineClass name qualifier bases) (p'.defineClass name qualifier bases) := by
  have hsnapshot : p'.snapshot = p.snapshot := by rw [h.eq]
  obtain ⟨hanswer, hq⟩ := h.ask (B.qualify p.snapshot.namespaces p.snapshot.namespaces.length
    qualifier true)
  dsimp only at hanswer hq
  unfold Parser.defineClass
  rw [hsnapshot]
  dsimp only
  split
  · exact h.enterClass _ name bases
  · generalize p.forest.qualify p.tree p.snapshot.namespaces p.snapshot.namespaces.length qualifier
        true = x,
      p'.forest.qualify p'.tree p.snapshot.namespaces p.snapshot.namespaces.length qualifier
        true = x' at *
    obtain ⟨outcome, f⟩ := x
    obtain ⟨outcome', f'⟩ := x'
    obtain rfl : outcome' = outcome := hanswer
    cases outcome' with
    | ok enclosing => exact Tandem.enterClass hq enclosing name bases
    | error rest => exact Tandem.report hq _ _

theorem classHead (h : Tandem B file p p') : Tandem B file p.classHead p'.classHead := by
  unfold Parser.classHead
  rw [h.token]
  split
  · exact h.enterUnnamed
  · rename_i first _
    rw [h.budget]
    refine (h.advance.classNameFrom p.budget first []).elim fun name q q' hq ↦ ?_
    dsimp only
    rw [hq.token, hq.budget]
    split
    · refine (hq.basesFrom q.budget q.token.isColon "" []).elim fun ends bases r r' hr ↦ ?_
      cases ends with
      | body => exact hr.defineClass name.1 name.2 bases
      | cancelled => exact hr.advance
      | declaration => exact hr
      | eof => exact hr
    · split
      · exact hq.defineClass name.1 name.2 []
      · exact hq
  · exact h

theorem namespacePath (h : Tandem B file p p') (n : Nat) (names : List String) :
    Twin B file (Parser.namespacePath n names p) (Parser.namespacePath n names p') := by
  induction n generalizing names p p' with
  | zero => exact ⟨rfl, h⟩
  | succ n ih =>
    unfold Parser.namespacePath
    rw [h.token]
    split
    · dsimp only
      rw [h.advance.token]
      split
      · rw [h.advance.advance.token]
        split
        · exact ih h.advance.advance _
        · exact ⟨rfl, h.advance.advance⟩
      · exact ⟨rfl, h.advance⟩
    · exact ⟨rfl, h⟩

theorem enters (h : Tandem B file p p') (names : List String) :
    Tandem B file (names.foldl Parser.enter p) (names.foldl Parser.enter p') := by
  induction names generalizing p p' with
  | nil => exact h
  | cons name names ih => exact ih (h.enter name)

theorem namespaceHead (h : Tandem B file p p') :
    Tandem B file p.namespaceHead p'.namespaceHead := by
  have hnext := h.advance
  unfold Parser.namespaceHead
  dsimp only
  rw [hnext.token, hnext.budget]
  split
  · refine (hnext.namespacePath _ []).elim fun names q q' hq ↦ ?_
    dsimp only
    rw [hq.token]
    split
    · exact (hq.pushDepth.enters names).beginBody
    · refine hq.advance.written.elim fun target r r' hr ↦ ?_
      dsimp only
      split
      · exact hr
      · exact hr.addAlias _ target
    · exact hq
  · exact hnext.enterUnnamed
  · exact hnext

theorem usingHead (h : Tandem B file p p') : Tandem B file p.usingHead p'.usingHead := by
  have hnext := h.advance
  unfold Parser.usingHead
  dsimp only
  rw [hnext.token]
  split
  · refine hnext.advance.written.elim fun target q q' hq ↦ ?_
    refine (hq.qualifyHere target).elim fun outcome r r' hr ↦ ?_
    cases outcome with
    | ok target => exact hr.modifyOpenScope (fun _ _ ↦ rfl) fun _ ↦ rfl
    | error rest => exact hr
  · refine hnext.written.elim fun target q q' hq ↦ ?_
    dsimp only
    split
    · exact hq
    · split
      · exact hq
      · exact hq.addAlias _ target

/-! ### Calls -/

theorem literals (h : Tandem B file p p') (n : Nat) :
    Twin B file (Parser.literals n p) (Parser.literals n p') := by
  induction n generalizing p p' with
  | zero => exact ⟨rfl, h⟩
  | succ n ih =>
    have hmore := ih h.advance
    unfold Parser.literals
    rw [h.token]
    dsimp only
    split
    · exact ⟨by rw [hmore.fst], hmore.snd⟩
    · exact ⟨by rw [hmore.fst], hmore.snd⟩
    · exact ⟨rfl, h⟩

theorem text? (h : Tandem B file p p') : Twin B file p.text? p'.text? := by
  unfold Parser.text?
  rw [h.budget]
  exact h.literals _

theorem textOrNull? (h : Tandem B file p p') : Twin B file p.textOrNull? p'.textOrNull? := by
  unfold Parser.textOrNull?
  refine h.text?.elim fun text q q' hq ↦ ?_
  cases text with
  | some text => exact ⟨rfl, hq⟩
  | none =>
    dsimp only
    rw [hq.token]
    split
    · exact ⟨rfl, hq.advance⟩
    · exact ⟨rfl, hq⟩

theorem encoding? (h : Tandem B file p p') : Twin B file p.encoding? p'.encoding? := by
  unfold Parser.encoding?
  rw [h.token]
  split
  · exact ⟨rfl, h⟩
  · rename_i word _
    have hscoped : Tandem B file
        (if word ∈ applicationClasses then (p.advance.eat .colonColon).2 else p)
        (if word ∈ applicationClasses then (p'.advance.eat .colonColon).2 else p') := by
      split
      · exact (h.advance.eat .colonColon).snd
      · exact h
    generalize (if word ∈ applicationClasses then (p.advance.eat .colonColon).2 else p) = q,
      (if word ∈ applicationClasses then (p'.advance.eat .colonColon).2 else p') = q' at hscoped ⊢
    dsimp only
    rw [hscoped.token]
    split
    · exact ⟨rfl, hscoped.advance⟩
    · split
      · exact ⟨rfl, hscoped.report _ _⟩
      · exact ⟨rfl, hscoped⟩
    · exact ⟨rfl, hscoped⟩

theorem countFrom (h : Tandem B file p p') (n level : Nat) :
    Twin B file (Parser.countFrom n level p) (Parser.countFrom n level p') := by
  induction n generalizing level p p' with
  | zero => exact ⟨rfl, h⟩
  | succ n ih =>
    have hword : Tandem B file (if p.token.ident?.isSome then p.advance else p)
        (if p.token.ident?.isSome then p'.advance else p') := by
      split
      · exact h.advance
      · exact h
    unfold Parser.countFrom
    rw [h.token]
    dsimp only
    generalize (if p.token.ident?.isSome then p.advance else p) = q,
      (if p.token.ident?.isSome then p'.advance else p') = q' at hword ⊢
    rw [hword.token]
    split
    · exact ⟨rfl, hword⟩
    · split
      · split
        · exact ⟨rfl, hword⟩
        · exact ih hword.advance _
      · rw [hword.advance.token]
        split
        · exact ih hword.advance.advance _
        · exact ih hword.advance _
      · exact ih hword _
      · exact ih hword.advance _
      · exact ⟨rfl, hword⟩
      · exact ⟨rfl, hword⟩
      · split
        · exact ⟨rfl, hword⟩
        · exact ih hword.advance _

theorem count? (h : Tandem B file p p') : Twin B file p.count? p'.count? := by
  unfold Parser.count?
  rw [h.token, h.budget]
  split
  · exact ⟨rfl, h.advance⟩
  · exact h.countFrom _ 0

theorem record (h : Tandem B file p p') (line : Nat) (context text comment : String)
    (plural : Bool) :
    Tandem B file (p.record line context text comment plural)
      (p'.record line context text comment plural) := by
  obtain ⟨session, tree, stack, rfl⟩ := h.exists_eq
  exact h.addMessage rfl _

theorem clearQualifier (h : Tandem B file p p') :
    Tandem B file p.clearQualifier p'.clearQualifier := by
  obtain ⟨session, tree, stack, rfl⟩ := h.exists_eq
  exact h.soft rfl rfl

theorem clearProspective (h : Tandem B file p p') :
    Tandem B file p.clearProspective p'.clearProspective := by
  obtain ⟨session, tree, stack, rfl⟩ := h.exists_eq
  exact h.soft rfl rfl

theorem expectRemarks (h : Tandem B file p p') (expected : Bool) :
    Tandem B file (p.expectRemarks expected) (p'.expectRemarks expected) := by
  obtain ⟨session, tree, stack, rfl⟩ := h.exists_eq
  exact h.soft rfl rfl

theorem forgetRemarks (h : Tandem B file p p') : Tandem B file p.forgetRemarks p'.forgetRemarks := by
  obtain ⟨session, tree, stack, rfl⟩ := h.exists_eq
  exact h.soft rfl rfl

theorem resolvePending (h : Tandem B file p p') :
    Tandem B file p.resolvePending p'.resolvePending := by
  obtain ⟨session, tree, stack, rfl⟩ := h.exists_eq
  obtain ⟨hanswer, hq⟩ := h.ask (B.qualify p.snapshot.namespaces p.snapshot.namespaces.length
    (Name.ofWritten p.snapshot.pending).segments true)
  dsimp only at hanswer hq
  unfold Parser.resolvePending Forest.qualifyWritten
  dsimp only
  generalize p.forest.qualify p.tree _ _ _ _ = x, Forest.qualify _ tree _ _ _ _ = x' at *
  obtain ⟨outcome, f⟩ := x
  obtain ⟨outcome', f'⟩ := x'
  obtain rfl : outcome' = outcome := hanswer
  cases outcome' with
  | ok owner => exact hq.soft rfl rfl
  | error rest =>
    apply Tandem.report
    exact hq.soft rfl rfl

/-- A question about the context of a call, with what is reported after it. -/
theorem askContext {ask : Forest → Nat → Context × Forest} (h : Tandem B file p p')
    (hask : Attributes B.Rel ask) :
    Twin B file
      ((ask p.forest p.tree).1.text, ((p.setForest (ask p.forest p.tree).2).reportLack
        (ask p.forest p.tree).1))
      ((ask p'.forest p'.tree).1.text, ((p'.setForest (ask p'.forest p'.tree).2).reportLack
        (ask p'.forest p'.tree).1)) := by
  obtain ⟨hanswer, hrel⟩ := hask _ _ _ _ h.rel
  obtain ⟨session, tree, stack, rfl⟩ := h.exists_eq
  have hside (r : Parser) (c : Context × Forest) : (r.setForest c.2).reportLack c.1 =
      { r with session := r.session.attributed c ⟨r.file.text, r.line, .missingTrSupport,
        "Class '" ++ c.1.text ++ "' lacks Q_OBJECT macro"⟩ } := by
    unfold reportLack Session.attributed
    split <;> rfl
  rw [hside, hside]
  refine ⟨hanswer, ?_, h.options, h.files, h.reads, h.stack, h.stack', ?_, h.lists, h.follows⟩
  · rfl
  · dsimp only [Parser.forest] at hanswer hrel ⊢
    rw [hanswer]
    exact hrel _

theorem callContext (h : Tandem B file p p') : Twin B file p.callContext p'.callContext := by
  have hstatement : p'.statement = p.statement := by rw [h.eq]
  have hsnapshot : p'.snapshot = p.snapshot := by rw [h.eq]
  unfold Parser.callContext Parser.callContext?
  rw [hstatement, hsnapshot]
  dsimp only
  by_cases hqualifier : p.statement.qualifier ≠ ""
  · rw [if_pos hqualifier, if_pos hqualifier]
    obtain ⟨hanswer, hq⟩ := h.askContext (B.qualifiedContext p.snapshot.functionContext
      (writtenQualifier p.statement.qualifier))
    refine ⟨congrArg some hanswer, ?_⟩
    dsimp only
    rw [reportLack_clearQualifier, reportLack_clearQualifier]
    exact hq.clearQualifier
  rw [if_neg hqualifier, if_neg hqualifier]
  by_cases hunresolved : p.snapshot.unresolved ≠ ""
  · rw [if_pos hunresolved, if_pos hunresolved]
    exact ⟨rfl, h⟩
  rw [if_neg hunresolved, if_neg hunresolved]
  by_cases houtside : p.snapshot.functionContext.length < 2
  · rw [if_pos houtside, if_pos houtside]
    exact ⟨rfl, h.report _ _⟩
  · rw [if_neg houtside, if_neg houtside]
    obtain ⟨hanswer, hq⟩ := h.askContext (B.unqualifiedContext p.snapshot.functionContext)
    exact ⟨congrArg some hanswer, hq⟩

theorem commentAndCount (h : Tandem B file p p') (plural : Bool) :
    Twin₂ B file (p.commentAndCount plural) (p'.commentAndCount plural) := by
  unfold Parser.commentAndCount
  refine (h.eat .comma).elim fun eaten q q' hq ↦ ?_
  cases eaten with
  | false => exact ⟨rfl, ⟨rfl, hq⟩⟩
  | true =>
    dsimp only
    refine hq.textOrNull?.elim fun comment r r' hr ↦ ?_
    cases comment with
    | none => exact ⟨rfl, ⟨rfl, hr⟩⟩
    | some comment =>
      have hcounted := hr.eat .comma
      exact ⟨rfl, ⟨congrArg (plural || ·) hcounted.fst, hcounted.snd⟩⟩

theorem trMessage (h : Tandem B file p p') (line : Nat) (text : String) (plural : Bool) :
    Tandem B file (p.trMessage line text plural) (p'.trMessage line text plural) := by
  rw [trMessage_eq, trMessage_eq]
  refine (h.commentAndCount plural).elim fun comment plural q q' hq ↦ ?_
  have hpending : q'.pendingMatters = q.pendingMatters := by
    rw [hq.eq]
    rfl
  have hsettled : Tandem B file (if q.pendingMatters then q.resolvePending else q)
      (if q.pendingMatters then q'.resolvePending else q') := by
    split
    · exact hq.resolvePending
    · exact hq
  dsimp only
  rw [hpending]
  refine hsettled.callContext.elim fun context r r' hr ↦ ?_
  cases context with
  | none => exact hr
  | some context => exact (hr.record line context text comment plural).forgetRemarks

/-- A remark that a call cannot use is reported. -/
theorem unused (h : Tandem B file p p') (unused : Prop) [Decidable unused] (message : String) :
    Tandem B file (if unused then p else p.report .ignoredRemark message)
      (if unused then p' else p'.report .ignoredRemark message) := by
  split
  · exact h
  · exact h.report _ _

theorem trCall (h : Tandem B file p p') (plural : Bool) :
    Tandem B file (p.trCall plural) (p'.trCall plural) := by
  have hremarks : p'.remarks = p.remarks := by rw [h.eq]
  have hq := h.unused (p.remarks.sourceText = "")
    "//% cannot be used with tr() / QT_TR_NOOP(). Ignoring"
  unfold Parser.trCall
  dsimp only
  rw [hremarks]
  generalize (if p.remarks.sourceText = "" then p else _) = q,
    (if p.remarks.sourceText = "" then p' else _) = q' at hq ⊢
  have hline : q'.line = q.line := by rw [hq.eq]
  rw [hline]
  refine hq.advance.text?.elim fun text r r' hr ↦ ?_
  cases text with
  | none => exact hr.forgetRemarks
  | some text =>
    dsimp only
    split
    · exact hr.forgetRemarks
    · exact hr.trMessage _ text plural

theorem translateArguments (h : Tandem B file p p') (plural : Bool) :
    Twin B file (p.translateArguments plural) (p'.translateArguments plural) := by
  unfold Parser.translateArguments
  rw [h.token]
  split
  · exact ⟨rfl, h⟩
  refine (h.eat .comma).elim fun eaten q q' hq ↦ ?_
  cases eaten with
  | false => exact ⟨rfl, hq⟩
  | true =>
    dsimp only
    refine hq.textOrNull?.elim fun comment r r' hr ↦ ?_
    cases comment with
    | none => exact ⟨rfl, hr⟩
    | some comment =>
      dsimp only
      rw [hr.token]
      split
      · exact ⟨rfl, hr⟩
      refine (hr.eat .comma).elim fun eaten s s' hs ↦ ?_
      cases eaten with
      | false => exact ⟨rfl, hs⟩
      | true =>
        dsimp only
        refine hs.encoding?.elim fun encoded u u' hu ↦ ?_
        cases encoded with
        | true =>
          have hcounted := hu.eat .comma
          exact ⟨congrArg (fun counted ↦ some (comment, plural || counted)) hcounted.fst,
            hcounted.snd⟩
        | false =>
          dsimp only
          refine hu.count?.elim fun counted v v' hv ↦ ?_
          cases counted with
          | false => exact ⟨rfl, hv⟩
          | true =>
            dsimp only
            rw [hv.token]
            split
            · exact ⟨rfl, hv⟩
            · exact ⟨rfl, hv⟩

theorem contextAndText? (h : Tandem B file p p') :
    Twin B file p.contextAndText? p'.contextAndText? := by
  unfold Parser.contextAndText?
  refine h.text?.elim fun context q q' hq ↦ ?_
  cases context with
  | none => exact ⟨rfl, hq⟩
  | some context =>
    dsimp only
    refine (hq.eat .comma).elim fun eaten r r' hr ↦ ?_
    cases eaten with
    | false => exact ⟨rfl, hr⟩
    | true =>
      dsimp only
      refine hr.text?.elim fun text s s' hs ↦ ?_
      cases text with
      | none => exact ⟨rfl, hs⟩
      | some text => exact ⟨rfl, hs⟩

theorem translateCall (h : Tandem B file p p') (plural : Bool) :
    Tandem B file (p.translateCall plural) (p'.translateCall plural) := by
  have hremarks : p'.remarks = p.remarks := by rw [h.eq]
  have hq := h.unused (p.remarks.sourceText = "")
    "//% cannot be used with translate() / QT_TRANSLATE_NOOP(). Ignoring"
  unfold Parser.translateCall
  dsimp only
  rw [hremarks]
  generalize (if p.remarks.sourceText = "" then p else _) = q,
    (if p.remarks.sourceText = "" then p' else _) = q' at hq ⊢
  have hline : q'.line = q.line := by rw [hq.eq]
  rw [hline]
  refine hq.advance.contextAndText?.elim fun found r r' hr ↦ ?_
  cases found with
  | none => exact hr.forgetRemarks
  | some found =>
    dsimp only
    refine (hr.translateArguments plural).elim fun arguments s s' hs ↦ ?_
    cases arguments with
    | none => exact hs
    | some arguments => exact (hs.record _ _ _ _ _).forgetRemarks

theorem trIdCall (h : Tandem B file p p') (plural : Bool) :
    Tandem B file (p.trIdCall plural) (p'.trIdCall plural) := by
  have hremarks : p'.remarks = p.remarks := by rw [h.eq]
  have hq := h.unused (p.remarks.id = "")
    "//= cannot be used with qtTrId() / QT_TRID_NOOP(). Ignoring"
  unfold Parser.trIdCall
  dsimp only
  rw [hremarks]
  generalize (if p.remarks.id = "" then p else _) = q,
    (if p.remarks.id = "" then p' else _) = q' at hq ⊢
  have hline : q'.line = q.line := by rw [hq.eq]
  rw [hline]
  refine hq.advance.text?.elim fun text r r' hr ↦ ?_
  cases text with
  | none => exact hr.forgetRemarks
  | some text =>
    dsimp only
    split
    · exact hr.forgetRemarks
    refine (hr.eat .comma).elim fun counted s s' hs ↦ ?_
    obtain ⟨session, tree, stack, rfl⟩ := hs.exists_eq
    apply Tandem.forgetRemarks
    apply Tandem.record
    exact hs.soft rfl rfl

theorem declaredName (h : Tandem B file p p') (n : Nat) (name : String) :
    Twin B file (Parser.declaredName n name p) (Parser.declaredName n name p') := by
  induction n generalizing name p p' with
  | zero => exact ⟨rfl, h⟩
  | succ n ih =>
    have hnext := h.advance
    unfold Parser.declaredName
    dsimp only
    rw [hnext.token]
    split
    · exact ⟨rfl, hnext⟩
    · rw [hnext.advance.token]
      split
      · exact ⟨rfl, hnext.advance⟩
      · exact ih hnext.advance _
      · exact ⟨rfl, hnext.advance⟩

theorem declareCall (h : Tandem B file p p') : Tandem B file p.declareCall p'.declareCall := by
  unfold Parser.declareCall
  rw [h.budget]
  refine (h.declaredName _ "").elim fun name q q' hq ↦ ?_
  cases name with
  | none => exact hq
  | some name => exact hq.modifyOpenScope (fun _ _ ↦ rfl) fun _ ↦ rfl

theorem call (h : Tandem B file p p') (c : Call) : Tandem B file (p.call c) (p'.call c) := by
  unfold Parser.call
  split
  · exact h.declareCall
  · exact h.trCall _
  · exact h.translateCall _
  · exact h.trIdCall _

/-! ### The main loop -/

theorem promote (h : Tandem B file p p') : Tandem B file p.promote p'.promote := by
  obtain ⟨session, tree, stack, rfl⟩ := h.exists_eq
  unfold Parser.promote
  dsimp only
  split
  · exact h
  · exact h.soft rfl rfl

theorem closeBrace (h : Tandem B file p p') : Tandem B file p.closeBrace p'.closeBrace := by
  obtain ⟨session, tree, stack, rfl⟩ := h.exists_eq
  exact h.soft rfl rfl

/-- Remarks that nothing has used are reported and dropped. -/
theorem dropRemarks (h : Tandem B file p p') :
    Tandem B file
      (if p.remarks.isEmpty then p
        else { p.report .discardedMetaData "Discarding unconsumed meta data" with remarks := {} })
      (if p'.remarks.isEmpty then p'
        else { p'.report .discardedMetaData "Discarding unconsumed meta data" with
          remarks := {} }) := by
  have hremarks : p'.remarks = p.remarks := by rw [h.eq]
  rw [hremarks]
  split
  · exact h
  · have hreport := h.report .discardedMetaData "Discarding unconsumed meta data"
    refine hreport.soft ?_ rfl
    rw [hreport.eq]

theorem endStatement (h : Tandem B file p p') : Tandem B file p.endStatement p'.endStatement := by
  obtain ⟨session, tree, stack, rfl⟩ := h.exists_eq
  unfold Parser.endStatement
  apply Tandem.advance
  apply Tandem.expectRemarks
  apply Tandem.dropRemarks
  exact h.soft rfl rfl

theorem onIdent (h : Tandem B file p p') (word : String) :
    Tandem B file (p.onIdent word) (p'.onIdent word) := by
  have hlevel : p'.atDeclarationLevel = p.atDeclarationLevel := by
    rw [h.eq]
    rfl
  have hstatement : p'.statement = p.statement := by rw [h.eq]
  have hbegun : Tandem B file
      (if p.statement.colonSeen && p.atDeclarationLevel then
        { p with statement := { p.statement with identSeen := true } } else p)
      (if p.statement.colonSeen && p.atDeclarationLevel then
        { p' with statement := { p.statement with identSeen := true } } else p') := by
    split
    · exact h.soft (by rw [h.eq]) rfl
    · exact h
  unfold Parser.onIdent
  rw [hlevel, hstatement]
  generalize (if p.statement.colonSeen && p.atDeclarationLevel then _ else p) = q,
    (if p.statement.colonSeen && p.atDeclarationLevel then _ else p') = q' at hbegun ⊢
  have hnext := hbegun.advance
  dsimp only
  generalize q.advance = r, q'.advance = r' at hnext ⊢
  obtain ⟨session, tree, stack, rfl⟩ := hnext.exists_eq
  dsimp only
  split
  · split
    · exact (hnext.call _).advance
    · exact hnext.clearQualifier.expectRemarks false
  · split
    · exact hnext.soft rfl rfl
    · exact hnext.clearQualifier.expectRemarks false

theorem onArrow (h : Tandem B file p p') : Tandem B file p.onArrow p'.onArrow := by
  have hlevel : p'.atDeclarationLevel = p.atDeclarationLevel := by
    rw [h.eq]
    rfl
  have hbegun : Tandem B file
      (if p.atDeclarationLevel then
        { p with statement := { p.statement with trailingReturn := true } } else p)
      (if p.atDeclarationLevel then
        { p' with statement := { p'.statement with trailingReturn := true } } else p') := by
    split
    · exact h.soft (by rw [h.eq]) rfl
    · exact h
  unfold Parser.onArrow
  rw [hlevel]
  generalize (if p.atDeclarationLevel then _ else p) = q,
    (if p.atDeclarationLevel then _ else p') = q' at hbegun ⊢
  have hnext := hbegun.advance
  dsimp only
  generalize q.advance = r, q'.advance = r' at hnext ⊢
  obtain ⟨session, tree, stack, rfl⟩ := hnext.exists_eq
  dsimp only
  split
  · exact hnext.report _ _
  · exact hnext.report _ _
  · exact hnext

theorem onColonColon (h : Tandem B file p p') : Tandem B file p.onColonColon p'.onColonColon := by
  obtain ⟨session, tree, stack, rfl⟩ := h.exists_eq
  unfold Parser.onColonColon Parser.atDeclarationLevel Parser.atNamespaceLevel
  dsimp only
  split
  · exact h.advance
  · split
    · apply Tandem.advance
      exact h.soft rfl rfl
    · apply Tandem.advance
      exact h.soft rfl rfl

theorem skipAccess (h : Tandem B file p p') (n : Nat) :
    Tandem B file (Parser.skipAccess n p) (Parser.skipAccess n p') := by
  induction n generalizing p p' with
  | zero => exact h
  | succ n ih =>
    have hnext := h.advance
    unfold Parser.skipAccess
    dsimp only
    rw [hnext.token]
    split
    · exact ih hnext
    · have hcolon := hnext.expectRemarks true
      rw [hcolon.token]
      split
      · exact hcolon.advance
      · exact hcolon

theorem onColonOrEquals (h : Tandem B file p p') :
    Tandem B file p.onColonOrEquals p'.onColonOrEquals := by
  have hlevel : p'.atDeclarationLevel = p.atDeclarationLevel := by
    rw [h.eq]
    rfl
  have hpromoted := h.promote
  unfold Parser.onColonOrEquals
  rw [h.token, hlevel]
  apply Tandem.advance
  apply Tandem.expectRemarks
  dsimp only
  split
  · split
    · split
      · exact hpromoted.soft (by rw [hpromoted.eq]) rfl
      · exact hpromoted
    · exact hpromoted
  · exact h

theorem onOpeningBrace (h : Tandem B file p p') :
    Tandem B file p.onOpeningBrace p'.onOpeningBrace := by
  obtain ⟨session, tree, stack, rfl⟩ := h.exists_eq
  have hpromoted := h.promote
  unfold Parser.onOpeningBrace
  apply Tandem.advance
  apply Tandem.expectRemarks
  dsimp only
  split
  · exact hpromoted.soft (by rw [hpromoted.eq]) rfl
  · exact h.soft rfl rfl

theorem onOpeningParen (h : Tandem B file p p') :
    Tandem B file p.onOpeningParen p'.onOpeningParen := by
  obtain ⟨session, tree, stack, rfl⟩ := h.exists_eq
  have hpromoted := h.promote
  unfold Parser.onOpeningParen Parser.atNamespaceLevel
  apply Tandem.advance
  apply Tandem.expectRemarks
  dsimp only
  split
  · exact hpromoted.soft (by rw [hpromoted.eq]) rfl
  · exact h.soft rfl rfl

theorem onClosingParen (h : Tandem B file p p') :
    Tandem B file p.onClosingParen p'.onClosingParen := by
  obtain ⟨session, tree, stack, rfl⟩ := h.exists_eq
  unfold Parser.onClosingParen Parser.atNamespaceLevel
  dsimp only
  split
  · apply Tandem.advance
    apply Tandem.expectRemarks
    split
    · exact h.soft rfl rfl
    · exact h
  · exact (h.expectRemarks false).advance

theorem skipParens (h : Tandem B file p p') (outer n : Nat) :
    Tandem B file (Parser.skipParens outer n p) (Parser.skipParens outer n p') := by
  induction n generalizing p p' with
  | zero => exact h
  | succ n ih =>
    have hdepths : p'.depths = p.depths := by rw [h.eq]
    unfold Parser.skipParens
    rw [hdepths, h.token]
    split
    · exact h
    · exact ih h.advance

theorem onClass (h : Tandem B file p p') : Tandem B file p.onClass p'.onClass := by
  have hlevel : p'.advance.atDeclarationLevel = p.advance.atDeclarationLevel := by
    rw [h.advance.eq]
    rfl
  unfold Parser.onClass
  dsimp only
  rw [hlevel]
  split
  · exact h.advance.classHead
  · exact h.advance

/-- The parser comes up in the main loop when `p` reads its file. -/
inductive Passes (includer : Includer) (p : Parser) : Parser → Prop
  | start : Passes includer p p.ready.advance
  | turn {q : Parser} (hq : Passes includer p q) (htoken : q.token ≠ .eof) :
      Passes includer p (q.turn includer)

section Run

variable {includer includer' : Includer}

theorem onInclude (h : Tandem B file p p') (written : String) (quoted : Bool)
    (hincluder : ∀ found, resolveInclude B.files file written quoted B.options.includePaths =
      some found → Tandem B file (includer found p) (includer' found p')) :
    Tandem B file (p.onInclude includer written quoted)
      (p'.onInclude includer' written quoted) := by
  have hresolve : resolveInclude p'.files p'.file written quoted p'.options.includePaths =
      resolveInclude p.files p.file written quoted p.options.includePaths := by rw [h.eq]
  unfold Parser.onInclude
  rw [hresolve, h.files, h.reads, h.options]
  cases hfound : resolveInclude B.files file written quoted B.options.includePaths with
  | none => exact h.advance
  | some found => exact (hincluder found hfound).advance

theorem turn (h : Tandem B file p p')
    (hincluder : ∀ found, p.include? = some found → B.Follows found →
      Tandem B file (includer found p) (includer' found p')) :
    Tandem B file (p.turn includer) (p'.turn includer') := by
  have hlevel : p'.atNamespaceLevel = p.atNamespaceLevel := by
    rw [h.eq]
    rfl
  have hdepths : p'.depths = p.depths := by rw [h.eq]
  have hstatement : p'.statement = p.statement := by rw [h.eq]
  have hfollows := h.follows p.token List.mem_cons_self
  unfold Parser.turn
  rw [hlevel, hdepths, hstatement, h.token, h.budget]
  by_cases hbracket : (p.depths.bracket > 0 && p.atNamespaceLevel) = true
  · rw [if_pos hbracket, if_pos hbracket]
    exact h.advance
  have hinclude (found : Path)
      (hfound : includeTarget? B.options B.files file p.token = some found) :
      Tandem B file (includer found p) (includer' found p') := by
    refine hincluder found ?_ (hfollows found hfound)
    rw [include?, if_neg hbracket, h.options, h.files, h.reads]
    exact hfound
  rw [if_neg hbracket, if_neg hbracket]
  generalize p.token = token at hinclude ⊢
  split
  · exact h.onInclude _ true hinclude
  · exact h.onInclude _ false hinclude
  · exact (h.advance.eat .classWord).snd
  · exact h.onClass
  · exact h.namespaceHead
  · exact h.usingHead
  · apply Tandem.advance
    exact h.modifyOpenScope (fun _ _ ↦ rfl) fun _ ↦ rfl
  · exact h.onIdent _
  · exact h.onArrow
  · exact h.onColonColon
  · apply Tandem.endStatement
    split
    · exact h
    · exact h.closeBrace
  · exact h.endStatement
  · exact h.skipAccess _
  · exact h.onColonOrEquals
  · exact h.onColonOrEquals
  · exact h.onOpeningBrace
  · exact h.onOpeningParen
  · exact (h.expectRemarks true).advance
  · exact (h.expectRemarks true).advance
  · exact h.onClosingParen
  · dsimp only
    rw [h.advance.budget]
    exact h.advance.skipParens _ _
  · exact (h.advance.eat .classWord).snd
  · exact h.advance
  · apply Tandem.advance
    split
    · exact h.clearProspective
    · exact h

theorem ready (h : Tandem B file p p') : Tandem B file p.ready p'.ready := by
  obtain ⟨session, tree, stack, rfl⟩ := h.exists_eq
  exact h.soft rfl rfl

variable {first : Parser}
  (hincluder : ∀ {found q q'}, Passes includer first q → q.include? = some found →
    B.Follows found → Tandem B file q q' → Tandem B file (includer found q) (includer' found q'))

include hincluder

theorem loop (h : Tandem B file p p') (hp : Passes includer first p) (n : Nat) :
    Tandem B file (Parser.loop includer n p) (Parser.loop includer' n p') := by
  induction n generalizing p p' with
  | zero => exact h
  | succ n ih =>
    unfold Parser.loop
    rw [h.token]
    by_cases htoken : p.token = .eof
    · rw [if_pos htoken, if_pos htoken]
      exact h
    · rw [if_neg htoken, if_neg htoken]
      exact ih (h.turn fun found hfound hfollows ↦ hincluder hp hfound hfollows h)
        (hp.turn htoken)

/-- Parsers that are in tandem before a file are in tandem after it. -/
theorem run {first' : Parser} (h : Tandem B file first first') :
    Tandem B file (first.run includer) (first'.run includer') := by
  have hnext := h.ready.advance
  have hloop : Tandem B file
      (Parser.loop includer first.ready.advance.budget first.ready.advance)
      (Parser.loop includer' first'.ready.advance.budget first'.ready.advance) := by
    rw [hnext.budget]
    exact hnext.loop hincluder .start _
  change Tandem B file
    ((Parser.loop includer first.ready.advance.budget first.ready.advance).trailing.foldl
      Parser.note (Parser.loop includer first.ready.advance.budget first.ready.advance))
    ((Parser.loop includer' first'.ready.advance.budget first'.ready.advance).trailing.foldl
      Parser.note (Parser.loop includer' first'.ready.advance.budget first'.ready.advance))
  generalize Parser.loop includer first.ready.advance.budget first.ready.advance = q,
    Parser.loop includer' first'.ready.advance.budget first'.ready.advance = q' at hloop ⊢
  have htrailing : q'.trailing = q.trailing := by rw [hloop.eq]
  rw [htrailing]
  exact hloop.notes _

end Run

end Tandem

end Parser

end Harvest
