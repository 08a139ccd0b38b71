import Harvest.Proofs.Parser.Listening

/-!
# The moves of a parser

All that a turn of the main loop does between two includes is made up of few moves: going on to the
next token, changes that concern neither tokens nor remarks, the message of a call, a call without
a message, and the end of a statement. From this follow both that every turn goes past a token and
which remarks are used in it.
-/

namespace Harvest.Parser

variable {p q r : Parser} {j k : Nat}

/-- What stays the same between two tokens of a file, where no remark is used. -/
def still (p : Parser) := (p.spot, p.attention)

/-- The second parser comes from the first by reading on, past `k` tokens or more, where only
comments occur. -/
structure Walks (k : Nat) (p q : Parser) : Prop where
  onward : Onward k p q
  listens : Listens p q

namespace Walks

theorem of_still (h : q.still = p.still) : Walks 0 p q :=
  ⟨.of_spot (congrArg Prod.fst h), .of_attention (congrArg Prod.snd h)⟩

theorem refl (p : Parser) : Walks 0 p p := of_still rfl

theorem trans (hpq : Walks j p q) (hqr : Walks k q r) : Walks j p r :=
  ⟨hpq.onward.trans hqr.onward, hpq.listens.trans hqr.listens⟩

theorem after (hpq : Walks j p q) (hqr : Walks k q r) : Walks k p r :=
  ⟨hpq.onward.after hqr.onward, hpq.listens.trans hqr.listens⟩

theorem weaken (h : Walks k p q) : Walks 0 p q := ⟨h.onward.weaken, h.listens⟩

end Walks

theorem walks_advance (p : Parser) : Walks 1 p p.advance := ⟨p.onward_advance, p.listens_advance⟩

/-- A token is gone past after some changes to the rest of the state. -/
theorem walks_advance_of (h : q.still = p.still) : Walks 1 p q.advance :=
  (Walks.of_still h).after q.walks_advance

theorem still_report (p : Parser) {kind : DiagnosticKind} (message : String)
    (hkind : kind ≠ .discardedMetaData) : (p.report kind message).still = p.still :=
  congrArg (Prod.mk p.spot) (p.attention_reportAt p.line message hkind)

theorem walks_eat (p : Parser) (t : Token) : Walks 0 p (p.eat t).2 := by
  unfold eat
  split
  · exact p.walks_advance.weaken
  · exact .refl p


theorem walks_beginBody (p : Parser) : Walks 1 p p.beginBody := by
  unfold beginBody
  exact walks_advance_of rfl

theorem walks_enterUnnamed (p : Parser) : Walks 1 p p.enterUnnamed := by
  unfold enterUnnamed
  exact walks_advance_of rfl

theorem walks_writtenFrom (n : Nat) (name : Name) (p : Parser) :
    Walks 0 p (writtenFrom n name p).2 := by
  induction n generalizing name p with
  | zero => exact .refl p
  | succ n ih =>
    unfold writtenFrom
    split
    · exact p.walks_advance.after (ih _ _)
    · exact p.walks_advance.after (ih _ _)
    · exact .refl p

theorem walks_written (p : Parser) : Walks 0 p p.written.2 := walks_writtenFrom _ _ p

theorem still_qualifyHere (p : Parser) (n : Name) : (p.qualifyHere n).2.still = p.still := by
  unfold qualifyHere
  dsimp only
  generalize p.forest.qualify _ _ _ _ _ = x
  rfl

theorem still_addAlias (p : Parser) (name : String) (target : Name) :
    (p.addAlias name target).still = p.still := by
  have hstill := p.still_qualifyHere target
  unfold addAlias
  generalize p.qualifyHere target = x at hstill ⊢
  obtain ⟨outcome, q⟩ := x
  cases outcome <;> exact hstill

theorem walks_classNameFrom (n : Nat) (name : String) (qualifier : List String) (p : Parser) :
    Walks 0 p (classNameFrom n name qualifier p).2 := by
  induction n generalizing name qualifier p with
  | zero => exact .refl p
  | succ n ih =>
    have hnext := p.walks_advance
    unfold classNameFrom
    split
    · dsimp only
      split
      · exact (hnext.after p.advance.walks_advance).after (ih _ _ _)
      · exact hnext.weaken
    · split
      · exact hnext.weaken
      · exact hnext.after (ih _ _ _)
    · exact .refl p

theorem walks_basesFrom (n : Nat) (collecting : Bool) (current : String) (bases : List String)
    (p : Parser) : Walks 0 p (basesFrom n collecting current bases p).2.2 := by
  induction n generalizing collecting current bases p with
  | zero => exact .refl p
  | succ n ih =>
    have hnext := p.walks_advance
    have hmore : ∀ collecting current bases,
        Walks 0 p (basesFrom n collecting current bases p.advance).2.2 :=
      fun _ _ _ ↦ hnext.after (ih _ _ _ _)
    unfold basesFrom
    dsimp only
    split
    · exact hnext.weaken
    · exact hnext.weaken
    · exact hnext.weaken
    · exact hnext.weaken
    · exact hmore _ _ _
    · exact hmore _ _ _
    · split
      · exact hmore _ _ _
      · exact hmore _ _ _
    · exact hmore _ _ _
    · exact hmore _ _ _

theorem still_enter (p : Parser) (segment : String) : (p.enter segment).still = p.still := rfl

theorem still_modifyOpenScope (p : Parser) (change : Scope → Scope) :
    (p.modifyOpenScope change).still = p.still := rfl

theorem walks_enterClass (p : Parser) (enclosing : Name) (name : String) (bases : List String) :
    Walks 1 p (p.enterClass enclosing name bases) := by
  unfold enterClass
  dsimp only
  split
  · refine (Walks.of_still ?_).after (walks_beginBody _)
    rw [still_enter]
    rfl
  · refine (Walks.of_still ?_).after (walks_beginBody _)
    rw [still_modifyOpenScope, still_enter]
    rfl

theorem walks_defineClass (p : Parser) (name : String) (qualifier bases : List String) :
    Walks 0 p (p.defineClass name qualifier bases) := by
  unfold defineClass
  dsimp only
  split
  · exact (p.walks_enterClass _ _ _).weaken
  · split
    · rename_i enclosing forest _
      have hforest : Walks 0 p (p.setForest forest) := .of_still rfl
      exact hforest.after (walks_enterClass _ _ _ _).weaken
    · exact .of_still (still_report _ _ (by decide))

theorem walks_classHead (p : Parser) : Walks 0 p p.classHead := by
  unfold classHead
  split
  · exact p.walks_enterUnnamed.weaken
  · rename_i first _
    have hname := p.walks_advance.after (walks_classNameFrom p.budget first [] p.advance)
    generalize classNameFrom p.budget first [] p.advance = x at hname ⊢
    obtain ⟨⟨name, qualifier⟩, q⟩ := x
    dsimp only at hname ⊢
    split
    · have hbases := hname.after (walks_basesFrom q.budget q.token.isColon "" [] q)
      generalize basesFrom q.budget q.token.isColon "" [] q = y at hbases ⊢
      obtain ⟨ends, bases, r⟩ := y
      cases ends with
      | body => exact hbases.after (r.walks_defineClass name qualifier bases)
      | cancelled => exact hbases.after r.walks_advance.weaken
      | declaration => exact hbases
      | eof => exact hbases
    · split
      · exact hname.after (q.walks_defineClass name qualifier [])
      · exact hname
  · exact .refl p

theorem walks_namespacePath (n : Nat) (names : List String) (p : Parser) :
    Walks 0 p (namespacePath n names p).2 := by
  induction n generalizing names p with
  | zero => exact .refl p
  | succ n ih =>
    have hnext := p.walks_advance
    unfold namespacePath
    split
    · dsimp only
      split
      · split
        · exact (hnext.after p.advance.walks_advance).after (ih _ _)
        · exact hnext.after p.advance.walks_advance.weaken
      · exact hnext.weaken
    · exact .refl p

theorem still_enters (p : Parser) (names : List String) : (names.foldl enter p).still = p.still := by
  induction names generalizing p with
  | nil => rfl
  | cons name names ih => exact ih (p.enter name)

theorem walks_namespaceHead (p : Parser) : Walks 1 p p.namespaceHead := by
  have hnext := p.walks_advance
  unfold namespaceHead
  dsimp only
  split
  · have hpath := hnext.trans (walks_namespacePath p.advance.budget [] p.advance)
    generalize namespacePath p.advance.budget [] p.advance = x at hpath ⊢
    obtain ⟨names, q⟩ := x
    dsimp only at hpath ⊢
    split
    · have hentered : Walks 0 q (names.foldl enter q.pushDepth) := .of_still (still_enters _ names)
      exact hpath.trans (hentered.trans (walks_beginBody _))
    · have htarget := hpath.trans (q.walks_advance.trans q.advance.walks_written)
      split
      · exact htarget
      · exact htarget.trans (Walks.of_still (still_addAlias _ _ _))
    · exact hpath
  · exact hnext.trans p.advance.walks_enterUnnamed
  · exact hnext

theorem walks_usingHead (p : Parser) : Walks 1 p p.usingHead := by
  have hnext := p.walks_advance
  unfold usingHead
  dsimp only
  split
  · have htarget := hnext.trans (p.advance.walks_advance.trans p.advance.advance.walks_written)
    generalize p.advance.advance.written = x at htarget ⊢
    obtain ⟨target, q⟩ := x
    have hstill := q.still_qualifyHere target
    dsimp only at htarget ⊢
    generalize q.qualifyHere target = y at hstill ⊢
    obtain ⟨outcome, r⟩ := y
    cases outcome <;> exact htarget.trans (Walks.of_still hstill)
  · have htarget := hnext.trans p.advance.walks_written
    split
    · exact htarget
    · split
      · exact htarget
      · exact htarget.trans (Walks.of_still (still_addAlias _ _ _))

theorem walks_literals (n : Nat) (p : Parser) : Walks 0 p (literals n p).2 := by
  induction n generalizing p with
  | zero => exact .refl p
  | succ n ih =>
    unfold literals
    dsimp only
    split
    · exact p.walks_advance.after (ih _)
    · exact p.walks_advance.after (ih _)
    · exact .refl p

theorem walks_text? (p : Parser) : Walks 0 p p.text?.2 := walks_literals _ p

theorem walks_textOrNull? (p : Parser) : Walks 0 p p.textOrNull?.2 := by
  have htext := p.walks_text?
  unfold textOrNull?
  generalize p.text? = x at htext ⊢
  obtain ⟨text, q⟩ := x
  cases text with
  | some text => exact htext
  | none =>
    dsimp only at htext ⊢
    split
    · exact htext.after q.walks_advance.weaken
    · exact htext

theorem walks_encoding? (p : Parser) : Walks 0 p p.encoding?.2 := by
  unfold encoding?
  split
  · exact .refl p
  · rename_i word _
    have hclass : Walks 0 p
        (if word ∈ applicationClasses then (p.advance.eat .colonColon).2 else p) := by
      split
      · exact p.walks_advance.after (walks_eat _ _)
      · exact .refl p
    dsimp only
    generalize (if word ∈ applicationClasses then (p.advance.eat .colonColon).2 else p) = q
      at hclass ⊢
    split
    · exact hclass.after q.walks_advance.weaken
    · split
      · exact hclass.after (.of_still (still_report _ _ (by decide)))
      · exact hclass
    · exact hclass

theorem walks_countFrom (n level : Nat) (p : Parser) : Walks 0 p (countFrom n level p).2 := by
  induction n generalizing level p with
  | zero => exact .refl p
  | succ n ih =>
    have hfirst : Walks 0 p (if p.token.ident?.isSome then p.advance else p) := by
      split
      · exact p.walks_advance.weaken
      · exact .refl p
    unfold countFrom
    dsimp only
    generalize p.token.ident?.isSome = isIdent at hfirst ⊢
    generalize (if isIdent then p.advance else p) = q at hfirst ⊢
    have hmore : ∀ level, Walks 0 p (countFrom n level q.advance).2 := fun level ↦
      (hfirst.after q.walks_advance).after (ih _ _)
    split
    · exact hfirst
    · split
      · split
        · exact hfirst
        · exact hmore _
      · split
        · exact (hfirst.after (q.walks_advance.after q.advance.walks_advance)).after (ih _ _)
        · exact hmore _
      · exact hfirst.after (ih _ _)
      · exact hmore _
      · exact hfirst
      · exact hfirst
      · split
        · exact hfirst
        · exact hmore _

theorem walks_count? (p : Parser) : Walks 0 p p.count?.2 := by
  unfold count?
  split
  · exact p.walks_advance.weaken
  · exact walks_countFrom _ _ p

theorem still_resolvePending (p : Parser) : p.resolvePending.still = p.still := by
  unfold resolvePending
  dsimp only
  generalize p.forest.qualifyWritten _ _ _ _ = x
  obtain ⟨outcome, forest⟩ := x
  cases outcome with
  | ok owner => rfl
  | error rest => exact still_report _ _ (by decide)

theorem still_callContext? (p : Parser) : p.callContext?.2.still = p.still := by
  unfold callContext?
  dsimp only
  split
  · generalize p.forest.qualifiedContext _ _ _ = x
    rfl
  · split
    · rfl
    · split
      · exact still_report _ _ (by decide)
      · generalize p.forest.unqualifiedContext _ _ = x
        rfl

theorem walks_commentAndCount (p : Parser) (plural : Bool) :
    Walks 0 p (p.commentAndCount plural).2.2 := by
  have heat := p.walks_eat .comma
  unfold commentAndCount
  generalize p.eat .comma = x at heat ⊢
  obtain ⟨eaten, q⟩ := x
  cases eaten with
  | false => exact heat
  | true =>
    have hcomment := heat.after q.walks_textOrNull?
    dsimp only
    generalize q.textOrNull? = y at hcomment ⊢
    obtain ⟨comment, r⟩ := y
    cases comment with
    | none => exact hcomment
    | some comment => exact hcomment.after (r.walks_eat .comma)


/-- A call of this shape reads on. At its end it may give a message or drop the remarks. -/
inductive Serves (shape : CallShape) (p q : Parser) : Prop
  | silent (h : Walks 0 p q)
  | dropped {r : Parser} (h : Walks 0 p r) (hend : q = r.forgetRemarks)
  | told {r : Parser} {m : Message} (h : Walks 0 p r) (hend : Passage r [.told shape m] q)
      (hspot : q.spot = r.spot)

theorem Serves.after {shape : CallShape} (hpq : Walks k p q) (hqr : Serves shape q r) :
    Serves shape p r := by
  cases hqr with
  | silent h => exact .silent (hpq.after h)
  | dropped h hend => exact .dropped (hpq.after h) hend
  | told h hend hspot => exact .told (hpq.after h) hend hspot

theorem Serves.onward {shape : CallShape} (h : Serves shape p q) : Onward 0 p q := by
  cases h with
  | silent h => exact h.onward
  | dropped h hend =>
    subst hend
    exact h.onward.after (.of_spot rfl)
  | told h _ hspot => exact h.onward.after (.of_spot hspot)

theorem spot_record (p : Parser) (line : Nat) (context text comment : String) (plural : Bool) :
    (p.record line context text comment plural).forgetRemarks.spot = p.spot := rfl

theorem serves_trMessage (p : Parser) (line : Nat) (text : String) (plural : Bool) :
    Serves .tr p (p.trMessage line text plural) := by
  have hread := p.walks_commentAndCount plural
  unfold trMessage
  generalize p.commentAndCount plural = x at hread ⊢
  obtain ⟨comment, plural, q⟩ := x
  dsimp only at hread ⊢
  have hpending : Walks 0 q (if q.pendingMatters then q.resolvePending else q) := by
    split
    · exact .of_still q.still_resolvePending
    · exact .refl q
  generalize (if q.pendingMatters then q.resolvePending else q) = r at hpending ⊢
  have hcontext := (hread.after hpending).after (.of_still r.still_callContext?)
  generalize r.callContext? = y at hcontext ⊢
  obtain ⟨context, v⟩ := y
  cases context with
  | none => exact .silent hcontext
  | some context =>
    refine .told (hcontext.after (.of_still ?_))
      (.told _ line context.text text comment plural (by decide)) (spot_record _ _ _ _ _ _)
    split
    · exact still_report _ _ (by decide)
    · rfl

/-- A report that may be due changes nothing that counts. -/
theorem still_unused (p : Parser) (unused : Prop) [Decidable unused] (message : String) :
    (if unused then p else p.report .ignoredRemark message).still = p.still := by
  split
  · rfl
  · exact p.still_report message (by decide)

theorem serves_trCall (p : Parser) (plural : Bool) : Serves .tr p (p.trCall plural) := by
  have hremark := p.still_unused (p.remarks.sourceText = "")
    "//% cannot be used with tr() / QT_TR_NOOP(). Ignoring"
  unfold trCall
  dsimp only
  generalize (if p.remarks.sourceText = "" then p else _) = q at hremark ⊢
  have htext := (walks_advance_of hremark).after q.advance.walks_text?
  generalize q.advance.text? = x at htext ⊢
  obtain ⟨text, r⟩ := x
  cases text with
  | none => exact .dropped htext rfl
  | some text =>
    dsimp only at htext ⊢
    split
    · exact .dropped htext rfl
    · exact .after htext (serves_trMessage _ _ _ _)

theorem walks_translateArguments (p : Parser) (plural : Bool) :
    Walks 0 p (p.translateArguments plural).2 := by
  unfold translateArguments
  split
  · exact .refl p
  have heat := p.walks_eat .comma
  generalize p.eat .comma = x at heat ⊢
  obtain ⟨eaten, q⟩ := x
  cases eaten with
  | false => exact heat
  | true =>
  have hcomment := heat.after q.walks_textOrNull?
  dsimp only
  generalize q.textOrNull? = x at hcomment ⊢
  obtain ⟨comment, r⟩ := x
  cases comment with
  | none => exact hcomment
  | some comment =>
  dsimp only at hcomment ⊢
  split
  · exact hcomment
  have heat := hcomment.after (r.walks_eat .comma)
  generalize r.eat .comma = x at heat ⊢
  obtain ⟨eaten, v⟩ := x
  cases eaten with
  | false => exact heat
  | true =>
  have hencoding := heat.after v.walks_encoding?
  dsimp only
  generalize v.encoding? = x at hencoding ⊢
  obtain ⟨encoded, w⟩ := x
  cases encoded with
  | true => exact hencoding.after (w.walks_eat .comma)
  | false =>
    have hcount := hencoding.after w.walks_count?
    dsimp only
    generalize w.count? = x at hcount ⊢
    obtain ⟨counted, u⟩ := x
    cases counted with
    | false => exact hcount
    | true =>
      dsimp only at hcount ⊢
      split
      · exact hcount
      · exact hcount

theorem walks_contextAndText? (p : Parser) : Walks 0 p p.contextAndText?.2 := by
  have hcontext := p.walks_text?
  unfold contextAndText?
  generalize p.text? = x at hcontext ⊢
  obtain ⟨context, q⟩ := x
  cases context with
  | none => exact hcontext
  | some context =>
  have heat := hcontext.after (q.walks_eat .comma)
  dsimp only
  generalize q.eat .comma = x at heat ⊢
  obtain ⟨eaten, r⟩ := x
  cases eaten with
  | false => exact heat
  | true =>
    have htext := heat.after r.walks_text?
    dsimp only
    generalize r.text? = x at htext ⊢
    obtain ⟨text, v⟩ := x
    cases text with
    | none => exact htext
    | some text => exact htext

theorem serves_translateCall (p : Parser) (plural : Bool) :
    Serves .translate p (p.translateCall plural) := by
  have hremark := p.still_unused (p.remarks.sourceText = "")
    "//% cannot be used with translate() / QT_TRANSLATE_NOOP(). Ignoring"
  unfold translateCall
  dsimp only
  generalize (if p.remarks.sourceText = "" then p else _) = q at hremark ⊢
  have htext := (walks_advance_of hremark).after q.advance.walks_contextAndText?
  generalize q.advance.contextAndText? = x at htext ⊢
  obtain ⟨text, r⟩ := x
  cases text with
  | none => exact .dropped htext rfl
  | some text =>
    have harguments := htext.after (r.walks_translateArguments plural)
    dsimp only
    generalize r.translateArguments plural = x at harguments ⊢
    obtain ⟨comment, v⟩ := x
    cases comment with
    | none => exact .silent harguments
    | some comment =>
      exact .told harguments (.told _ _ _ _ _ _ (by decide)) (spot_record _ _ _ _ _ _)

theorem serves_trIdCall (p : Parser) (plural : Bool) : Serves .trId p (p.trIdCall plural) := by
  have hremark := p.still_unused (p.remarks.id = "")
    "//= cannot be used with qtTrId() / QT_TRID_NOOP(). Ignoring"
  unfold trIdCall
  dsimp only
  generalize (if p.remarks.id = "" then p else _) = q at hremark ⊢
  have htext := (walks_advance_of hremark).after q.advance.walks_text?
  generalize q.advance.text? = x at htext ⊢
  obtain ⟨id, r⟩ := x
  cases id with
  | none => exact .dropped htext rfl
  | some id =>
    dsimp only at htext ⊢
    split
    · exact .dropped htext rfl
    · have heat := htext.after (r.walks_eat .comma)
      generalize r.eat .comma = x at heat ⊢
      obtain ⟨counted, v⟩ := x
      exact .told heat (.toldById v _ id (plural || counted)) (spot_record _ _ _ _ _ _)

theorem walks_declaredName (n : Nat) (name : String) (p : Parser) :
    Walks 0 p (declaredName n name p).2 := by
  induction n generalizing name p with
  | zero => exact .refl p
  | succ n ih =>
    have hnext := p.walks_advance
    have hlater := hnext.after p.advance.walks_advance.weaken
    unfold declaredName
    dsimp only
    split
    · exact hnext.weaken
    · split
      · exact hlater
      · exact hlater.after (ih _ _)
      · exact hlater

theorem walks_declareCall (p : Parser) : Walks 0 p p.declareCall := by
  have hname := walks_declaredName p.budget "" p
  unfold declareCall
  generalize declaredName p.budget "" p = x at hname ⊢
  obtain ⟨name, q⟩ := x
  cases name with
  | none => exact hname
  | some name => exact hname.after (.of_still rfl)

theorem serves_call (p : Parser) (c : Call) : Serves c.shape p (p.call c) := by
  unfold call
  cases c.shape with
  | declare => exact .silent p.walks_declareCall
  | tr => exact p.serves_trCall _
  | translate => exact p.serves_translateCall _
  | trId => exact p.serves_trIdCall _

/-- The next turn only goes on to the next token. -/
def skips (p : Parser) : Bool := p.depths.bracket > 0 && p.atNamespaceLevel

/-- The next turn ends a statement. -/
def endsStatement (p : Parser) : Bool :=
  !p.skips && (p.token = .semicolon || p.token = .closing .brace)

/-- The call whose name is the current token. -/
def call? (p : Parser) : Option Call := p.token.ident?.bind p.options.calls.lookup

theorem still_promote (p : Parser) : p.promote.still = p.still := by
  unfold promote
  split <;> rfl

theorem walks_onArrow (p : Parser) : Walks 1 p p.onArrow := by
  have hreturn : (if p.atDeclarationLevel then
      { p with statement := { p.statement with trailingReturn := true } } else p).still =
      p.still := by
    split <;> rfl
  unfold onArrow
  dsimp only
  generalize (if p.atDeclarationLevel then
    { p with statement := { p.statement with trailingReturn := true } } else p) = q at hreturn ⊢
  have hnext := walks_advance_of hreturn
  split
  · exact hnext.trans (Walks.of_still (still_report _ _ (by decide)))
  · exact hnext.trans (Walks.of_still (still_report _ _ (by decide)))
  · exact hnext

theorem walks_onColonColon (p : Parser) : Walks 1 p p.onColonColon := by
  unfold onColonColon
  dsimp only
  split
  · exact p.walks_advance
  · apply walks_advance_of
    split <;> rfl

theorem walks_skipAccess (n : Nat) (p : Parser) : Walks 1 p (skipAccess (n + 1) p) := by
  induction n generalizing p with
  | zero =>
    have hnext := p.walks_advance
    unfold skipAccess
    dsimp only
    split
    · exact hnext
    · split
      · exact hnext.trans (walks_advance_of rfl)
      · exact hnext.trans (Walks.of_still rfl)
  | succ n ih =>
    have hnext := p.walks_advance
    unfold skipAccess
    dsimp only
    split
    · exact hnext.trans (ih p.advance)
    · split
      · exact hnext.trans (walks_advance_of rfl)
      · exact hnext.trans (Walks.of_still rfl)

theorem walks_onColonOrEquals (p : Parser) : Walks 1 p p.onColonOrEquals := by
  have hseen : ∀ begins : Bool, (if p.atDeclarationLevel then
      if begins then
        { p.promote with statement := { p.promote.statement with colonSeen := true } }
      else p.promote
      else p).still = p.still := by
    intro begins
    split
    · split
      · exact p.still_promote
      · exact p.still_promote
    · rfl
  exact walks_advance_of (hseen _)

theorem walks_onOpeningBrace (p : Parser) : Walks 1 p p.onOpeningBrace := by
  unfold onOpeningBrace
  dsimp only
  apply walks_advance_of
  split
  · exact p.still_promote
  · rfl

theorem walks_onOpeningParen (p : Parser) : Walks 1 p p.onOpeningParen := by
  unfold onOpeningParen
  dsimp only
  apply walks_advance_of
  split
  · exact p.still_promote
  · rfl

theorem walks_onClosingParen (p : Parser) : Walks 1 p p.onClosingParen := by
  unfold onClosingParen
  dsimp only
  split
  · apply walks_advance_of
    split <;> rfl
  · exact walks_advance_of rfl

theorem walks_skipParens (outer n : Nat) (p : Parser) : Walks 0 p (skipParens outer n p) := by
  induction n generalizing p with
  | zero => exact .refl p
  | succ n ih =>
    unfold skipParens
    split
    · exact .refl p
    · exact p.walks_advance.after (ih p.advance)

theorem walks_onClass (p : Parser) : Walks 1 p p.onClass := by
  unfold onClass
  dsimp only
  split
  · exact p.walks_advance.trans p.advance.walks_classHead
  · exact p.walks_advance


/-- An identifier is the name of a call, or only comments occur. -/
theorem onIdent_cases (p : Parser) (word : String) :
    Walks 1 p (p.onIdent word) ∨ ∃ c q, p.options.calls.lookup word = some c ∧ Walks 1 p q ∧
      p.onIdent word = (q.call c).advance := by
  have hseen : (if p.statement.colonSeen && p.atDeclarationLevel then
      { p with statement := { p.statement with identSeen := true } } else p).still =
      p.still := by
    split <;> rfl
  have hoptions : (if p.statement.colonSeen && p.atDeclarationLevel then
      { p with statement := { p.statement with identSeen := true } } else p).options =
      p.options := by
    split <;> rfl
  unfold onIdent
  dsimp only
  generalize (if p.statement.colonSeen && p.atDeclarationLevel then
    { p with statement := { p.statement with identSeen := true } } else p) = q at hseen hoptions ⊢
  have hnext := walks_advance_of hseen
  have hcalls : q.advance.options = p.options :=
    (of_fixed_eq q.onward_advance.fixed).1.trans hoptions
  split
  · split
    · rename_i c hc
      rw [hcalls] at hc
      exact .inr ⟨c, q.advance, hc, hnext, rfl⟩
    · exact .inl (hnext.trans (.of_still rfl))
  · split
    · exact .inl (hnext.trans (.of_still rfl))
    · exact .inl (hnext.trans (.of_still rfl))

/-- What a turn can do that includes nothing. -/
inductive Does (p q : Parser) : Prop
  | walks (hend : p.endsStatement = false) (h : Walks 1 p q)
  | ends {r : Parser} (hend : p.endsStatement = true) (hstill : r.still = p.still)
      (hleftover : r.leftover = p.leftover) (h : q = r.endStatement)
  | calls {c : Call} {r : Parser} (hend : p.endsStatement = false) (hcall : p.call? = some c)
      (hread : Walks 1 p r) (h : q = (r.call c).advance)

theorem does_turn {includer : Includer} (h : p.include? = none) : Does p (p.turn includer) := by
  have hnext := p.walks_advance
  have hturn : p.turn includer = p.turn fun _ p ↦ p := turn_of_include?_eq_none h
  have honInclude : ∀ written quoted, Walks 1 p (p.onInclude (fun _ p ↦ p) written quoted) := by
    intro written quoted
    unfold onInclude
    split
    · exact hnext
    · exact hnext
  have hplain : Walks 1 p (if p.depths.paren = 0 && !p.statement.trailingReturn then
      p.clearProspective else p).advance := by
    apply walks_advance_of
    split <;> rfl
  rw [hturn]
  by_cases hskip : (p.depths.bracket > 0 && p.atNamespaceLevel) = true
  · rw [turn, if_pos hskip]
    have hskips : p.skips = true := hskip
    exact .walks (by simp [endsStatement, hskips]) hnext
  have hskips : p.skips = false := Bool.eq_false_iff.2 hskip
  have helse (htoken : p.token ≠ .semicolon ∧ p.token ≠ .closing .brace) :
      p.endsStatement = false := by
    simp [endsStatement, htoken]
  rw [turn, if_neg hskip]
  cases htoken : p.token with
  | quotedInclude path => exact .walks (helse (by simp [htoken])) (honInclude _ _)
  | angledInclude path => exact .walks (helse (by simp [htoken])) (honInclude _ _)
  | friendWord => exact .walks (helse (by simp [htoken])) (hnext.trans (walks_eat _ _))
  | classWord => exact .walks (helse (by simp [htoken])) p.walks_onClass
  | namespaceWord => exact .walks (helse (by simp [htoken])) p.walks_namespaceHead
  | usingWord => exact .walks (helse (by simp [htoken])) p.walks_usingHead
  | marker => exact .walks (helse (by simp [htoken])) (walks_advance_of rfl)
  | ident word =>
    rcases p.onIdent_cases word with hwalks | ⟨c, q, hc, hread, hq⟩
    · exact .walks (helse (by simp [htoken])) hwalks
    · refine .calls (helse (by simp [htoken])) ?_ hread hq
      rw [call?, htoken]
      exact hc
  | arrow => exact .walks (helse (by simp [htoken])) p.walks_onArrow
  | colonColon => exact .walks (helse (by simp [htoken])) p.walks_onColonColon
  | closing d =>
    cases d with
    | brace =>
      refine .ends (by simp [endsStatement, hskips, htoken]) ?_ ?_ rfl
      · split <;> rfl
      · split <;> rfl
    | paren => exact .walks (helse (by simp [htoken])) p.walks_onClosingParen
    | bracket => exact .walks (helse (by simp [htoken])) hnext
  | semicolon => exact .ends (by simp [endsStatement, hskips, htoken]) rfl rfl rfl
  | access => exact .walks (helse (by simp [htoken])) (walks_skipAccess _ p)
  | colon ahead => exact .walks (helse (by simp [htoken])) p.walks_onColonOrEquals
  | equals => exact .walks (helse (by simp [htoken])) p.walks_onColonOrEquals
  | opening d =>
    cases d with
    | brace => exact .walks (helse (by simp [htoken])) p.walks_onOpeningBrace
    | paren => exact .walks (helse (by simp [htoken])) p.walks_onOpeningParen
    | bracket => exact .walks (helse (by simp [htoken])) hplain
  | comma => exact .walks (helse (by simp [htoken])) (walks_advance_of rfl)
  | question => exact .walks (helse (by simp [htoken])) (walks_advance_of rfl)
  | decltypeWord =>
    exact .walks (helse (by simp [htoken])) (hnext.trans (walks_skipParens _ _ _))
  | enumWord => exact .walks (helse (by simp [htoken])) (hnext.trans (walks_eat _ _))
  | _ => exact .walks (helse (by simp [htoken])) hplain

theorem spot_swept (p : Parser) : p.swept.spot = p.spot := by
  unfold swept
  dsimp only
  split <;> rfl

theorem Does.onward (h : Does p q) : Onward 1 p q := by
  cases h with
  | walks _ h => exact h.onward
  | ends _ hstill _ h =>
    subst h
    exact onward_advance_of_spot ((spot_swept _).trans (congrArg Prod.fst hstill))
  | @calls c r _ _ hread h =>
    subst h
    exact (hread.onward.trans (r.serves_call c).onward).trans (onward_advance _)

/-- A turn that includes nothing goes past a token. -/
theorem onward_turn {includer : Includer} (h : p.include? = none) :
    Onward 1 p (p.turn includer) :=
  (does_turn h).onward

end Harvest.Parser
