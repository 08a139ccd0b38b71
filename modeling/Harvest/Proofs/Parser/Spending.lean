import Harvest.Proofs.Extract.Stages
import Harvest.Proofs.Source.Runs

/-!
# Remarks are spent once

The occurrences of a whole file, turn by turn of the main loop. Main statement: each message of a
call says what the remarks say that were heard since the last message of a call, the last call that
dropped them and the last end of a statement, less what the description of a context has taken. No
remark goes into two messages, and the end of a statement reports remarks that are left over exactly
once.
-/

namespace Harvest

namespace Parser

variable {includer : Includer} {p q r : Parser} {es es' : List Occurrence}

/-- What can occur in the next turn. -/
inductive Shows (p : Parser) : List Occurrence → Prop
  | silent {es : List Occurrence} (hend : p.endsStatement = false)
      (hes : ∀ e ∈ es, e.isComment = true) : Shows p es
  | ended {es : List Occurrence} (hend : p.endsStatement = true)
      (hes : ∀ e ∈ es, e.isComment = true) : Shows p (.ended p.leftover :: es)
  | called {es es' : List Occurrence} {e : Occurrence} {c : Call} (hend : p.endsStatement = false)
      (hcall : p.call? = some c) (he : e = .dropped ∨ ∃ m, e = .told c.shape m)
      (hes : ∀ e ∈ es ++ es', e.isComment = true) : Shows p (es ++ e :: es')
  | included {es : List Occurrence} {ms : List Message} {ds : List Diagnostic}
      (hend : p.endsStatement = false) (hinclude : p.include?.isSome = true)
      (hes : ∀ e ∈ es, e.isComment = true) : Shows p (.included ms ds :: es)

/-- What occurs in the next turn. -/
structure Turn (includer : Includer) (p : Parser) (es : List Occurrence) : Prop where
  passage : Passage p es (p.turn includer)
  shows : p.Shows es

/-- The second parser comes from the first by an include. -/
structure Includes (p q : Parser) (ms : List Message) (ds : List Diagnostic) : Prop where
  frame : q.frame = p.frame
  token : q.token = p.token
  rest : q.rest = p.rest
  remarks : q.remarks = p.remarks
  messages : q.messages.toList = p.messages.toList ++ ms
  discards : q.discards = p.discards ++ ds

theorem Includes.passage {ms : List Message} {ds : List Diagnostic} (h : Includes p q ms ds) :
    Passage p [.included ms ds] q := by
  have hframe := h.frame
  simp only [Parser.frame, Prod.mk.injEq] at hframe
  exact .included (by rw [hframe.2.2.2.2.2.1, h.rest]) h.remarks h.messages h.discards

/-- Includes are followed in such a way that the includer keeps its place and its remarks. -/
def Minds (includer : Includer) : Prop :=
  ∀ found p, ∃ ms ds, Includes p (includer found p) ms ds

/-- What occurs in a turn that includes nothing. -/
theorem Does.exists_turn (h : Does p (p.turn includer)) : ∃ es, Turn includer p es := by
  cases h with
  | walks hend h =>
    obtain ⟨es, hpassage, hes⟩ := h.listens
    exact ⟨es, hpassage, .silent hend hes⟩
  | @ends r hend hstill hleftover h =>
    have hcomments := r.swept.isComment_hearsAll r.swept.nextNotes
    refine ⟨.ended p.leftover :: _, ?_, .ended hend hcomments⟩
    rw [h, endStatement_eq, ← hleftover]
    exact .trans (.idle (congrArg Prod.snd hstill)) (.trans (.ended r) (.advance r.swept))
  | @calls c r hend hcall hread h =>
    obtain ⟨es, hes, hcomments⟩ := (r.call c).listens_advance
    rw [← h] at hes
    -- a call that is abandoned keeps the remarks for the next one
    cases r.serves_call c with
    | silent hserved =>
      obtain ⟨es', hes', hcomments'⟩ :=
        hread.listens.trans (hserved.listens.trans ⟨es, hes, hcomments⟩)
      exact ⟨es', hes', .silent hend hcomments'⟩
    | dropped hserved hdropped =>
      obtain ⟨es', hes', hcomments'⟩ := hread.listens.trans hserved.listens
      refine ⟨es' ++ .dropped :: es, hes'.trans (.trans (.dropped _) (hdropped ▸ hes)), ?_⟩
      exact .called hend hcall (.inl rfl) (List.forall_mem_append.2 ⟨hcomments', hcomments⟩)
    | told hserved htold _ =>
      obtain ⟨es', hes', hcomments'⟩ := hread.listens.trans hserved.listens
      refine ⟨es' ++ .told c.shape _ :: es, hes'.trans (.trans htold hes), ?_⟩
      exact .called hend hcall (.inr ⟨_, rfl⟩) (List.forall_mem_append.2 ⟨hcomments', hcomments⟩)

theorem endsStatement_of_include? {found : Path} (h : p.include? = some found) :
    p.endsStatement = false := by
  unfold include? at h
  split at h
  · cases h
  · cases htoken : p.token with
    | quotedInclude path => simp [endsStatement, htoken]
    | angledInclude path => simp [endsStatement, htoken]
    | _ =>
      rw [htoken] at h
      cases h

/-- Every turn is accounted for. -/
theorem exists_turn (hminds : Minds includer) (p : Parser) : ∃ es, Turn includer p es := by
  cases hinclude : p.include? with
  | none => exact (does_turn hinclude).exists_turn
  | some found =>
    obtain ⟨ms, ds, hincludes⟩ := hminds found p
    obtain ⟨es, hes, hcomments⟩ := (includer found p).listens_advance
    refine ⟨.included ms ds :: es, ?_, ?_⟩
    · rw [turn_of_include?_eq_some hinclude]
      exact hincludes.passage.trans hes
    · exact .included (endsStatement_of_include? hinclude) (by rw [hinclude]; rfl) hcomments

/-- What occurs from here to the end of the file. -/
inductive Chronicle (includer : Includer) : Parser → List Occurrence → Parser → Prop
  | finished {p : Parser} (hend : p.token = .eof) :
      Chronicle includer p (p.hearsAll p.trailing) p.finish
  | turn {p q : Parser} {es es' : List Occurrence} (htoken : p.token ≠ .eof)
      (hturn : Turn includer p es) (hlater : Chronicle includer (p.turn includer) es' q) :
      Chronicle includer p (es ++ es') q

theorem Chronicle.accounts (h : Chronicle includer p es q) : Accounts p es q := by
  induction h with
  | finished _ => exact accounts_notes _ _
  | turn _ hturn _ ih => exact hturn.passage.accounts.trans ih

/-- Comments that are heard are comments of the text, in its order. -/
theorem Chronicle.accepted (h : Chronicle includer p es q) :
    (es.flatMap Occurrence.accepted).Sublist (p.upcoming.flatMap Note.remarks) := by
  induction h with
  | @finished p _ =>
    rw [upcoming, List.flatMap_append]
    exact (p.accepted_hearsAll p.trailing).trans (List.sublist_append_right _ _)
  | turn _ hturn _ ih =>
    rw [List.flatMap_append]
    exact (ih.append_left _).trans hturn.passage.upcoming.1

theorem Chronicle.discards (h : Chronicle includer p es q)
    (hcalm : ∀ n ∈ p.upcoming, n.discards = false) :
    q.discards = p.discards ++ es.flatMap Occurrence.complaints := by
  induction h with
  | @finished p _ =>
    rw [complaints_of_isComment (p.isComment_hearsAll p.trailing), List.append_nil]
    exact discards_notes (fun n hn ↦ hcalm n (List.mem_append_right _ hn)) p
  | turn _ hturn _ ih =>
    rw [ih fun n hn ↦ hcalm n (hturn.passage.upcoming.2.subset hn), hturn.passage.discards hcalm,
      List.flatMap_append, List.append_assoc]

/-- Every turn goes past a token, whether it includes something or not. -/
theorem progress_turn (hminds : Minds includer) (hends : p.Ends) (htoken : p.token ≠ .eof) :
    (p.turn includer).Ends ∧ (p.turn includer).rest.length < p.rest.length := by
  cases hinclude : p.include? with
  | none =>
    have honward : Onward 1 p (p.turn includer) := onward_turn hinclude
    exact ⟨honward.ends hends, honward.lt hends htoken⟩
  | some found =>
    -- an include takes no token of this file, the step past it does
    obtain ⟨ms, ds, hincludes⟩ := hminds found p
    have hback : (includer found p).Ends := by rwa [Ends, hincludes.rest, hincludes.token]
    have honward := (includer found p).onward_advance
    rw [turn_of_include?_eq_some hinclude, ← hincludes.rest]
    exact ⟨honward.ends hback, honward.lt hback (hincludes.token ▸ htoken)⟩

/-- The tokens run out, so that the main loop reaches the end of the file. -/
theorem exists_chronicle (hminds : Minds includer) {n : Nat} (hends : p.Ends)
    (hn : p.rest.length < n) : ∃ es, Chronicle includer p es (loop includer n p).finish := by
  induction n generalizing p with
  | zero => cases hn
  | succ n ih =>
    rw [loop]
    split
    · exact ⟨_, .finished ‹_›⟩
    · rename_i htoken
      obtain ⟨es, hturn⟩ := exists_turn hminds p
      obtain ⟨hends', hless⟩ := progress_turn hminds hends htoken
      obtain ⟨es', hlater⟩ := ih hends' (by omega)
      exact ⟨es ++ es', .turn htoken hturn hlater⟩

end Parser

namespace Nesting

theorem discards_unbalanced (n : Nesting) : ∀ note ∈ n.unbalanced, note.discards = false := by
  unfold unbalanced
  dsimp only
  split_ifs <;> simp [Note.discards]

theorem remarks_unbalanced (n : Nesting) : n.unbalanced.flatMap Note.remarks = [] := by
  unfold unbalanced
  dsimp only
  split_ifs <;> rfl

theorem discards_directive (n : Nesting) (d : Directive) (line : Nat) :
    ∀ note ∈ (n.directive d line).2, note.discards = false := by
  cases d with
  | alternative =>
    unfold directive alternative
    dsimp only
    split
    · simp
    · split
      · simp [Note.discards]
      · dsimp only
        split_ifs <;> simp [Note.discards]
  | conditionalEnd =>
    unfold directive endConditional
    dsimp only
    split
    · simp
    · split
      · simp
      · dsimp only
        split_ifs <;> simp [Note.discards]
  | _ => simp [directive, Note.discards]

/-- Reading a text complains about the text, never about remarks. -/
theorem discards_step (n : Nesting) (x : Lexeme) :
    ∀ note ∈ (n.step x).notes, note.discards = false := by
  have hfault : ∀ note ∈ x.faultNotes, note.discards = false := by
    unfold Lexeme.faultNotes
    cases x.fault with
    | none => simp
    | some f => cases f <;> simp [Note.discards, Fault.kind]
  unfold step
  dsimp only
  split
  · exact hfault
  · unfold endLine
    split <;> simp [Note.discards]
  · exact hfault
  · simp [openDelimiter]
  · rename_i d _
    unfold closeDelimiter
    cases d <;> dsimp only <;> split_ifs <;> simp [Note.discards]
  · exact List.forall_mem_append.2 ⟨hfault, by simp [Note.discards]⟩
  · exact List.forall_mem_append.2 ⟨n.discards_directive _ _, hfault⟩

theorem discards_notesOf (n : Nesting) (xs : List Lexeme) :
    ∀ note ∈ n.notesOf xs, note.discards = false := by
  induction xs generalizing n with
  | nil => simp [notesOf]
  | cons x xs ih => exact List.forall_mem_append.2 ⟨n.discards_step x, ih _⟩

end Nesting

namespace Parser

variable {includer : Includer} {p q : Parser} {es : List Occurrence} {source : String}

/-- The whole text is still to be read. -/
structure Begins (p : Parser) (source : String) : Prop where
  rest : p.rest = (Stream.ofText source).items
  trailing : p.trailing = (Stream.ofText source).trailing

theorem Begins.ends (h : p.Begins source) : p.Ends := by
  rw [Ends, h.rest]
  exact Nesting.getLastD_items _ _ _ _ _

theorem Begins.upcoming (h : p.Begins source) :
    p.upcoming = Stream.notes source ++ (Stream.ofText source).trailing := by
  rw [Parser.upcoming, h.rest, h.trailing]
  rfl

theorem Begins.discards (h : p.Begins source) : ∀ n ∈ p.upcoming, n.discards = false := by
  rw [h.upcoming, Stream.notes_eq]
  exact List.forall_mem_append.2
    ⟨Nesting.discards_notesOf _ _, Nesting.discards_unbalanced _⟩

theorem Begins.remarks (h : p.Begins source) :
    p.upcoming.flatMap Note.remarks = (Stream.notes source).flatMap Note.remarks := by
  have htrailing : (Stream.ofText source).trailing.flatMap Note.remarks = [] :=
    Nesting.remarks_unbalanced _
  rw [h.upcoming, List.flatMap_append, htrailing, List.append_nil]

/-- What occurs in a whole file, up to the parser `q` that has read it. -/
def Recounts (includer : Includer) (p : Parser) (es : List Occurrence) (q : Parser) : Prop :=
  ∃ es', es = p.ready.hearsAll p.ready.nextNotes ++ es' ∧ Chronicle includer p.begin es' q

theorem passage_begin (p : Parser) : Passage p (p.ready.hearsAll p.ready.nextNotes) p.begin := by
  have hready : Passage p [] p.ready := .idle rfl
  exact hready.trans (.advance p.ready)

theorem exists_recounts (hminds : Minds includer) (h : p.Begins source) :
    ∃ es, p.Recounts includer es (p.run includer) := by
  obtain ⟨es, hes⟩ := exists_chronicle hminds (p.onward_begin.ends h.ends)
    (Nat.lt_succ_self p.begin.rest.length)
  exact ⟨_, es, rfl, hes⟩

namespace Recounts

theorem accounts (h : p.Recounts includer es q) : Accounts p es q := by
  obtain ⟨es', rfl, hes'⟩ := h
  exact p.passage_begin.accounts.trans hes'.accounts

theorem accepted (h : p.Recounts includer es q) (hbegins : p.Begins source) :
    (es.flatMap Occurrence.accepted).Sublist ((Stream.notes source).flatMap Note.remarks) := by
  obtain ⟨es', rfl, hes'⟩ := h
  rw [List.flatMap_append, ← hbegins.remarks]
  exact (hes'.accepted.append_left _).trans p.passage_begin.upcoming.1

theorem discards (h : p.Recounts includer es q) (hbegins : p.Begins source) :
    q.discards = p.discards ++ es.flatMap Occurrence.complaints := by
  obtain ⟨es', rfl, hes'⟩ := h
  have hcalm : ∀ n ∈ p.begin.upcoming, n.discards = false := fun n hn ↦
    hbegins.discards n (p.passage_begin.upcoming.2.subset hn)
  rw [hes'.discards hcalm, p.passage_begin.discards hbegins.discards, List.flatMap_append,
    List.append_assoc]

end Recounts

/-- Reading a text only adds messages and complaints. -/
def Grows (parse : Parser → Parser) : Prop :=
  ∀ {p : Parser} {source : String}, p.Begins source →
    ∃ ms ds, (parse p).messages.toList = p.messages.toList ++ ms ∧
      (parse p).discards = p.discards ++ ds

theorem minds_followInclude {parse : Parser → Parser} (h : Grows parse) :
    Minds (followInclude parse) := by
  intro found p
  obtain ⟨hframe, htoken, hrest⟩ := place_followInclude parse found p
  have hquiet {q : Parser} (hq : followInclude parse found p = q) (hremarks : q.remarks = p.remarks)
      (hmessages : q.messages = p.messages) (hdiscards : q.discards = p.discards) :
      ∃ ms ds, Includes p (followInclude parse found p) ms ds := by
    subst hq
    exact ⟨[], [], hframe, htoken, hrest, hremarks, by rw [hmessages, List.append_nil],
      by rw [hdiscards, List.append_nil]⟩
  have hway := followInclude_eq parse found p
  generalize p.way found.clean = way at hway
  cases way with
  | alone source =>
    obtain ⟨ms, ds, -, hdiscards⟩ := @h (aloneAt p.options p.files found.clean source
      (p.stack ++ [found.clean]) p.session) source ⟨rfl, rfl⟩
    refine ⟨[], ds, hframe, htoken, hrest, ?_, ?_, ?_⟩
    · rw [hway]
      rfl
    · rw [hway]
      exact (List.append_nil _).symm
    · rw [hway]
      exact hdiscards
  | inPlace source =>
    obtain ⟨ms, ds, hmessages, hdiscards⟩ := @h (p.inPlaceAt found.clean source) source ⟨rfl, rfl⟩
    refine ⟨ms, ds, hframe, htoken, hrest, ?_, ?_, ?_⟩
    · rw [hway]
      rfl
    · rw [hway]
      exact hmessages
    · rw [hway]
      exact hdiscards
  | unreadable e =>
    exact hquiet hway rfl rfl (p.discards_reportAt _ _ (by decide))
  | skip =>
    exact hquiet hway rfl rfl rfl
  | cycle paths =>
    exact hquiet hway rfl rfl rfl
  | known trees =>
    exact hquiet hway rfl rfl rfl

/-- How includes are followed within `depth` levels. -/
def includerAt : Nat → Includer
  | 0 => fun _ p ↦ p
  | depth + 1 => followInclude (parse depth)

theorem parse_eq (depth : Nat) (p : Parser) : parse depth p = p.run (includerAt depth) := by
  cases depth <;> rfl

theorem minds_includerAt (depth : Nat) : Minds (includerAt depth) := by
  induction depth with
  | zero =>
    intro found p
    exact ⟨[], [], rfl, rfl, rfl, rfl, (List.append_nil _).symm, (List.append_nil _).symm⟩
  | succ depth ih =>
    -- an included file is a whole file, read with the includer of one level less
    apply minds_followInclude
    intro p source hbegins
    obtain ⟨es, hes⟩ := exists_recounts ih hbegins
    rw [parse_eq]
    exact ⟨_, _, hes.accounts.messages, hes.discards hbegins⟩

/-- Remarks are used once at most and never outlive a statement. However a file is read, its
occurrences are those of the turns of the main loop. Each message says what the remarks say that are
held at it, which are dropped at the end of a statement and by every message of a call; the end of a
statement complains about remarks exactly if some are held that say something. No comment goes into
two messages. There are no messages but these, and no complaints of this kind. -/
theorem parse_spends (depth : Nat) (options : Options) (files : FileTree) (file : Path)
    (source : String) (inPlace : Bool) (stack : List Path) (tree : Nat) (messages : Array Message)
    (session : Session) (snapshot : Snapshot) :
    let p := (start options files file source inPlace stack tree messages session).setSnapshot
      snapshot
    ∃ es, p.Recounts (includerAt depth) es (parse depth p) ∧
      (∀ before e later, es = before ++ e :: later → e.Accords (Occurrence.held before)) ∧
      (Occurrence.spent [] es).Subperm (es.flatMap Occurrence.accepted) ∧
      (es.flatMap Occurrence.accepted).Sublist ((Stream.notes source).flatMap Note.remarks) ∧
      (parse depth p).messages.toList = messages.toList ++ es.flatMap Occurrence.messages ∧
      (parse depth p).discards = p.discards ++ es.flatMap Occurrence.complaints := by
  intro p
  have hbegins : p.Begins source := ⟨rfl, rfl⟩
  obtain ⟨es, hes⟩ := exists_recounts (minds_includerAt depth) hbegins
  rw [← parse_eq] at hes
  refine ⟨es, hes, ?_, Occurrence.spent_subperm [] es, hes.accepted hbegins, hes.accounts.messages,
    hes.discards hbegins⟩
  rintro before e later rfl
  have haccords := (hes.accounts.accords [] rfl).1
  rw [Occurrence.accordAll_append] at haccords
  exact haccords.2.1

end Parser

end Harvest
