import Harvest.Proofs.Occurrence
import Harvest.Proofs.Parser.Progress

/-!
# What a parser does with remarks

Remarks come up wherever a parser goes on to another token, in the middle of a call or of a class
head too. This module follows them through all that a turn of the main loop can do. Everything is
made up of few moves: going on to the next token, the message of a call, a call without a message,
the end of a statement, and an include. Each has its occurrences, and all else leaves remarks and
messages alone.
-/

namespace Harvest

/-- A complaint about remarks that nothing has used. -/
def Note.discards : Note → Bool
  | .problem _ .discardedMetaData _ => true
  | _ => false

namespace Parser

variable {p q r : Parser} {es es' : List Occurrence}

/-- The complaints about remarks that nothing has used. -/
def discards (p : Parser) : List Diagnostic :=
  p.session.diagnostics.toList.filter fun d ↦ d.kind = .discardedMetaData

/-- What counts for remarks. -/
def attention (p : Parser) := (p.trailing, p.rest, p.remarks, p.messages, p.discards)

theorem attention_eq_iff {trailing : List Note} {rest : List Item} {remarks : Remarks}
    {messages : Array Message} {discards : List Diagnostic} :
    p.attention = (trailing, rest, remarks, messages, discards) ↔
      p.trailing = trailing ∧ p.rest = rest ∧ p.remarks = remarks ∧ p.messages = messages ∧
        p.discards = discards := by
  simp only [attention, Prod.mk.injEq]

/-- The message of a comment that describes a context. -/
def contextMessage (p : Parser) (context comment : String) (line : Nat) : Message where
  context := Text.Escape.decode context
  sourceText := ""
  comment := Text.Escape.decode comment
  extraComment := shownComment p.remarks.extraComment
  id := ""
  extras := p.remarks.extras
  plural := false
  kind := .contextComment
  file := p.file.text
  line

/-- What a comment is, if it is a remark. -/
def occurrenceOf (p : Parser) (line : Nat) : Remark → Occurrence
  | .translator context comment =>
    .described context comment (p.contextMessage context comment line)
  | r => .heard r

/-- What a note is for remarks. -/
def hears (p : Parser) : Note → List Occurrence
  | .comment body line =>
    if p.remarksExpected then ((Remark.parse? body).map (p.occurrenceOf line)).toList else []
  | _ => []

def hearsAll (p : Parser) : List Note → List Occurrence
  | [] => []
  | n :: ns => p.hears n ++ (p.note n).hearsAll ns

/-- The notes before the next token. -/
def nextNotes (p : Parser) : List Note := (p.rest.head?.map Item.notes).getD []

/-- The message of a call. -/
def callMessage (p : Parser) (line : Nat) (context text comment : String) (plural : Bool) :
    Message where
  context
  sourceText := text
  comment
  extraComment := shownComment p.remarks.extraComment
  id := p.remarks.id
  extras := p.remarks.extras
  plural
  kind := .translation
  file := p.file.text
  line

/-- The call names its message itself. -/
def withId (p : Parser) (id : String) : Parser := { p with remarks := { p.remarks with id } }

/-- The complaints at the end of a statement. -/
def leftover (p : Parser) : List Diagnostic :=
  if p.remarks.isEmpty then []
  else [⟨p.file.text, p.line, .discardedMetaData, "Discarding unconsumed meta data"⟩]

/-- The end of a statement, before the next token. -/
def swept (p : Parser) : Parser :=
  let p := { p with prospective := "", statement := { p.statement with trailingReturn := false } }
  let p := p.clearQualifier
  let p :=
    if p.remarks.isEmpty then p
    else { p.report .discardedMetaData "Discarding unconsumed meta data" with remarks := {} }
  p.expectRemarks true

theorem endStatement_eq (p : Parser) : p.endStatement = p.swept.advance := rfl

/-- The parser comes from one place to another with these occurrences. -/
inductive Passage : Parser → List Occurrence → Parser → Prop
  | idle {p q : Parser} (h : q.attention = p.attention) : Passage p [] q
  | advance (p : Parser) : Passage p (p.hearsAll p.nextNotes) p.advance
  | told (p : Parser) (line : Nat) (context text comment : String) (plural : Bool)
      {shape : CallShape} (hshape : shape ≠ .trId) :
      Passage p [.told shape (p.callMessage line context text comment plural)]
        (p.record line context text comment plural).forgetRemarks
  | toldById (p : Parser) (line : Nat) (id : String) (plural : Bool) :
      Passage p [.told .trId ((p.withId id).callMessage line ""
          (Text.Escape.decode p.remarks.sourceText) "" plural)]
        ((p.withId id).record line "" (Text.Escape.decode p.remarks.sourceText) ""
          plural).forgetRemarks
  | dropped (p : Parser) : Passage p [.dropped] p.forgetRemarks
  | ended (p : Parser) : Passage p [.ended p.leftover] p.swept
  | included {p q : Parser} {ms : List Message} {ds : List Diagnostic}
      (hahead : (q.trailing, q.rest) = (p.trailing, p.rest)) (hremarks : q.remarks = p.remarks)
      (hmessages : q.messages.toList = p.messages.toList ++ ms)
      (hdiscards : q.discards = p.discards ++ ds) : Passage p [.included ms ds] q
  | trans {p q r : Parser} {es es' : List Occurrence} (hpq : Passage p es q)
      (hqr : Passage q es' r) : Passage p (es ++ es') r

theorem discards_reportAt (p : Parser) (line : Nat) {kind : DiagnosticKind} (message : String)
    (hkind : kind ≠ .discardedMetaData) : (p.reportAt line kind message).discards = p.discards := by
  simp [discards, reportAt, hkind]

theorem attention_reportAt (p : Parser) (line : Nat) {kind : DiagnosticKind} (message : String)
    (hkind : kind ≠ .discardedMetaData) :
    (p.reportAt line kind message).attention = p.attention := by
  rw [attention, discards_reportAt p line message hkind]
  rfl

theorem attention_faults (p : Parser) (line : Nat) (faults : List QuoteFault) :
    (faults.foldl (fun p fault ↦ p.reportAt line fault.kind fault.message) p).attention =
      p.attention := by
  induction faults generalizing p with
  | nil => rfl
  | cons fault faults ih =>
    exact (ih _).trans (p.attention_reportAt line _ (by cases fault <;> decide))

/-- What one remark changes. -/
theorem attention_remark (p : Parser) (line : Nat) (r : Remark) :
    (p.remark line r).attention = (p.trailing, p.rest, p.remarks.hear r,
      p.messages ++ (p.occurrenceOf line r).messages.toArray, p.discards) := by
  cases r with
  | sourceText text faults =>
    refine (attention_faults _ line faults).trans ?_
    simp [attention, occurrenceOf, Occurrence.messages, Remarks.hear, discards]
  | translator context comment =>
    simp [attention, occurrenceOf, Occurrence.messages, Remarks.hear, discards, remark,
      contextRemark, addMessage, contextMessage]
  | _ => simp [attention, occurrenceOf, Occurrence.messages, Remarks.hear, discards, remark]

/-- A remark accords with what is held, and is what is held afterwards. -/
theorem accords_occurrenceOf {rs : List Remark} (hrs : p.remarks = .of rs) (line : Nat)
    (r : Remark) :
    (p.occurrenceOf line r).Accords rs ∧
      p.remarks.hear r = .of ((p.occurrenceOf line r).kept rs) := by
  rw [hrs]
  cases r with
  | translator context comment =>
    obtain ⟨hextraComment, hextras⟩ := Remarks.of_filter_describes rs
    refine ⟨⟨rfl, rfl, rfl, rfl, rfl, ?_, ?_⟩, (Remarks.of_filter_not_describes rs).symm⟩
    · rw [hextraComment, ← hrs]
      rfl
    · rw [hextras, ← hrs]
      rfl
  | _ => exact ⟨by simp [occurrenceOf, Occurrence.Accords], (Remarks.of_concat rs (by simp)).symm⟩

end Parser

/-- The remark that a comment is, if it is one. -/
def Note.remarks : Note → List Remark
  | .comment body _ => (Remark.parse? body).toList
  | _ => []

namespace Parser

/-- A note is heard as a remark, or it leaves everything alone that counts. -/
theorem note_cases (p : Parser) (n : Note) :
    (∃ line r, n.remarks = [r] ∧ p.hears n = [p.occurrenceOf line r] ∧ p.note n = p.remark line r) ∨
      p.hears n = [] ∧ (n.discards = false → (p.note n).attention = p.attention) ∧
        (p.note n).remarks = p.remarks ∧ (p.note n).messages = p.messages := by
  cases n with
  | comment body line =>
    unfold note hears
    dsimp only
    cases p.remarksExpected with
    | false => exact .inr ⟨rfl, fun _ ↦ rfl, rfl, rfl⟩
    | true =>
      cases hparse : Remark.parse? body with
      | none => exact .inr ⟨rfl, fun _ ↦ rfl, rfl, rfl⟩
      | some r => exact .inl ⟨line, r, by simp [Note.remarks, hparse], rfl, rfl⟩
  | problem line kind message =>
    refine .inr ⟨rfl, fun hkind ↦ p.attention_reportAt line message ?_, rfl, rfl⟩
    rintro rfl
    cases hkind
  | _ => exact .inr ⟨rfl, fun _ ↦ rfl, rfl, rfl⟩

/-- The occurrences account for the remarks and for the messages of the second parser. -/
structure Accounts (p : Parser) (es : List Occurrence) (q : Parser) : Prop where
  accords : ∀ rs, p.remarks = .of rs →
    Occurrence.AccordAll rs es ∧ q.remarks = .of (es.foldl Occurrence.kept rs)
  messages : q.messages.toList = p.messages.toList ++ es.flatMap Occurrence.messages

variable {p q r : Parser} {es es' : List Occurrence}

theorem Accounts.trans (hpq : Accounts p es q) (hqr : Accounts q es' r) :
    Accounts p (es ++ es') r := by
  refine ⟨fun rs hrs ↦ ?_, ?_⟩
  · obtain ⟨haccords, hq⟩ := hpq.accords rs hrs
    obtain ⟨haccords', hr⟩ := hqr.accords _ hq
    rw [Occurrence.accordAll_append, List.foldl_append]
    exact ⟨⟨haccords, haccords'⟩, hr⟩
  · rw [hqr.messages, hpq.messages, List.flatMap_append, List.append_assoc]

/-- A single occurrence accounts for what it changes. -/
theorem Accounts.of_accords {e : Occurrence}
    (haccords : ∀ rs, p.remarks = .of rs → e.Accords rs ∧ q.remarks = .of (e.kept rs))
    (hmessages : q.messages.toList = p.messages.toList ++ e.messages) : Accounts p [e] q := by
  refine ⟨fun rs hrs ↦ ?_, by simpa using hmessages⟩
  obtain ⟨he, hq⟩ := haccords rs hrs
  exact ⟨⟨he, trivial⟩, hq⟩

theorem Accounts.of_eq (hremarks : q.remarks = p.remarks) (hmessages : q.messages = p.messages) :
    Accounts p [] q :=
  ⟨fun _ hrs ↦ ⟨trivial, hremarks.trans hrs⟩, by rw [hmessages]; exact (List.append_nil _).symm⟩

theorem accounts_note (p : Parser) (n : Note) : Accounts p (p.hears n) (p.note n) := by
  rcases p.note_cases n with ⟨line, r, -, hhears, hnote⟩ | ⟨hhears, -, hremarks, hmessages⟩
  · obtain ⟨-, -, hremarks, hmessages, -⟩ := attention_eq_iff.1 (p.attention_remark line r)
    rw [hhears, hnote]
    refine .of_accords (fun rs hrs ↦ ?_) (by simp [hmessages])
    rw [hremarks]
    exact accords_occurrenceOf hrs line r
  · rw [hhears]
    exact .of_eq hremarks hmessages

theorem accounts_notes (p : Parser) (ns : List Note) :
    Accounts p (p.hearsAll ns) (ns.foldl note p) := by
  induction ns generalizing p with
  | nil => exact .of_eq rfl rfl
  | cons n ns ih => exact (p.accounts_note n).trans (ih (p.note n))

/-- Comments that are heard are comments of the text. -/
theorem accepted_hearsAll (p : Parser) (ns : List Note) :
    ((p.hearsAll ns).flatMap Occurrence.accepted).Sublist (ns.flatMap Note.remarks) := by
  induction ns generalizing p with
  | nil => exact List.Sublist.refl []
  | cons n ns ih =>
    have hfirst : ((p.hears n).flatMap Occurrence.accepted).Sublist n.remarks := by
      rcases p.note_cases n with ⟨line, r, hr, hhears, -⟩ | ⟨hhears, -⟩
      · rw [hhears, hr]
        cases r <;> exact List.Sublist.refl _
      · rw [hhears]
        exact List.nil_sublist _
    rw [hearsAll, List.flatMap_append]
    exact hfirst.append (ih (p.note n))

theorem isComment_hearsAll (p : Parser) (ns : List Note) :
    ∀ e ∈ p.hearsAll ns, e.isComment = true := by
  induction ns generalizing p with
  | nil => simp [hearsAll]
  | cons n ns ih =>
    have hfirst : ∀ e ∈ p.hears n, e.isComment = true := by
      rcases p.note_cases n with ⟨line, r, -, hhears, -⟩ | ⟨hhears, -⟩
      · rw [hhears, List.forall_mem_singleton]
        cases r <;> rfl
      · simp [hhears]
    rw [hearsAll, List.forall_mem_append]
    exact ⟨hfirst, ih (p.note n)⟩

/-- Comments are no complaints. -/
theorem complaints_of_isComment (hes : ∀ e ∈ es, e.isComment = true) :
    es.flatMap Occurrence.complaints = [] := by
  rw [List.flatMap_eq_nil_iff]
  intro e he
  have hcomment := hes e he
  cases e with
  | ended ds => cases hcomment
  | included ms ds => cases hcomment
  | _ => rfl

theorem discards_notes {ns : List Note} (hns : ∀ n ∈ ns, n.discards = false) (p : Parser) :
    (ns.foldl note p).discards = p.discards := by
  induction ns generalizing p with
  | nil => rfl
  | cons n ns ih =>
    obtain ⟨hn, hns⟩ := List.forall_mem_cons.1 hns
    have hfirst : (p.note n).discards = p.discards := by
      rcases p.note_cases n with ⟨line, r, -, -, hnote⟩ | ⟨-, hattention, -⟩
      · obtain ⟨-, -, -, -, hdiscards⟩ := attention_eq_iff.1 (p.attention_remark line r)
        rw [hnote]
        exact hdiscards
      · obtain ⟨-, -, -, -, hdiscards⟩ := attention_eq_iff.1 (hattention hn)
        exact hdiscards
    exact (ih hns (p.note n)).trans hfirst

/-- The notes that are still to come. -/
def upcoming (p : Parser) : List Note := p.rest.flatMap Item.notes ++ p.trailing

theorem upcoming_eq (p : Parser) : p.upcoming = p.nextNotes ++ p.advance.upcoming := by
  unfold upcoming nextNotes advance
  cases hrest : p.rest with
  | nil => simp
  | cons item rest =>
    have hnotes := p.spot_notes item.notes
    simp only [spot, fixed, Prod.mk.injEq] at hnotes
    simp [hnotes]

/-- Notes that stay ahead. -/
theorem upcoming_congr (h : (q.trailing, q.rest) = (p.trailing, p.rest)) :
    q.upcoming = p.upcoming := by
  simp only [Prod.mk.injEq] at h
  rw [upcoming, upcoming, h.1, h.2]

/-- Nothing is held after the end of a statement. -/
theorem attention_swept (p : Parser) :
    p.swept.attention = (p.trailing, p.rest, {}, p.messages, p.discards ++ p.leftover) := by
  unfold swept leftover
  dsimp only
  split
  · have hempty : p.remarks.isEmpty = true := ‹_›
    rw [if_pos hempty, List.append_nil, ← Remarks.eq_of_isEmpty hempty]
    rfl
  · have hempty : ¬ p.remarks.isEmpty = true := ‹_›
    rw [if_neg hempty]
    simp [attention, discards, expectRemarks, report, reportAt, clearQualifier]

theorem accounts_swept (p : Parser) : Accounts p [.ended p.leftover] p.swept := by
  obtain ⟨-, -, hremarks, hmessages, -⟩ := attention_eq_iff.1 p.attention_swept
  refine .of_accords (fun rs hrs ↦ ⟨?_, hremarks⟩) (by simp [hmessages, Occurrence.messages])
  rw [leftover, Occurrence.Accords, ← hrs]
  by_cases hempty : p.remarks.isEmpty = true
  · rw [if_pos hempty, if_pos hempty]
  · rw [if_neg hempty, if_neg hempty]
    exact ⟨_, _, rfl⟩

namespace Passage

/-- What occurs on a passage accounts for the messages on it. -/
theorem accounts (h : Passage p es q) : Accounts p es q := by
  induction h with
  | idle h =>
    obtain ⟨-, -, hremarks, hmessages, -⟩ := attention_eq_iff.1 h
    exact .of_eq hremarks hmessages
  | advance p =>
    unfold Parser.advance nextNotes
    cases p.rest with
    | nil => exact .of_eq rfl rfl
    | cons item rest =>
      have hnotes := p.accounts_notes item.notes
      exact ⟨hnotes.accords, hnotes.messages⟩
  | told p line context text comment plural hshape =>
    refine .of_accords (fun rs hrs ↦ ⟨?_, rfl⟩) Array.toList_push
    rw [Occurrence.Accords, if_neg hshape, ← hrs]
    exact ⟨rfl, rfl, rfl, rfl⟩
  | toldById p line id plural =>
    refine .of_accords (fun rs hrs ↦ ⟨?_, rfl⟩) Array.toList_push
    rw [Occurrence.Accords, if_pos rfl, ← hrs]
    exact ⟨rfl, rfl, rfl, rfl⟩
  | dropped p => exact .of_accords (fun _ _ ↦ ⟨trivial, rfl⟩) (List.append_nil _).symm
  | ended p => exact p.accounts_swept
  | included _ hremarks hmessages _ =>
    exact .of_accords (fun _ hrs ↦ ⟨trivial, hremarks.trans hrs⟩) hmessages
  | trans _ _ hpq hqr => exact hpq.trans hqr

/-- Comments are heard in the order of the text, and each of them once. -/
theorem upcoming (h : Passage p es q) :
    (es.flatMap Occurrence.accepted ++ q.upcoming.flatMap Note.remarks).Sublist
      (p.upcoming.flatMap Note.remarks) ∧ q.upcoming <:+ p.upcoming := by
  have hsame {p q : Parser} (heq : q.upcoming = p.upcoming) :
      (q.upcoming.flatMap Note.remarks).Sublist (p.upcoming.flatMap Note.remarks) ∧
        q.upcoming <:+ p.upcoming := by
    rw [heq]
    exact ⟨List.Sublist.refl _, List.suffix_rfl⟩
  induction h with
  | idle h =>
    obtain ⟨htrailing, hrest, -⟩ := attention_eq_iff.1 h
    exact hsame (upcoming_congr (by rw [htrailing, hrest]))
  | advance p =>
    rw [p.upcoming_eq, List.flatMap_append]
    exact ⟨(p.accepted_hearsAll p.nextNotes).append (List.Sublist.refl _), List.suffix_append _ _⟩
  | told p line context text comment plural hshape => exact hsame rfl
  | toldById p line id plural => exact hsame rfl
  | dropped p => exact hsame rfl
  | ended p =>
    obtain ⟨htrailing, hrest, -⟩ := attention_eq_iff.1 p.attention_swept
    exact hsame (upcoming_congr (by rw [htrailing, hrest]))
  | included hahead _ _ _ => exact hsame (upcoming_congr hahead)
  | trans _ _ hpq hqr =>
    rw [List.flatMap_append, List.append_assoc]
    exact ⟨(hqr.1.append_left _).trans hpq.1, hqr.2.trans hpq.2⟩

/-- Every complaint is that at the end of a statement. -/
theorem discards (h : Passage p es q) (hcalm : ∀ n ∈ p.upcoming, n.discards = false) :
    q.discards = p.discards ++ es.flatMap Occurrence.complaints := by
  induction h with
  | idle h =>
    obtain ⟨-, -, -, -, hdiscards⟩ := attention_eq_iff.1 h
    rw [hdiscards]
    exact (List.append_nil _).symm
  | advance p =>
    have hnext : ∀ n ∈ p.nextNotes, n.discards = false := fun n hn ↦
      hcalm n (p.upcoming_eq ▸ List.mem_append_left _ hn)
    rw [complaints_of_isComment (p.isComment_hearsAll p.nextNotes), List.append_nil]
    revert hnext
    unfold Parser.advance nextNotes
    cases p.rest with
    | nil => exact fun _ ↦ rfl
    | cons item rest => exact fun hnext ↦ discards_notes hnext p
  | told p line context text comment plural hshape => exact (List.append_nil _).symm
  | toldById p line id plural => exact (List.append_nil _).symm
  | dropped p => exact (List.append_nil _).symm
  | ended p =>
    obtain ⟨-, -, -, -, hdiscards⟩ := attention_eq_iff.1 p.attention_swept
    simpa [Occurrence.complaints] using hdiscards
  | included _ _ _ hdiscards => simpa [Occurrence.complaints] using hdiscards
  | trans hpq _ ihpq ihqr =>
    rw [ihqr fun n hn ↦ hcalm n (hpq.upcoming.2.subset hn), ihpq hcalm, List.flatMap_append,
      List.append_assoc]

end Passage

/-- The second parser comes from the first by reading on, where only comments occur. -/
def Listens (p q : Parser) : Prop :=
  ∃ es, Passage p es q ∧ ∀ e ∈ es, e.isComment = true

namespace Listens

theorem of_attention (h : q.attention = p.attention) : Listens p q := ⟨[], .idle h, by simp⟩

theorem trans (hpq : Listens p q) (hqr : Listens q r) : Listens p r := by
  obtain ⟨es, hes, hcomments⟩ := hpq
  obtain ⟨es', hes', hcomments'⟩ := hqr
  exact ⟨es ++ es', hes.trans hes', List.forall_mem_append.2 ⟨hcomments, hcomments'⟩⟩

end Listens

theorem listens_advance (p : Parser) : Listens p p.advance :=
  ⟨_, .advance p, p.isComment_hearsAll _⟩

end Parser

end Harvest
