import Harvest.Parser.State
import Mathlib.Data.List.Perm.Subperm

/-!
# Occurrences

What a file's parser does with remarks, told as a list of occurrences: comments that are taken for
remarks, messages, and the places where collected remarks are dropped. This module says which
remarks are held at each occurrence, which of them go into its message, and what the message has to
say then.
-/

namespace Harvest

namespace Remark

def extraComment? : Remark → Option String
  | .extraComment text => some text
  | _ => none

def id? : Remark → Option String
  | .id name => some name
  | _ => none

def extra? : Remark → Option (String × String)
  | .extra key value => some (key, value)
  | _ => none

def sourceText? : Remark → Option String
  | .sourceText text _ => some text
  | _ => none

/-- The remarks that may go into the description of a context. -/
def describes : Remark → Bool
  | .extraComment _ | .extra _ _ => true
  | _ => false

end Remark

namespace Remarks

/-- What remarks say together. The last id counts, and the last value under each key. -/
def of (rs : List Remark) : Remarks where
  sourceText := String.join (rs.filterMap Remark.sourceText?)
  extraComment := String.join (rs.filterMap Remark.extraComment?)
  id := (rs.filterMap Remark.id?).getLastD ""
  extras := (rs.filterMap Remark.extra?).foldl (fun extras note ↦ extras.insert note.1 note.2) []

theorem eq_of_isEmpty {m : Remarks} (h : m.isEmpty = true) : m = {} := by
  obtain ⟨sourceText, extraComment, id, extras⟩ := m
  simpa [isEmpty, and_assoc] using h

/-- What is said once one more remark is heard. The description of a context takes the comment and
the notes. -/
def hear (m : Remarks) : Remark → Remarks
  | .extraComment text => { m with extraComment := m.extraComment ++ text }
  | .id id => { m with id }
  | .extra key value => { m with extras := m.extras.insert key value }
  | .sourceText text _ => { m with sourceText := m.sourceText ++ text }
  | .translator _ _ => { m with extraComment := "", extras := [] }

theorem of_concat (rs : List Remark) {r : Remark}
    (hr : ∀ context comment, r ≠ .translator context comment) :
    of (rs ++ [r]) = (of rs).hear r := by
  cases r with
  | translator context comment => exact absurd rfl (hr context comment)
  | _ =>
    simp [of, hear, List.filterMap_append, List.filterMap_cons, Remark.extraComment?, Remark.id?,
      Remark.extra?, Remark.sourceText?]

/-- Only what a part of the remarks leaves out is missing from what they say together. -/
theorem filterMap_filter {α : Type} {part : Remark → Option α} {keep : Remark → Bool}
    (h : ∀ r, keep r = false → part r = none) (rs : List Remark) :
    (rs.filter keep).filterMap part = rs.filterMap part := by
  rw [List.filterMap_filter]
  congr 1
  funext r
  cases hr : keep r with
  | true => rfl
  | false => exact (h r hr).symm

theorem filterMap_filter_eq_nil {α : Type} {part : Remark → Option α} {keep : Remark → Bool}
    (h : ∀ r, keep r = true → part r = none) (rs : List Remark) :
    (rs.filter keep).filterMap part = [] := by
  rw [List.filterMap_eq_nil_iff]
  intro r hr
  exact h r (List.mem_filter.1 hr).2

/-- Remarks of other kinds stay when a context is described. -/
theorem of_filter_not_describes (rs : List Remark) :
    of (rs.filter fun r ↦ !r.describes) = { of rs with extraComment := "", extras := [] } := by
  have hsourceText := @filterMap_filter _ Remark.sourceText? (fun r ↦ !r.describes)
    (by rintro (_ | _) <;> simp [Remark.describes, Remark.sourceText?]) rs
  have hid := @filterMap_filter _ Remark.id? (fun r ↦ !r.describes)
    (by rintro (_ | _) <;> simp [Remark.describes, Remark.id?]) rs
  have hextraComment := @filterMap_filter_eq_nil _ Remark.extraComment? (fun r ↦ !r.describes)
    (by rintro (_ | _) <;> simp [Remark.describes, Remark.extraComment?]) rs
  have hextra := @filterMap_filter_eq_nil _ Remark.extra? (fun r ↦ !r.describes)
    (by rintro (_ | _) <;> simp [Remark.describes, Remark.extra?]) rs
  simp only [of, hsourceText, hid, hextraComment, hextra]
  rfl

/-- The description of a context has the whole comment and all notes. -/
theorem of_filter_describes (rs : List Remark) :
    (of (rs.filter Remark.describes)).extraComment = (of rs).extraComment ∧
      (of (rs.filter Remark.describes)).extras = (of rs).extras := by
  have hextraComment := @filterMap_filter _ Remark.extraComment? Remark.describes
    (by rintro (_ | _) <;> simp [Remark.describes, Remark.extraComment?]) rs
  have hextra := @filterMap_filter _ Remark.extra? Remark.describes
    (by rintro (_ | _) <;> simp [Remark.describes, Remark.extra?]) rs
  simp only [of, hextraComment, hextra, and_self]

end Remarks

/-- What matters for remarks while a file is read. -/
inductive Occurrence
  /-- A comment was taken for a remark about the next message. -/
  | heard (r : Remark)
  /-- A comment described a context, with this message. -/
  | described (context comment : String) (m : Message)
  /-- A call of this shape gave a message. -/
  | told (shape : CallShape) (m : Message)
  /-- A call gave no message and dropped the remarks. -/
  | dropped
  /-- A statement ended, with these complaints about remarks that nothing had used. -/
  | ended (complaints : List Diagnostic)
  /-- Another file was included, with these messages and complaints of the same kind. -/
  | included (ms : List Message) (complaints : List Diagnostic)

namespace Occurrence

/-- The comment was taken for a remark. -/
def isComment : Occurrence → Bool
  | heard _ | described _ _ _ => true
  | _ => false

/-- The remarks that comments were taken for. -/
def accepted : Occurrence → List Remark
  | heard r => [r]
  | described context comment _ => [.translator context comment]
  | _ => []

def messages : Occurrence → List Message
  | described _ _ m | told _ m => [m]
  | included ms _ => ms
  | _ => []

def complaints : Occurrence → List Diagnostic
  | ended ds | included _ ds => ds
  | _ => []

/-- The remarks that go into the message, of those that are held. -/
def taken (rs : List Remark) : Occurrence → List Remark
  | described context comment _ => rs.filter Remark.describes ++ [.translator context comment]
  | told _ _ => rs
  | _ => []

/-- The remarks that are held afterwards. -/
def kept (rs : List Remark) : Occurrence → List Remark
  | heard r => rs ++ [r]
  | described _ _ _ => rs.filter fun r ↦ !r.describes
  | included _ _ => rs
  | _ => []

/-- The remarks that are held after these occurrences. -/
def held (es : List Occurrence) : List Remark := es.foldl kept []

/-- The remarks that go into messages, if `rs` are held at first. -/
def spent (rs : List Remark) : List Occurrence → List Remark
  | [] => []
  | e :: es => e.taken rs ++ spent (e.kept rs) es

/-- What the occurrence shows is what the remarks say that are held. -/
def Accords (rs : List Remark) : Occurrence → Prop
  | heard r => ∀ context comment, r ≠ .translator context comment
  | described context comment m =>
    m.kind = .contextComment ∧ m.context = Text.Escape.decode context ∧
      m.comment = Text.Escape.decode comment ∧ m.sourceText = "" ∧ m.id = "" ∧
      m.extraComment = Parser.shownComment (Remarks.of (rs.filter Remark.describes)).extraComment ∧
      m.extras = (Remarks.of (rs.filter Remark.describes)).extras
  | told shape m =>
    m.kind = .translation ∧ m.extraComment = Parser.shownComment (Remarks.of rs).extraComment ∧
      m.extras = (Remarks.of rs).extras ∧
      if shape = .trId then m.sourceText = Text.Escape.decode (Remarks.of rs).sourceText
      else m.id = (Remarks.of rs).id
  | ended ds =>
    if (Remarks.of rs).isEmpty then ds = []
    else ∃ file line, ds = [⟨file, line, .discardedMetaData, "Discarding unconsumed meta data"⟩]
  | dropped | included _ _ => True

/-- Each occurrence accords with the remarks that are held at it. -/
def AccordAll (rs : List Remark) : List Occurrence → Prop
  | [] => True
  | e :: es => e.Accords rs ∧ AccordAll (e.kept rs) es

variable {rs : List Remark} {es es' : List Occurrence}

theorem accordAll_append :
    AccordAll rs (es ++ es') ↔ AccordAll rs es ∧ AccordAll (es.foldl kept rs) es' := by
  induction es generalizing rs with
  | nil => simp [AccordAll]
  | cons e es ih =>
    rw [List.cons_append, AccordAll, ih, ← and_assoc]
    rfl

/-- What goes into a message is not held any more. -/
theorem taken_append_kept_subperm (rs : List Remark) (e : Occurrence) :
    (e.taken rs ++ e.kept rs).Subperm (rs ++ e.accepted) := by
  cases e with
  | heard r => exact List.Subperm.refl _
  | described context comment m =>
    have hmoved : (([.translator context comment] : List Remark) ++
        rs.filter fun r ↦ !r.describes).Perm
        ((rs.filter fun r ↦ !r.describes) ++ [.translator context comment]) :=
      List.perm_append_comm
    have hdivided := (List.filter_append_perm Remark.describes rs).append_right
      [.translator context comment]
    rw [List.append_assoc] at hdivided
    rw [taken, kept, accepted, List.append_assoc]
    exact ((hmoved.append_left _).trans hdivided).subperm
  | told shape m => exact List.Subperm.refl _
  | dropped => exact List.nil_subperm
  | ended ds => exact List.nil_subperm
  | included ms ds => exact (List.sublist_append_left rs []).subperm

/-- Every remark goes into one message at most. -/
theorem spent_subperm (rs : List Remark) (es : List Occurrence) :
    (spent rs es).Subperm (rs ++ es.flatMap accepted) := by
  induction es generalizing rs with
  | nil => exact List.nil_subperm
  | cons e es ih =>
    have hlater : (e.taken rs ++ spent (e.kept rs) es).Subperm
        (e.taken rs ++ (e.kept rs ++ es.flatMap accepted)) :=
      (List.Subperm.refl _).append (ih (e.kept rs))
    have hnow : (e.taken rs ++ (e.kept rs ++ es.flatMap accepted)).Subperm
        (rs ++ (e.accepted ++ es.flatMap accepted)) := by
      rw [← List.append_assoc, ← List.append_assoc]
      exact (taken_append_kept_subperm rs e).append (List.Subperm.refl _)
    exact hlater.trans hnow

end Occurrence

end Harvest
