import Harvest.Proofs.Outline

/-!
# Drafts of source texts

A draft is an outline with definitions of static members among its declarations, such as
`int N::C::count = 0;`. This module gives the outline that is left without the definitions, and
what the draft means.

The qualifier of a member that is defined is kept as that of a function definition that may be under
way. The first function after it takes it for its own, unless the head of a scope or the end of one
comes before. The calls of such a function are adopted; nothing else distinguishes a draft from its
outline.
-/

namespace Harvest

/-- Declarations with definitions of static members among them. -/
abbrev Draft : Bool → Type := Declarations true

/-- What reading takes for the qualifier: after a leading `::` the type belongs to it. -/
def Member.qualifier (m : Member) : List String :=
  (if m.global then ["int"] else []) ++ (m.first :: m.more).map Identifier.word

/-- The outline without the definitions of static members. -/
def Declarations.outline {members inClass : Bool} : Declarations members inClass → Outline inClass
  | done => .done
  | namespaces first more inner rest => .namespaces first more inner.outline rest.outline
  | unnamed inner rest => .unnamed inner.outline rest.outline
  | classBody name inner rest => .classBody name inner.outline rest.outline
  | marker rest => .marker rest.outline
  | function name body rest => .function name body rest.outline
  | member _ _ rest => rest.outline

/-- What a draft means at one point of its text: an event of its outline, or the calls of a function
at `path` that belong to an earlier qualifier. -/
inductive Deed
  | plain (e : Event)
  | adopted (path qualifier texts : List String)
deriving DecidableEq, Repr

namespace Declarations

/-- What a draft means in the scope at `path`, after a definition with the qualifier `pending`, which
is empty if there is none. -/
def deeds {members inClass : Bool} (path pending : List String) :
    Declarations members inClass → List Deed
  | done => []
  | namespaces first more inner rest =>
    let names := (first :: more).map Identifier.word
    (Outline.entries path names).map .plain ++ inner.deeds (path ++ names) [] ++ rest.deeds path []
  | unnamed inner rest => inner.deeds path pending ++ rest.deeds path []
  | classBody name inner rest =>
    .plain (.entered (path ++ [name.word])) :: inner.deeds (path ++ [name.word]) [] ++
      rest.deeds path []
  | marker rest => .plain (.marked path) :: rest.deeds path pending
  | function _ body rest =>
    (if pending = [] ∨ body.texts = [] then (body.events path).map .plain
      else [.adopted path pending body.texts]) ++ rest.deeds path []
  | member _ m rest => rest.deeds path m.qualifier

/-- No function with calls is the first one after a definition of a static member, with neither the
head of a named scope nor the end of a scope between them. `exposed` says that such a definition
stands before. -/
def sheltered {members inClass : Bool} (exposed : Bool) : Declarations members inClass → Bool
  | done => true
  | namespaces _ _ inner rest | classBody _ inner rest =>
    inner.sheltered false && rest.sheltered false
  | unnamed inner rest => inner.sheltered exposed && rest.sheltered false
  | marker rest => rest.sheltered exposed
  | function _ body rest => (!exposed || body.texts.isEmpty) && rest.sheltered false
  | member _ _ rest => rest.sheltered true

/-- A sheltered draft means what its outline means. -/
theorem deeds_of_sheltered {members inClass : Bool} {d : Declarations members inClass}
    {exposed : Bool} (h : d.sheltered exposed = true) (path : List String) {pending : List String}
    (hpending : exposed = false → pending = []) :
    d.deeds path pending = (d.outline.events path).map .plain := by
  induction d generalizing path pending exposed with
  | done => rfl
  | namespaces first more inner rest ihinner ihrest =>
    obtain ⟨hinner, hrest⟩ := Bool.and_eq_true_iff.1 h
    simp only [deeds, outline, events, List.map_append]
    rw [ihinner hinner _ fun _ ↦ rfl, ihrest hrest _ fun _ ↦ rfl]
  | unnamed inner rest ihinner ihrest =>
    obtain ⟨hinner, hrest⟩ := Bool.and_eq_true_iff.1 h
    simp only [deeds, outline, events, List.map_append]
    rw [ihinner hinner _ hpending, ihrest hrest _ fun _ ↦ rfl]
  | classBody name inner rest ihinner ihrest =>
    obtain ⟨hinner, hrest⟩ := Bool.and_eq_true_iff.1 h
    simp only [deeds, outline, events, List.map_append, List.map_cons]
    rw [ihinner hinner _ fun _ ↦ rfl, ihrest hrest _ fun _ ↦ rfl]
  | marker rest ih =>
    simp only [deeds, outline, events, List.map_cons]
    rw [ih h _ hpending]
  | function name body rest ih =>
    obtain ⟨hbody, hrest⟩ := Bool.and_eq_true_iff.1 h
    have hown : pending = [] ∨ body.texts = [] := by
      cases exposed with
      | false => exact .inl (hpending rfl)
      | true => exact .inr (by simpa using hbody)
    simp only [deeds, outline, events, List.map_append, if_pos hown]
    rw [ih hrest _ fun _ ↦ rfl]
  | member allowed m rest ih => exact ih h path (by simp)

end Declarations

end Harvest
