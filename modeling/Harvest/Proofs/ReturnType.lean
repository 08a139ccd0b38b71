import Harvest.Proofs.Method

/-!
# Methods with return types

A method may be defined in the body of its class, with a return type that has a qualifier of its
own. This module gives the tokens of such a definition, after other members of the class and within
the namespaces and classes around it, and what they mean.

The qualifier of the return type is taken for that of the method, as if the method were defined
outside of its class. So its calls belong to the class only if the type has no qualifier.
-/

namespace Harvest

/-- The name `qualifier::name` of a type, possibly with a leading `::`. -/
structure TypeName where
  global : Bool
  qualifier : List Identifier
  name : Identifier

namespace TypeName

def void : TypeName := ⟨false, [], ⟨"void", Eq.refl true⟩⟩

def tokens (t : TypeName) : List Token :=
  (if t.global then [.colonColon] else []) ++
    match t.qualifier with
    | [] => [.ident t.name.word]
    | first :: more =>
      .ident first.word :: (Outline.furtherNames more ++ [.colonColon, .ident t.name.word])

/-- The words of the qualifier. -/
def words (t : TypeName) : List String := t.qualifier.map Identifier.word

/-- Where the qualifier of a type is looked up that is written in the scope at `path`. -/
def base (t : TypeName) (path : List String) : List String := if t.global then [] else path

theorem balanced_tokens (t : TypeName) : Depths.Balanced t.tokens := by
  have hword (name : String) {ts : List Token} (hts : Depths.Balanced ts) :
      Depths.Balanced (.ident name :: ts) := .cons (fun _ ↦ rfl) (by simp) hts
  have hseparator {ts : List Token} (hts : Depths.Balanced ts) :
      Depths.Balanced (.colonColon :: ts) := .cons (fun _ ↦ rfl) (by simp) hts
  have hlead : Depths.Balanced (if t.global then [.colonColon] else []) := by
    cases t.global
    · exact Depths.balanced_nil
    · exact hseparator Depths.balanced_nil
  apply hlead.append
  cases t.qualifier with
  | nil => exact hword _ Depths.balanced_nil
  | cons first more =>
    apply hword
    exact (Outline.balanced_furtherNames more).append (hseparator (hword _ Depths.balanced_nil))

theorem isPlain_of_mem_tokens (t : TypeName) : ∀ u ∈ t.tokens, u.isPlain = true := by
  have hlead : ∀ u ∈ (if t.global then [Token.colonColon] else []), u.isPlain = true := by
    cases t.global <;> simp [Token.isPlain]
  rw [tokens, List.forall_mem_append]
  refine ⟨hlead, ?_⟩
  cases t.qualifier with
  | nil => exact List.forall_mem_singleton.2 t.name.valid
  | cons first more =>
    simp only [List.forall_mem_cons, List.forall_mem_append]
    exact ⟨first.valid, Outline.isPlain_of_mem_furtherNames more, rfl, t.name.valid, by simp⟩

end TypeName

/-- A method that is defined in the body of its class, after other members. -/
structure InlineMethod extends Method where
  members : Outline true
  type : TypeName

namespace InlineMethod

/-- The tokens within nested classes. -/
def inBodies (inner : List Token) : List Identifier → List Token
  | [] => inner
  | name :: names =>
    .classWord :: .ident name.word :: .opening .brace ::
      (inBodies inner names ++ [.closing .brace, .semicolon])

/-- The members of the class, and `type name() { body }` after them. -/
def inner (m : InlineMethod) : List Token :=
  m.members.tokens ++ (m.type.tokens ++ .ident m.name.word :: .opening .paren :: .closing .paren ::
    .opening .brace :: (m.body.tokens ++ [.closing .brace]))

def tokens (m : InlineMethod) : List Token :=
  Method.enclose (inBodies m.inner (m.first :: m.more)) m.spaces

theorem balanced_tokens (m : InlineMethod) : Depths.Balanced m.tokens := by
  have hbody : Depths.Balanced (.ident m.name.word :: .opening .paren :: .closing .paren ::
      .opening .brace :: (m.body.tokens ++ [.closing .brace])) :=
    .cons (fun _ ↦ rfl) (by simp) (.delimited .paren Depths.balanced_nil
      (.delimited .brace m.body.balanced_tokens Depths.balanced_nil))
  have hinner : Depths.Balanced m.inner :=
    m.members.balanced_tokens.append (m.type.balanced_tokens.append hbody)
  have hclasses (names : List Identifier) : Depths.Balanced (inBodies m.inner names) := by
    induction names with
    | nil => exact hinner
    | cons name names ih =>
      refine .cons (fun _ ↦ rfl) (by simp) (.cons (fun _ ↦ rfl) (by simp) ?_)
      exact .delimited .brace ih (.cons (fun _ ↦ rfl) (by simp) Depths.balanced_nil)
  exact Method.balanced_enclose (hclasses _) m.spaces

theorem isPlain_of_mem_tokens (m : InlineMethod) : ∀ t ∈ m.tokens, t.isPlain = true := by
  have hinner : ∀ t ∈ m.inner, t.isPlain = true := by
    simp only [inner, List.forall_mem_cons, List.forall_mem_append]
    exact ⟨m.members.isPlain_of_mem_tokens, m.type.isPlain_of_mem_tokens, m.name.valid, rfl, rfl,
      rfl, m.body.isPlain_of_mem_tokens, rfl, by simp⟩
  have hclasses (names : List Identifier) : ∀ t ∈ inBodies m.inner names, t.isPlain = true := by
    induction names with
    | nil => exact hinner
    | cons name names ih =>
      simp only [inBodies, List.forall_mem_cons, List.forall_mem_append]
      exact ⟨rfl, name.valid, rfl, ih, rfl, rfl, by simp⟩
  exact Method.isPlain_of_mem_enclose (hclasses _) m.spaces

/-- What the text means before the method. -/
def before (m : InlineMethod) : List Event :=
  Outline.entries [] m.path ++ m.members.events m.path

/-- What the method means in the scope at `path`. -/
def deeds (m : InlineMethod) (path : List String) : List Deed :=
  if m.type.words = [] ∨ m.body.texts = [] then (m.body.events path).map .plain
  else [.adopted (m.type.base path) m.type.words m.body.texts]

end InlineMethod

end Harvest
