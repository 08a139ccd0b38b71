import Harvest.Proofs.Draft

/-!
# Definitions of methods

A method may be defined inside of its class or outside of it, with a qualified name and within the
namespaces that are opened again. This module gives the tokens of a definition outside, the outline
of the same definition inside, and what both mean.
-/

namespace Harvest

/-- The method `name` of the class `first::more`, which lies in the namespaces `spaces`. A namespace
may be opened with several names at once. -/
structure Method where
  spaces : List (Identifier × List Identifier)
  first : Identifier
  more : List Identifier
  name : Identifier
  body : Block

namespace Outline

theorem entries_append (path names names' : List String) :
    entries path (names ++ names') = entries path names ++ entries (path ++ names) names' := by
  induction names generalizing path with
  | nil => rw [List.nil_append, List.append_nil]; rfl
  | cons name names ih => simp only [List.cons_append, entries, ih, List.append_assoc, List.nil_append]

end Outline

namespace Method

/-- The path that nested heads of namespaces lead to. -/
def spacePath (spaces : List (Identifier × List Identifier)) : List String :=
  spaces.flatMap fun s ↦ (s.1 :: s.2).map Identifier.word

/-- The qualifier of the method outside of its class. -/
def qualifier (m : Method) : List String := (m.first :: m.more).map Identifier.word

/-- The path of the class. -/
def path (m : Method) : List String := spacePath m.spaces ++ m.qualifier

/-- `void first::more::name() { body }`. -/
def definition (m : Method) : List Token :=
  .ident "void" :: .ident m.first.word :: (Outline.furtherNames m.more ++ .colonColon ::
    .ident m.name.word :: .opening .paren :: .closing .paren :: .opening .brace ::
    (m.body.tokens ++ [.closing .brace]))

/-- The tokens within nested namespaces. -/
def enclose (inner : List Token) : List (Identifier × List Identifier) → List Token
  | [] => inner
  | (first, more) :: spaces =>
    .namespaceWord :: .ident first.word :: (Outline.furtherNames more ++ .opening .brace ::
      (enclose inner spaces ++ [.closing .brace]))

def tokens (m : Method) : List Token := enclose m.definition m.spaces

theorem balanced_enclose {inner : List Token} (hinner : Depths.Balanced inner)
    (spaces : List (Identifier × List Identifier)) : Depths.Balanced (enclose inner spaces) := by
  induction spaces with
  | nil => exact hinner
  | cons s spaces ih =>
    refine .cons (fun _ ↦ rfl) (by simp) (.cons (fun _ ↦ rfl) (by simp) ?_)
    exact (Outline.balanced_furtherNames s.2).append (.delimited .brace ih Depths.balanced_nil)

theorem balanced_tokens (m : Method) : Depths.Balanced m.tokens := by
  apply balanced_enclose
  refine .cons (fun _ ↦ rfl) (by simp) (.cons (fun _ ↦ rfl) (by simp) ?_)
  refine (Outline.balanced_furtherNames m.more).append ?_
  refine .cons (fun _ ↦ rfl) (by simp) (.cons (fun _ ↦ rfl) (by simp) ?_)
  exact .delimited .paren Depths.balanced_nil
    (.delimited .brace m.body.balanced_tokens Depths.balanced_nil)

theorem isPlain_of_mem_enclose {inner : List Token} (hinner : ∀ t ∈ inner, t.isPlain = true)
    (spaces : List (Identifier × List Identifier)) :
    ∀ t ∈ enclose inner spaces, t.isPlain = true := by
  induction spaces with
  | nil => exact hinner
  | cons s spaces ih =>
    simp only [enclose, List.forall_mem_cons, List.forall_mem_append]
    exact ⟨rfl, s.1.valid, Outline.isPlain_of_mem_furtherNames s.2, rfl, ih, rfl, by simp⟩

theorem isPlain_of_mem_tokens (m : Method) : ∀ t ∈ m.tokens, t.isPlain = true := by
  apply isPlain_of_mem_enclose
  simp only [definition, List.forall_mem_cons, List.forall_mem_append]
  exact ⟨by decide, m.first.valid, Outline.isPlain_of_mem_furtherNames m.more, rfl, m.name.valid,
    rfl, rfl, rfl, m.body.isPlain_of_mem_tokens, rfl, by simp⟩

/-- What the definition means in the scope at `path`, within the namespaces. -/
def deeds (m : Method) (path : List String) : List (Identifier × List Identifier) → List Deed
  | [] =>
    if m.qualifier = [] ∨ m.body.texts = [] then (m.body.events path).map .plain
    else [.adopted path m.qualifier m.body.texts]
  | (first, more) :: spaces =>
    let names := (first :: more).map Identifier.word
    (Outline.entries path names).map .plain ++ m.deeds (path ++ names) spaces

/-- The namespaces are entered first. -/
theorem deeds_eq (m : Method) (path : List String) (spaces : List (Identifier × List Identifier)) :
    m.deeds path spaces = (Outline.entries path (spacePath spaces)).map .plain ++
      m.deeds (path ++ spacePath spaces) [] := by
  induction spaces generalizing path with
  | nil => simp [spacePath, Outline.entries]
  | cons s spaces ih =>
    let names := (s.1 :: s.2).map Identifier.word
    have hpath : spacePath (s :: spaces) = names ++ spacePath spaces := rfl
    calc
      m.deeds path (s :: spaces)
          = (Outline.entries path names).map .plain ++ m.deeds (path ++ names) spaces := rfl
      _ = (Outline.entries path (spacePath (s :: spaces))).map .plain ++
            m.deeds (path ++ spacePath (s :: spaces)) [] := by
        rw [ih, hpath, Outline.entries_append, List.map_append, List.append_assoc,
          List.append_assoc]

/-- The definition within classes, one inside of the other. -/
def inClasses (m : Method) : List Identifier → Outline true
  | [] => .function m.name m.body .done
  | name :: names => .classBody name (m.inClasses names) .done

def inSpaces (m : Method) : List (Identifier × List Identifier) → Outline false
  | [] => .classBody m.first (m.inClasses m.more) .done
  | (first, more) :: spaces => .namespaces first more (m.inSpaces spaces) .done

/-- The definition within its class, which is opened again. -/
def inside (m : Method) : Outline false := m.inSpaces m.spaces

theorem events_inClasses (m : Method) (path : List String) (names : List Identifier) :
    (m.inClasses names).events path =
      Outline.entries path (names.map Identifier.word) ++
        m.body.events (path ++ names.map Identifier.word) := by
  induction names generalizing path with
  | nil => simp [inClasses, Declarations.events, Outline.entries]
  | cons name names ih => simp [inClasses, Declarations.events, Outline.entries, ih]

theorem events_inSpaces (m : Method) (path : List String)
    (spaces : List (Identifier × List Identifier)) :
    (m.inSpaces spaces).events path =
      Outline.entries path (spacePath spaces ++ m.qualifier) ++
        m.body.events (path ++ (spacePath spaces ++ m.qualifier)) := by
  induction spaces generalizing path with
  | nil => simp [inSpaces, Declarations.events, Outline.entries, events_inClasses, spacePath, qualifier]
  | cons s spaces ih =>
    have hpath : spacePath (s :: spaces) = (s.1 :: s.2).map Identifier.word ++ spacePath spaces := rfl
    rw [hpath, List.append_assoc, Outline.entries_append, ← List.append_assoc path]
    simp only [inSpaces, Declarations.events, ih, List.append_nil, List.append_assoc]

theorem functionNames_inClasses (m : Method) (names : List Identifier) :
    (m.inClasses names).functionNames = [m.name.word] := by
  induction names with
  | nil => rfl
  | cons name names ih => simp [inClasses, Declarations.functionNames, ih]

theorem functionNames_inside (m : Method) : m.inside.functionNames = [m.name.word] := by
  have hspaces (spaces : List (Identifier × List Identifier)) :
      (m.inSpaces spaces).functionNames = [m.name.word] := by
    induction spaces with
    | nil => simp [inSpaces, Declarations.functionNames, functionNames_inClasses]
    | cons s spaces ih => simp [inSpaces, Declarations.functionNames, ih]
  exact hspaces m.spaces

end Method

end Harvest
