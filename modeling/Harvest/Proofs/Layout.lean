import Harvest.Parser.Declaration
import Harvest.Proofs.Outline

/-!
# Layouts of source texts

A layout is a forest of nested scopes without functions: namespaces, classes, and classes that are
defined under a qualified name, with `using namespace` directives and namespace aliases among them.
This module gives the tokens of a layout, its definitions with the tokens after each of them, and
the scope that the head of a definition enters.
-/

namespace Harvest

/-- A token that may stand in a list of base classes. -/
def Token.isBase : Token → Bool
  | ident _ | colonColon | comma | angle | access | integer | null => true
  | _ => false

/-- What stands between the name of a class and its body: nothing, or a list of base classes after a
colon or after template arguments. -/
inductive Bases
  | none
  | list (first : Token) (more : List Token) (hfirst : first.isColon = true ∨ first = .angle)
      (hmore : ∀ t ∈ more, t.isBase = true)

def Bases.tokens : Bases → List Token
  | none => []
  | list first more _ _ => first :: more

/-- A scope as a directive names it, possibly with a leading `::`. -/
structure Target where
  global : Bool
  first : Identifier
  more : List Identifier

namespace Target

def tokens (t : Target) : List Token :=
  (if t.global then [.colonColon] else []) ++ .ident t.first.word :: Outline.furtherNames t.more

/-- The name as written. -/
def name (t : Target) : Name :=
  ⟨(if t.global then [""] else []) ++ (t.first :: t.more).map Identifier.word⟩

end Target

/-- What introduces the body of a scope. -/
inductive Head
  /-- `namespace first::more`. -/
  | namespaces (first : Identifier) (more : List Identifier)
  | unnamedNamespace
  /-- `class first::more bases`. -/
  | classes (first : Identifier) (more : List Identifier) (bases : Bases)
  | unnamedClass

namespace Head

/-- The tokens of a head, with the brace after it. -/
def tokens : Head → List Token
  | namespaces first more =>
    .namespaceWord :: .ident first.word :: (Outline.furtherNames more ++ [.opening .brace])
  | unnamedNamespace => [.namespaceWord, .opening .brace]
  | classes first more bases =>
    .classWord :: .ident first.word ::
      (Outline.furtherNames more ++ (bases.tokens ++ [.opening .brace]))
  | unnamedClass => [.classWord, .opening .brace]

def isClass : Head → Bool
  | classes .. | unnamedClass => true
  | _ => false

/-- What follows the brace that closes the body. -/
def ending (h : Head) : List Token := if h.isClass then [.semicolon] else []

/-- The head of a class that is defined under a qualified name. -/
def isQualified : Head → Bool
  | classes _ more _ => !more.isEmpty
  | _ => false

/-- The path of the scope that a head enters at namespace level, where the scope `here` is open. A
class without a name enters none, and neither does one whose qualifier cannot be resolved. -/
def enters? (h : Head) (f : Forest) (t : Nat) (here : Name) : Option Name :=
  match h with
  | namespaces first more => some ⟨here.segments ++ (first :: more).map Identifier.word⟩
  | unnamedNamespace => some here
  | unnamedClass => none
  | classes first more _ =>
    let names := (first :: more).map Identifier.word
    if more = [] then some (here.push first.word)
    else
      match (f.qualify t here here.length names.dropLast true).1 with
      | .ok enclosing => some (enclosing.push (names.getLastD ""))
      | .error _ => none

/-- The path of the scope that a head enters which the parser reads at namespace level. -/
def entered? (h : Head) (p : Parser) : Option Name := h.enters? p.forest p.tree p.snapshot.namespaces

end Head

/-- Scopes and directives in a row. -/
inductive Layout
  | done
  | scope (head : Head) (inner rest : Layout)
  /-- `using namespace target;`. -/
  | usingNamespace (target : Target) (rest : Layout)
  /-- `namespace name = target;`. -/
  | namespaceAlias (name : Identifier) (target : Target) (rest : Layout)

/-- A definition within a layout: its head, its body and the tokens after the brace that closes
it. -/
structure Definition where
  head : Head
  inner : Layout
  after : List Token

namespace Layout

def tokens : Layout → List Token
  | done => []
  | scope head inner rest =>
    head.tokens ++ (inner.tokens ++ .closing .brace :: (head.ending ++ rest.tokens))
  | usingNamespace target rest =>
    .usingWord :: .namespaceWord :: (target.tokens ++ .semicolon :: rest.tokens)
  | namespaceAlias name target rest =>
    .namespaceWord :: .ident name.word :: .equals :: (target.tokens ++ .semicolon :: rest.tokens)

/-- The definitions of a layout that the tokens `after` follow, in the order of the text. -/
def definitions (after : List Token) : Layout → List Definition
  | done => []
  | scope head inner rest =>
    let left := head.ending ++ (rest.tokens ++ after)
    ⟨head, inner, left⟩ :: (inner.definitions (.closing .brace :: left) ++ rest.definitions after)
  | usingNamespace _ rest | namespaceAlias _ _ rest => rest.definitions after

end Layout

namespace Definition

/-- The tokens of the body and of what follows it. -/
def body (D : Definition) : List Token := D.inner.tokens ++ .closing .brace :: D.after

/-- The tokens of a definition and of what follows it. -/
def tokens (D : Definition) : List Token := D.head.tokens ++ D.body

/-- The definitions inside of a definition. -/
def nested (D : Definition) : List Definition := D.inner.definitions (.closing .brace :: D.after)

end Definition

end Harvest
