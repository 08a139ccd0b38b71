import Harvest.Name
import Harvest.Proofs.Source.Spelling

/-!
# Outlines of source texts

An outline is a forest of nested declarations: namespaces with one name or several, namespaces
without a name, classes, the markers of classes that support localization, and functions whose
bodies are nested blocks with localization calls in them. Names may repeat, so that a scope may be
opened again. Definitions of static members may stand among the declarations; an outline has none.
This module gives the tokens that write declarations down and the events that they mean, in the
order of the text: a scope is entered, a class is marked, a call is made.
-/

namespace Harvest

/-- A name in an outline. -/
structure Identifier where
  word : String
  valid : Token.isIdentifier word = true

/-- The text of a call in an outline, which stands for itself. -/
structure PlainText where
  text : String
  nonempty : text ≠ ""
  plain : text.toList.all Token.isLiteralChar = true

/-- A text for which one check shows both. -/
def PlainText.of (text : String)
    (h : (text != "" && text.toList.all Token.isLiteralChar) = true) : PlainText :=
  ⟨text, bne_iff_ne.1 (Bool.and_eq_true_iff.1 h).1, (Bool.and_eq_true_iff.1 h).2⟩

/-- The statements of a function body: nested blocks and calls. -/
inductive Block
  | done
  | block (inner rest : Block)
  | call (text : PlainText) (rest : Block)

/-- The definition `int first::more::name = 0;` of a static member. Its qualifier may be written with
a leading `::`. -/
structure Member where
  global : Bool
  first : Identifier
  more : List Identifier
  name : Identifier

/-- Declarations in a row, directly inside a class or not. Only a class has markers; `members` says
whether definitions of static members may stand among the declarations. -/
inductive Declarations (members : Bool) : Bool → Type
  | done {inClass : Bool} : Declarations members inClass
  /-- `namespace first::more { inner }`. -/
  | namespaces {inClass : Bool} (first : Identifier) (more : List Identifier)
      (inner : Declarations members false) (rest : Declarations members inClass) :
      Declarations members inClass
  /-- `namespace { inner }`. -/
  | unnamed {inClass : Bool} (inner : Declarations members false)
      (rest : Declarations members inClass) : Declarations members inClass
  /-- `class name { inner };`. -/
  | classBody {inClass : Bool} (name : Identifier) (inner : Declarations members true)
      (rest : Declarations members inClass) : Declarations members inClass
  | marker (rest : Declarations members true) : Declarations members true
  /-- `void name() { body }`. -/
  | function {inClass : Bool} (name : Identifier) (body : Block)
      (rest : Declarations members inClass) : Declarations members inClass
  | member {inClass : Bool} (allowed : members = true) (m : Member)
      (rest : Declarations members inClass) : Declarations members inClass

/-- Declarations without definitions of static members. -/
abbrev Outline : Bool → Type := Declarations false

namespace Block

def tokens : Block → List Token
  | done => []
  | block inner rest => .opening .brace :: (inner.tokens ++ .closing .brace :: rest.tokens)
  | call text rest =>
    .ident "tr" :: .opening .paren :: .string text.text :: .closing .paren :: .semicolon ::
      rest.tokens

/-- The texts of the calls. -/
def texts : Block → List String
  | done => []
  | block inner rest => inner.texts ++ rest.texts
  | call text rest => text.text :: rest.texts

end Block

/-- The names after the first one in `namespace a::b::c`. -/
def Outline.furtherNames (more : List Identifier) : List Token :=
  more.flatMap fun name ↦ [.colonColon, .ident name.word]

def Member.tokens (m : Member) : List Token :=
  .ident "int" :: ((if m.global then [.colonColon] else []) ++ .ident m.first.word ::
    (Outline.furtherNames m.more ++
      [.colonColon, .ident m.name.word, .equals, .null, .semicolon]))

namespace Declarations

variable {members inClass : Bool}

def tokens {inClass : Bool} : Declarations members inClass → List Token
  | done => []
  | namespaces first more inner rest =>
    .namespaceWord :: .ident first.word :: (Outline.furtherNames more ++
      .opening .brace :: (inner.tokens ++ .closing .brace :: rest.tokens))
  | unnamed inner rest =>
    .namespaceWord :: .opening .brace :: (inner.tokens ++ .closing .brace :: rest.tokens)
  | classBody name inner rest =>
    .classWord :: .ident name.word :: .opening .brace ::
      (inner.tokens ++ .closing .brace :: .semicolon :: rest.tokens)
  | marker rest => .marker :: rest.tokens
  | function name body rest =>
    .ident "void" :: .ident name.word :: .opening .paren :: .closing .paren :: .opening .brace ::
      (body.tokens ++ .closing .brace :: rest.tokens)
  | member _ m rest => m.tokens ++ rest.tokens

/-- The names of the functions. -/
def functionNames {inClass : Bool} : Declarations members inClass → List String
  | done => []
  | namespaces _ _ inner rest | unnamed inner rest | classBody _ inner rest =>
    inner.functionNames ++ rest.functionNames
  | marker rest | member _ _ rest => rest.functionNames
  | function name _ rest => name.word :: rest.functionNames

/-- Some declarations after others. -/
def append {inClass : Bool} :
    Declarations members inClass → Declarations members inClass → Declarations members inClass
  | done, o => o
  | namespaces first more inner rest, o => namespaces first more inner (rest.append o)
  | unnamed inner rest, o => unnamed inner (rest.append o)
  | classBody name inner rest, o => classBody name inner (rest.append o)
  | marker rest, o => marker (rest.append o)
  | function name body rest, o => function name body (rest.append o)
  | member allowed m rest, o => member allowed m (rest.append o)

theorem tokens_append (o o' : Declarations members inClass) :
    (o.append o').tokens = o.tokens ++ o'.tokens := by
  induction o with
  | done => rfl
  | _ => simp_all [append, tokens]

theorem functionNames_append (o o' : Declarations members inClass) :
    (o.append o').functionNames = o.functionNames ++ o'.functionNames := by
  induction o with
  | done => rfl
  | _ => simp_all [append, functionNames]

end Declarations

namespace Depths

/-- Tokens that close exactly what they open. -/
def Balanced (ts : List Token) : Prop :=
  ∀ depths : Depths, depths.Safe ts ∧ ts.foldl after depths = depths

theorem balanced_nil : Balanced [] := fun _ ↦ ⟨trivial, rfl⟩

theorem safe_append {depths : Depths} {ts us : List Token} (hts : depths.Safe ts)
    (hus : (ts.foldl after depths).Safe us) : depths.Safe (ts ++ us) := by
  induction ts generalizing depths with
  | nil => exact hus
  | cons t ts ih => exact ⟨hts.1, ih hts.2 hus⟩

theorem Balanced.append {ts us : List Token} (hts : Balanced ts) (hus : Balanced us) :
    Balanced (ts ++ us) := by
  intro depths
  obtain ⟨hsafe, hafter⟩ := hts depths
  refine ⟨safe_append hsafe (hafter.symm ▸ (hus depths).1), ?_⟩
  rw [List.foldl_append, hafter, (hus depths).2]

/-- A token that is no delimiter. -/
theorem Balanced.cons {t : Token} {ts : List Token}
    (ht : ∀ depths : Depths, depths.after t = depths) (hclosing : ∀ d, t ≠ .closing d)
    (hts : Balanced ts) : Balanced (t :: ts) := by
  intro depths
  obtain ⟨hsafe, hafter⟩ := hts depths
  refine ⟨⟨fun d h ↦ absurd h (hclosing d), (ht depths).symm ▸ hsafe⟩, ?_⟩
  rw [List.foldl_cons, ht, hafter]

theorem Balanced.delimited {ts us : List Token} (d : Delimiter) (hts : Balanced ts)
    (hus : Balanced us) : Balanced (.opening d :: (ts ++ .closing d :: us)) := by
  intro depths
  obtain ⟨hsafe, hafter⟩ := hts (depths.after (.opening d))
  have hclose : (depths.after (.opening d)).after (.closing d) = depths := by cases d <;> rfl
  have hopen : (depths.after (.opening d)).get d ≠ 0 := by cases d <;> simp [after, get, set]
  refine ⟨⟨fun d h ↦ (by simp at h), safe_append hsafe ?_⟩, ?_⟩
  · rw [hafter]
    refine ⟨fun e he ↦ ?_, hclose.symm ▸ (hus depths).1⟩
    obtain rfl : d = e := by simpa using he
    exact hopen
  · rw [List.foldl_cons, List.foldl_append, hafter, List.foldl_cons, hclose, (hus depths).2]

end Depths

theorem Block.balanced_tokens (body : Block) : Depths.Balanced body.tokens := by
  induction body with
  | done => exact Depths.balanced_nil
  | block inner rest ihinner ihrest => exact .delimited .brace ihinner ihrest
  | call text rest ih =>
    have htext : Depths.Balanced [.string text.text] :=
      .cons (fun _ ↦ rfl) (by simp) Depths.balanced_nil
    have hrest : Depths.Balanced (.semicolon :: rest.tokens) := .cons (fun _ ↦ rfl) (by simp) ih
    exact .cons (fun _ ↦ rfl) (by simp) (.delimited .paren htext hrest)

theorem Block.isPlain_of_mem_tokens (body : Block) : ∀ t ∈ body.tokens, t.isPlain = true := by
  induction body with
  | done => simp [tokens]
  | block inner rest ihinner ihrest =>
    simp only [tokens, List.forall_mem_cons, List.forall_mem_append]
    exact ⟨rfl, ihinner, rfl, ihrest⟩
  | call text rest ih =>
    simp only [tokens, List.forall_mem_cons]
    exact ⟨by decide, rfl, text.plain, rfl, rfl, ih⟩

namespace Outline

theorem balanced_furtherNames (more : List Identifier) : Depths.Balanced (furtherNames more) := by
  induction more with
  | nil => exact Depths.balanced_nil
  | cons name more ih => exact .cons (fun _ ↦ rfl) (by simp) (.cons (fun _ ↦ rfl) (by simp) ih)

theorem isPlain_of_mem_furtherNames (more : List Identifier) :
    ∀ t ∈ furtherNames more, t.isPlain = true := by
  simp only [furtherNames, List.mem_flatMap, List.mem_cons, List.not_mem_nil, or_false]
  rintro t ⟨name, -, rfl | rfl⟩
  · rfl
  · exact name.valid

end Outline

theorem Member.balanced_tokens (m : Member) : Depths.Balanced m.tokens := by
  have hend : Depths.Balanced [.colonColon, .ident m.name.word, .equals, .null, .semicolon] :=
    fun _ ↦ ⟨by simp [Depths.Safe], rfl⟩
  have hnames : Depths.Balanced (.ident m.first.word :: (Outline.furtherNames m.more ++
      [.colonColon, .ident m.name.word, .equals, .null, .semicolon])) :=
    .cons (fun _ ↦ rfl) (by simp) ((Outline.balanced_furtherNames m.more).append hend)
  have hlead : Depths.Balanced (if m.global then [.colonColon] else []) := by
    cases m.global
    · exact Depths.balanced_nil
    · exact .cons (fun _ ↦ rfl) (by simp) Depths.balanced_nil
  exact .cons (fun _ ↦ rfl) (by simp) (hlead.append hnames)

theorem Member.isPlain_of_mem_tokens (m : Member) : ∀ t ∈ m.tokens, t.isPlain = true := by
  have hlead : ∀ t ∈ (if m.global then [Token.colonColon] else []), t.isPlain = true := by
    cases m.global <;> simp [Token.isPlain]
  simp only [tokens, List.forall_mem_cons, List.forall_mem_append]
  exact ⟨by decide, hlead, m.first.valid, Outline.isPlain_of_mem_furtherNames m.more, rfl,
    m.name.valid, rfl, rfl, rfl, by simp⟩

namespace Declarations

variable {members inClass : Bool}

theorem balanced_tokens (o : Declarations members inClass) : Depths.Balanced o.tokens := by
  induction o with
  | done => exact Depths.balanced_nil
  | namespaces first more inner rest ihinner ihrest =>
    refine .cons (fun _ ↦ rfl) (by simp) (.cons (fun _ ↦ rfl) (by simp) ?_)
    exact (Outline.balanced_furtherNames more).append (.delimited .brace ihinner ihrest)
  | unnamed inner rest ihinner ihrest =>
    exact .cons (fun _ ↦ rfl) (by simp) (.delimited .brace ihinner ihrest)
  | classBody name inner rest ihinner ihrest =>
    refine .cons (fun _ ↦ rfl) (by simp) (.cons (fun _ ↦ rfl) (by simp) ?_)
    exact .delimited .brace ihinner (.cons (fun _ ↦ rfl) (by simp) ihrest)
  | marker rest ih => exact .cons (fun _ ↦ rfl) (by simp) ih
  | function name body rest ih =>
    refine .cons (fun _ ↦ rfl) (by simp) (.cons (fun _ ↦ rfl) (by simp) ?_)
    exact .delimited .paren Depths.balanced_nil (.delimited .brace body.balanced_tokens ih)
  | member allowed m rest ih => exact m.balanced_tokens.append ih

theorem isPlain_of_mem_tokens (o : Declarations members inClass) :
    ∀ t ∈ o.tokens, t.isPlain = true := by
  induction o with
  | done => simp [tokens]
  | namespaces first more inner rest ihinner ihrest =>
    simp only [tokens, List.forall_mem_cons, List.forall_mem_append]
    exact ⟨rfl, first.valid, Outline.isPlain_of_mem_furtherNames more, rfl, ihinner, rfl, ihrest⟩
  | unnamed inner rest ihinner ihrest =>
    simp only [tokens, List.forall_mem_cons, List.forall_mem_append]
    exact ⟨rfl, rfl, ihinner, rfl, ihrest⟩
  | classBody name inner rest ihinner ihrest =>
    simp only [tokens, List.forall_mem_cons, List.forall_mem_append]
    exact ⟨rfl, name.valid, rfl, ihinner, rfl, rfl, ihrest⟩
  | marker rest ih =>
    simp only [tokens, List.forall_mem_cons]
    exact ⟨rfl, ih⟩
  | function name body rest ih =>
    simp only [tokens, List.forall_mem_cons, List.forall_mem_append]
    exact ⟨by decide, name.valid, rfl, rfl, rfl, body.isPlain_of_mem_tokens, rfl, ih⟩
  | member allowed m rest ih =>
    simp only [tokens, List.forall_mem_append]
    exact ⟨m.isPlain_of_mem_tokens, ih⟩

/-- Reading a text that spells declarations gives their tokens. -/
theorem carries_ofText (o : Declarations members inClass) {text : String}
    (hspell : Spells false o.tokens text.toList) :
    Carries {} (o.tokens ++ [Token.eof]) (Stream.ofText text).items ∧
      (Stream.ofText text).trailing = [] :=
  Stream.carries_ofText hspell o.isPlain_of_mem_tokens (o.balanced_tokens {}).1
    (o.balanced_tokens {}).2

end Declarations

/-- What an outline means at one point of its text, each time with the path of the open scopes. -/
inductive Event
  | entered (path : List String)
  | marked (path : List String)
  | called (path : List String) (text : String)
deriving DecidableEq, Repr

namespace Block

def events (path : List String) : Block → List Event
  | done => []
  | block inner rest => inner.events path ++ rest.events path
  | call text rest => .called path text.text :: rest.events path

theorem events_eq_map (path : List String) (body : Block) :
    body.events path = body.texts.map (.called path) := by
  induction body with
  | done => rfl
  | block inner rest ihinner ihrest => simp [events, texts, ihinner, ihrest]
  | call text rest ih => simp [events, texts, ih]

end Block

/-- Scopes entered one below the other. -/
def Outline.entries (path : List String) : List String → List Event
  | [] => []
  | name :: names => .entered (path ++ [name]) :: entries (path ++ [name]) names

namespace Declarations

variable {members inClass : Bool}

def events {inClass : Bool} (path : List String) : Declarations members inClass → List Event
  | done => []
  | namespaces first more inner rest =>
    let names := (first :: more).map Identifier.word
    Outline.entries path names ++ inner.events (path ++ names) ++ rest.events path
  | unnamed inner rest => inner.events path ++ rest.events path
  | classBody name inner rest =>
    .entered (path ++ [name.word]) :: inner.events (path ++ [name.word]) ++ rest.events path
  | marker rest => .marked path :: rest.events path
  | function _ body rest => body.events path ++ rest.events path
  | member _ _ rest => rest.events path

theorem events_append (path : List String) (o o' : Declarations members inClass) :
    (o.append o').events path = o.events path ++ o'.events path := by
  induction o generalizing path with
  | done => rfl
  | _ => simp_all [append, events]

end Declarations

end Harvest
