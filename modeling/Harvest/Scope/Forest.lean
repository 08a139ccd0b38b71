import Harvest.Name
import Harvest.Traversal

/-!
# Scope forests

The namespaces and classes of every file that was read. Each file has a tree of scopes with the
global scope at number zero. A tree names the trees of the files it includes, so that a tree may be
shared, and a scope names the scope that defines it, which is itself or a scope of an included file
at the same path.
-/

namespace Harvest

/-- A scope: the number of its tree in the forest and its number in that tree. -/
structure ScopeRef where
  tree : Nat
  scope : Nat
deriving DecidableEq, Repr

/-- Another name for a scope. What it stands for is settled when it is declared or at its first
use; a name that cannot be resolved then stands for nothing. -/
structure Alias where
  written : Name
  /-- `none` as long as nothing is settled, `some none` for an alias that stands for nothing. -/
  resolution : Option (Option Name) := none
  /-- The alias is being resolved. -/
  busy : Bool := false
deriving DecidableEq, Repr

namespace Alias

def resolved (target : Name) : Alias := { written := target, resolution := some (some target) }

def pending (written : Name) : Alias := { written }

/-- Records what an alias stands for, if that is not settled. -/
def settle (a : Alias) (target : Option Name) : Alias :=
  { a with resolution := a.resolution.or (some target), busy := false }

end Alias

structure Scope where
  children : List (String × Nat) := []
  aliases : List (String × Alias) := []
  /-- The targets of `using namespace` directives. -/
  usings : List Name := []
  /-- The base classes that could be resolved, in the order of declaration. -/
  bases : List Name := []
  /-- The scope whose localization support counts for this one. -/
  definition : ScopeRef
  supportsTr : Bool := false
  /-- The context of calls that belong to this scope, once it is settled. -/
  qualification : Option String := none
  /-- The lack of localization support was reported. -/
  complained : Bool := false
deriving DecidableEq, Repr

namespace Scope

def child? (s : Scope) (segment : String) : Option Nat := s.children.lookup segment

def alias? (s : Scope) (segment : String) : Option Alias := s.aliases.lookup segment

def setAlias (s : Scope) (segment : String) (a : Alias) : Scope :=
  { s with aliases := (segment, a) :: s.aliases.filter fun (name, _) => name ≠ segment }

def modifyAlias (s : Scope) (segment : String) (change : Alias → Alias) : Scope :=
  { s with aliases := s.aliases.map fun (name, a) =>
      (name, if name = segment then change a else a) }

end Scope

structure ScopeTree where
  fileId : Nat
  scopes : Array Scope
  /-- The included files, in the order of their ids: id and tree number. -/
  includes : List (Nat × Nat) := []
deriving DecidableEq, Repr

structure Forest where
  trees : Array ScopeTree := #[]
deriving DecidableEq, Repr

namespace Forest

/-- Adds the tree of a file, which has a global scope and nothing else. -/
def plant (f : Forest) (fileId : Nat) : Forest :=
  ⟨f.trees.push { fileId, scopes := #[{ definition := ⟨f.trees.size, 0⟩ }] }⟩

def tree (f : Forest) (t : Nat) : ScopeTree := f.trees.getD t { fileId := 0, scopes := #[] }

def scope (f : Forest) (r : ScopeRef) : Scope :=
  (f.tree r.tree).scopes.getD r.scope { definition := r }

def modifyTree (f : Forest) (t : Nat) (change : ScopeTree → ScopeTree) : Forest :=
  ⟨f.trees.modify t change⟩

def modifyScope (f : Forest) (r : ScopeRef) (change : Scope → Scope) : Forest :=
  f.modifyTree r.tree fun t => { t with scopes := t.scopes.modify r.scope change }

/-- The definition of a scope. -/
def definition (f : Forest) (r : ScopeRef) : ScopeRef := (f.scope r).definition

/-- Adds a scope below another; without a given definition it defines itself. -/
def addChild (f : Forest) (parent : ScopeRef) (segment : String) (definition : Option ScopeRef) :
    Forest × ScopeRef :=
  let r : ScopeRef := ⟨parent.tree, (f.tree parent.tree).scopes.size⟩
  let f := f.modifyTree r.tree fun t =>
    { t with scopes := t.scopes.push { definition := definition.getD r } }
  (f.modifyScope parent fun s => { s with children := s.children ++ [(segment, r.scope)] }, r)

/-- Puts an entry in its place among entries in increasing order, unless its key is there. -/
def insertAbsent (key value : Nat) : List (Nat × Nat) → List (Nat × Nat)
  | [] => [(key, value)]
  | (k, v) :: rest =>
    if key = k then (k, v) :: rest
    else if key < k then (key, value) :: (k, v) :: rest
    else (k, v) :: insertAbsent key value rest

/-- Makes one file include another; of two files with one id the first one stays. -/
def addInclude (f : Forest) (t included : Nat) : Forest :=
  f.modifyTree t fun tree =>
    { tree with includes := insertAbsent (f.tree included).fileId included tree.includes }

/-- A file that declares nothing and includes exactly one file. -/
def isForwarding (f : Forest) (t : Nat) : Bool :=
  let root := f.scope ⟨t, 0⟩
  (f.tree t).includes.length = 1 && root.children.isEmpty && root.aliases.isEmpty &&
    root.usings.isEmpty

/-! ### Looking up paths -/

/-- Follows a path of children downwards. -/
def descend (f : Forest) (r : ScopeRef) : List String → Option ScopeRef
  | [] => some r
  | segment :: path =>
    match (f.scope r).child? segment with
    | none => none
    | some child => descend f ⟨r.tree, child⟩ path

/-- The scope at a path below the global scope of a tree. -/
def walk (f : Forest) (t : Nat) (path : List String) : Option ScopeRef := f.descend ⟨t, 0⟩ path

/-- The files that a file includes itself. -/
def included (f : Forest) (t : Nat) : List Nat := (f.tree t).includes.map Prod.snd

def fileId (f : Forest) (t : Nat) : Nat := (f.tree t).fileId

/-- The ids of all included files. -/
def includedIds (f : Forest) : List Nat :=
  (List.range f.trees.size).flatMap fun t => (f.included t).map f.fileId

/-- The trees in which names of the file `t` are looked up: its own, then those of the files it
includes, directly or not, each file id once. -/
def order (f : Forest) (t : Nat) : List Nat :=
  t :: preorder f.fileId f.included f.includedIds (f.included t)

/-- The scopes at a path, in the order of look-up. -/
def scopesAt (f : Forest) (trees : List Nat) (path : List String) : List ScopeRef :=
  trees.filterMap fun t => f.walk t path

/-- The first scope at a path. -/
def find? (f : Forest) (t : Nat) (path : List String) : Option ScopeRef :=
  (f.order t).findSome? fun t => f.walk t path

/-- The first scope with a name. -/
def findName? (f : Forest) (t : Nat) (n : Name) : Option ScopeRef := f.find? t (n.below n.length)

end Forest

end Harvest
