import Harvest.Scope.Forest

/-!
# Resolution of written names

A name written in some scope is resolved to the full name of a scope. Each segment is looked for
among the children and the aliases of a scope, in the file and then in the files it includes, and
after that in the targets of the `using` directives found there. A use looks outward, through the
enclosing scopes; a declaration looks only where it is written.

Resolving reads the forest and changes nothing in it. What it finds out about aliases that were not
settled is collected on the way and recorded in the end.
-/

namespace Harvest

/-- The place of an alias: the scope that declares it and its name there. -/
structure AliasSite where
  scope : ScopeRef
  name : String
deriving DecidableEq, Repr

/-- What aliases turned out to stand for, the latest first. -/
abbrev Findings := List (AliasSite × Option Name)

/-- A name that is resolved in part: the longest resolved beginning, the global scope if there is
none, and the segments after it. -/
structure PartialName where
  resolved : Name
  unresolved : List String
deriving DecidableEq, Repr

namespace Forest

/-- The alias at a site. -/
def aliasAt? (f : Forest) (site : AliasSite) : Option Alias := (f.scope site.scope).alias? site.name

/-- What is written for the alias at a site. -/
def writtenAt (f : Forest) (site : AliasSite) : List String :=
  ((f.aliasAt? site).map fun a => a.written.segments).getD []

/-- What is settled about an alias, in the forest or since. -/
def settled? (f : Forest) (site : AliasSite) (findings : Findings) : Option (Option Name) :=
  match (f.aliasAt? site).bind Alias.resolution with
  | some target => some target
  | none => findings.lookup site

/-- The aliases that are neither settled nor being resolved. -/
def idleAliases (f : Forest) : List AliasSite :=
  (List.range f.trees.size).flatMap fun t =>
    (List.range (f.tree t).scopes.size).flatMap fun s =>
      ((f.scope ⟨t, s⟩).aliases.filter fun (_, a) => a.resolution.isNone && !a.busy).map
        fun (name, _) => ⟨⟨t, s⟩, name⟩

/-- Changes the alias at a site. -/
def modifyAlias (f : Forest) (site : AliasSite) (change : Alias → Alias) : Forest :=
  f.modifyScope site.scope fun s => s.modifyAlias site.name change

/-- Records findings in the forest. -/
def record (f : Forest) (findings : Findings) : Forest :=
  findings.foldl (fun f (site, target) => f.modifyAlias site fun a => a.settle target) f

end Forest

namespace Qualify

/-- How the alias at a site in the scope called `here` is resolved. -/
abbrev Resolver (m : Type → Type) := Name → AliasSite → m (Option Name)

/-- How a segment is looked for, beginning in the scopes with a name. -/
abbrev Finder (m : Type → Type) := Name → String → m (Option Name)

/-- The targets of the `using` directives in the scopes called `here`. -/
def usingsAt (f : Forest) (trees : List Nat) (here : Name) : List Name :=
  (f.scopesAt trees (here.below here.length)).flatMap fun r => (f.scope r).usings

/-- All targets of `using` directives. -/
def allUsings (f : Forest) (trees : List Nat) : List Name :=
  trees.flatMap fun t => (f.tree t).scopes.toList.flatMap Scope.usings

/-- The names in which a segment is looked for after the scopes called `here`. -/
def usingOrder (f : Forest) (trees : List Nat) (here : Name) : List Name :=
  preorder id (usingsAt f trees) (allUsings f trees) (usingsAt f trees here)

/-- The scopes that enclose `here[..count]`, itself first and the global scope last. -/
def outward (here : Name) (count : Nat) : List Name :=
  (List.range (max count 1)).reverse.map fun k => here.take (k + 1)

variable {m : Type → Type} [Monad m]

/-- The first result of `look` over a list. -/
def first {α β : Type} (look : α → m (Option β)) : List α → m (Option β)
  | [] => pure none
  | a :: as => do
    match ← look a with
    | some b => pure (some b)
    | none => first look as

/-- A segment in one scope, which is called `here`: a child or else an alias. -/
def own (f : Forest) (resolve : Resolver m) (here : Name) (segment : String) (r : ScopeRef) :
    m (Option Name) :=
  let s := f.scope r
  if (s.child? segment).isSome then pure (some (here.push segment))
  else if (s.alias? segment).isSome then resolve here ⟨r, segment⟩
  else pure none

/-- A segment in the scopes called `here`. -/
def ownAt (f : Forest) (trees : List Nat) (resolve : Resolver m) (segment : String) (here : Name) :
    m (Option Name) :=
  first (own f resolve here segment) (f.scopesAt trees (here.below here.length))

/-- One segment, looked for in the scopes called `here`, then over `using` directives. -/
def one (f : Forest) (trees : List Nat) (resolve : Resolver m) : Finder m := fun here segment =>
  first (ownAt f trees resolve segment) (here :: usingOrder f trees here)

/-- The segments after a resolved beginning. -/
def onward (find : Finder m) (resolved : Name) : List String → m (Except PartialName Name)
  | [] => pure (.ok resolved)
  | segment :: segments => do
    match ← find resolved segment with
    | some n => onward find n segments
    | none => pure (.error ⟨resolved, segment :: segments⟩)

/-- The segments of a written name without a leading `::`, from the first place of `places` at which
the first of them is found. -/
def within (find : Finder m) (places : List Name) (segments : List String) :
    m (Except PartialName Name) :=
  match segments with
  | [] => pure (.ok Name.root)
  | segment :: rest => do
    match ← first (fun here => find here segment) places with
    | some n => onward find n rest
    | none => pure (.error ⟨Name.root, segments⟩)

/-- The name `segments`, written in the scope `here[..count]`. -/
def name (find : Finder m) (here : Name) (count : Nat) (segments : List String)
    (declaration : Bool) : m (Except PartialName Name) :=
  match segments with
  | [] => pure (.error ⟨Name.root, []⟩)
  | segment :: rest =>
    let global := segment = ""
    if here.segments = [] then pure (.error ⟨Name.root, if global then rest else segments⟩)
    else if global then within find [here.take 1] rest
    else
      let places := outward here (min count here.length)
      within find (if declaration then places.take 1 else places) segments

/-- What the alias at `site`, in the scope called `here`, stands for. An alias that is not settled
is resolved as a use at its place; an alias that is not in `idle` is being resolved already and
stands for nothing meanwhile. -/
def target (f : Forest) (trees : List Nat) (idle : List AliasSite) (here : Name)
    (site : AliasSite) : StateM Findings (Option Name) := do
  match f.settled? site (← get) with
  | some target => pure target
  | none =>
    if _h : site ∈ idle then
      let inner : Resolver (StateM Findings) := fun here inner =>
        target f trees (without site idle) here inner
      let outcome ← name (one f trees inner) here here.length (f.writtenAt site) false
      modify ((site, outcome.toOption) :: ·)
      pure outcome.toOption
    else pure none
termination_by idle.length
decreasing_by exact length_without_lt _h

end Qualify

namespace Forest

/-- How segments are looked for in the trees, where the aliases in `idle` may be resolved. -/
def finder (f : Forest) (trees : List Nat) (idle : List AliasSite) :
    Qualify.Finder (StateM Findings) :=
  Qualify.one f trees (Qualify.target f trees idle)

/-- Resolves one segment in the scope called `here`, as seen from the file `t`. -/
def qualifyOne (f : Forest) (t : Nat) (here : Name) (segment : String) : Option Name × Forest :=
  let find := f.finder (f.order t) f.idleAliases
  let (outcome, findings) := (find here segment).run []
  (outcome, f.record findings)

/-- Resolves a name written in the scope `here[..count]`, as seen from the file `t`. -/
def qualify (f : Forest) (t : Nat) (here : Name) (count : Nat) (segments : List String)
    (declaration : Bool) : Except PartialName Name × Forest :=
  let find := f.finder (f.order t) f.idleAliases
  let (outcome, findings) := (Qualify.name find here count segments declaration).run []
  (outcome, f.record findings)

/-- Resolves a written name in the scope `here`. -/
def qualifyWritten (f : Forest) (t : Nat) (here : Name) (written : String) (declaration : Bool) :
    Except PartialName Name × Forest :=
  f.qualify t here here.length (Name.ofWritten written).segments declaration

end Forest

end Harvest
