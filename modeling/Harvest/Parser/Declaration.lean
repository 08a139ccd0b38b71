import Harvest.Parser.State

/-!
# Reading declarations

Class heads, namespaces, namespace aliases and `using`.
-/

namespace Harvest.Parser

/-- A name as written, possibly with a leading `::`; it ends at the first other token. -/
def writtenFrom : Nat → Name → Parser → Name × Parser
  | 0, written, p => (written, p)
  | n + 1, written, p =>
    match p.token with
    | .colonColon => writtenFrom n written p.advance
    | .ident word => writtenFrom n (written.push word) p.advance
    | _ => (written, p)

def written (p : Parser) : Name × Parser :=
  writtenFrom p.budget (if p.token = .colonColon then Name.root else Name.empty) p

/-- Resolves a name as a use in the open scope. -/
def qualifyHere (p : Parser) (n : Name) : Except PartialName Name × Parser :=
  let here := p.snapshot.namespaces
  let (outcome, forest) := p.forest.qualify p.tree here here.length n.segments false
  (outcome, p.setForest forest)

/-- Adds an alias to the open scope; it is resolved now if that is possible. -/
def addAlias (p : Parser) (name : String) (target : Name) : Parser :=
  match p.qualifyHere target with
  | (.ok target, p) => p.modifyOpenScope fun s => s.setAlias name (Alias.resolved target)
  | (.error _, p) => p.modifyOpenScope fun s => s.setAlias name (Alias.pending target)

/-! ### Classes -/

/-- The name of a class after its first identifier: the name so far and its qualifier. Of two
identifiers in a row the later one is the name. -/
def classNameFrom : Nat → String → List String → Parser → (String × List String) × Parser
  | 0, name, qualifier, p => ((name, qualifier), p)
  | n + 1, name, qualifier, p =>
    match p.token with
    | .colonColon =>
      let p := p.advance
      match p.token with
      | .ident word => classNameFrom n word (qualifier ++ [name]) p.advance
      | _ => ((name, qualifier), p)
    | .ident word =>
      if word = "final" then ((name, qualifier), p.advance) else classNameFrom n word [] p.advance
    | _ => ((name, qualifier), p)

/-- How a list of base classes ends. -/
inductive HeadEnd
  | body
  | declaration
  | cancelled
  | eof
deriving DecidableEq, Repr

/-- The base classes from the token after the current one on. `current` is the one that is being
read; after a template argument list none is collected. -/
def basesFrom : Nat → Bool → String → List String → Parser → HeadEnd × List String × Parser
  | 0, _, _, bases, p => (.eof, bases, p)
  | n + 1, collecting, current, bases, p =>
    let p := p.advance
    let all := if collecting && current ≠ "" then bases ++ [current] else bases
    match p.token with
    | .eof => (.eof, bases, p)
    | .cancel => (.cancelled, bases, p)
    | .opening .brace => (.body, all, p)
    | .semicolon => (.declaration, all, p)
    | .ident word =>
      let current := if current ≠ "" && !current.endsWith "::" then word else current ++ word
      basesFrom n collecting (if collecting then current else "") bases p
    | .colonColon => basesFrom n collecting (if collecting then current ++ "::" else "") bases p
    | .comma => if collecting then basesFrom n true "" all p else basesFrom n false "" bases p
    | .angle => basesFrom n false "" all p
    | _ => basesFrom n collecting current bases p

/-- Resolves base classes as uses in the scope `enclosing`; the others are left out. -/
def resolveBases (f : Forest) (t : Nat) (enclosing : Name) : List String → List Name × Forest
  | [] => ([], f)
  | base :: bases =>
    match f.qualifyWritten t enclosing base false with
    | (.ok n, f) =>
      let (names, f) := resolveBases f t enclosing bases
      (n :: names, f)
    | (.error _, f) => resolveBases f t enclosing bases

/-- Enters the body of a class that is defined in the scope `enclosing`. -/
def enterClass (p : Parser) (enclosing : Name) (name : String) (bases : List String) : Parser :=
  let (bases, forest) := resolveBases p.forest p.tree enclosing bases
  let p := (p.setForest forest).pushDepth
  let p := (p.setSnapshot { p.snapshot with namespaces := enclosing }).enter name
  let p := if bases.isEmpty then p else p.modifyOpenScope fun s => { s with bases }
  p.beginBody

/-- The body of a class begins. The qualifier of its name has to be declared already. -/
def defineClass (p : Parser) (name : String) (qualifier bases : List String) : Parser :=
  let here := p.snapshot.namespaces
  if qualifier.isEmpty then p.enterClass here name bases
  else
    match p.forest.qualify p.tree here here.length qualifier true with
    | (.ok enclosing, forest) => (p.setForest forest).enterClass enclosing name bases
    | (.error _, forest) =>
      (p.setForest forest).report .undeclaredQualifiedClass
        "Ignoring definition of undeclared qualified class"

/-- What follows `class` or `struct`, from the token after it on. A macro that ends within the head
gives it up. -/
def classHead (p : Parser) : Parser :=
  match p.token with
  | .opening .brace => p.enterUnnamed
  | .ident first =>
    let ((name, qualifier), p) := classNameFrom p.budget first [] p.advance
    if p.token.isColon || p.token = .angle then
      match basesFrom p.budget p.token.isColon "" [] p with
      | (.body, bases, p) => p.defineClass name qualifier bases
      | (.cancelled, _, p) => p.advance
      | (_, _, p) => p
    else if p.token = .opening .brace then p.defineClass name qualifier []
    else p
  | _ => p

/-! ### Namespaces -/

/-- The names in `namespace a::b::c`, from the first one on, which is the current token. -/
def namespacePath : Nat → List String → Parser → List String × Parser
  | 0, names, p => (names, p)
  | n + 1, names, p =>
    match p.token with
    | .ident word =>
      let p := p.advance
      if p.token = .colonColon then
        let p := p.advance
        if p.token.ident?.isSome then namespacePath n (names ++ [word]) p
        else (names ++ [word], p)
      else (names ++ [word], p)
    | _ => (names, p)

/-- What follows `namespace`, which is the current token. -/
def namespaceHead (p : Parser) : Parser :=
  let p := p.advance
  match p.token with
  | .ident _ =>
    let (names, p) := namespacePath p.budget [] p
    match p.token with
    | .opening .brace => (names.foldl enter p.pushDepth).beginBody
    | .equals =>
      let (target, p) := p.advance.written
      if target.segments.isEmpty then p else p.addAlias (names.getLastD "") target
    | _ => p
  | .opening .brace => p.enterUnnamed
  | _ => p

/-- What follows `using`, which is the current token. -/
def usingHead (p : Parser) : Parser :=
  let p := p.advance
  if p.token = .namespaceWord then
    let (target, p) := p.advance.written
    match p.qualifyHere target with
    | (.ok target, p) => p.modifyOpenScope fun s => { s with usings := s.usings ++ [target] }
    | (.error _, p) => p
  else
    let (target, p) := p.written
    match target.segments.getLast? with
    | none => p
    | some name => if name = "" then p else p.addAlias name target

end Harvest.Parser
