import Harvest.Scan

/-!
# Exploring a file tree

Patterns are expanded component by component, and directories are walked without following the
links in them.
-/

namespace Harvest

namespace FileTree

/-- The path of a name in a directory; in the working directory it is the name itself. -/
def child (dir : Path) (name : String) : Path :=
  if dir.same ⟨"."⟩ then ⟨name⟩ else dir.join ⟨name⟩

/-- The paths below a directory that the patterns describe, one pattern to a component, in the order
of their names; a path comes before those below it. Directories nest at most `fuel` deep. -/
def expandFrom (t : FileTree) : Nat → Path → List Glob → List Path
  | _, dir, [] => [dir]
  | 0, _, _ => []
  | fuel + 1, dir, g :: rest =>
    let named (path : Path) (name : String) : List Glob → List Path
      | [] => [path]
      | g :: rest => if g.isMatch name then t.expandFrom fuel path rest else []
    match g.literal? with
    | some name =>
      let path := child dir name
      let found := if name = "." || name = ".." then t.isDirectory dir else (t.locate? path).isSome
      if found then t.expandFrom fuel path rest else []
    | none =>
      if t.isDirectory dir then
        let special : List String :=
          if g.tokens.head? = some (.literal '.') then ["..", "."].filter g.isMatch else []
        let names := ((t.resolve? dir).elim [] t.names).mergeSort (· ≤ ·)
        special.flatMap (fun name => t.expandFrom fuel (dir.join ⟨name⟩) rest) ++
          names.flatMap fun name =>
            let path := child dir name
            if g.isRecursive then
              let rest := rest.dropWhile Glob.isRecursive
              named path name rest ++
                if t.isDirectory path then t.expandFrom fuel path (g :: rest) else []
            else named path name (g :: rest)
      else []

/-- The patterns for the components of a path. -/
def componentGlobs? (p : Path) : Option (List Glob) :=
  let slices := if p.isAbsolute then p.slices.drop 1 else p.slices
  let slices := if slices.getLast? = some "" then slices.dropLast else slices
  slices.mapM Glob.parse?

/-- The paths that a pattern describes; none for a text that is no pattern. -/
def expand (t : FileTree) (pattern : Path) : List Path :=
  match Glob.parse? pattern.text, componentGlobs? pattern with
  | some _, some globs =>
    let depth := (maxLinks + 1) * (t.size + 1) + globs.length
    t.expandFrom depth (if pattern.isAbsolute then ⟨"/"⟩ else ⟨"."⟩) globs
  | _, _ => []

/-- A path and all paths below it; links below it are not followed. -/
def walk? (t : FileTree) (root : Path) : Option (List Path) :=
  (t.resolve? root).map fun location =>
    root :: (t.below location).map fun names => names.foldl (fun path name => path.join ⟨name⟩) root

/-- Looks around in a file tree. -/
def explorer (t : FileTree) : Explorer where
  expand := t.expand
  matcher? text := (Glob.parse? text).map Glob.isMatch
  walk root := (t.walk? root).elim [none] fun paths => paths.map some

end FileTree

end Harvest
