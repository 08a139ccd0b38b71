import Harvest.FileTree
import Harvest.Pattern.Glob

/-!
# Finding the source files

The files of a project are those below its include directories, given as paths or as patterns, that
have one of the extensions and that no ignore entry covers. An entry without a wildcard is a path
seen from the base directory and covers all that lies below it; one with a wildcard is matched
against the whole path of a file. Paths keep the spelling in which they were reached. What patterns
mean and how directories are walked is left to an explorer.
-/

namespace Harvest

/-- How a scan looks around. -/
structure Explorer where
  /-- The paths that a pattern describes; none for a text that is no pattern. -/
  expand : Path → List Path
  /-- Which texts a pattern matches; `none` for a text that is no pattern. -/
  matcher? : String → Option (String → Bool)
  /-- A path and the paths below it, with `none` for each that cannot be reached. -/
  walk : Path → List (Option Path)

/-- What is left out of a scan. -/
structure Ignores where
  paths : List Path
  matchers : List (String → Bool)

namespace Ignores

def ofEntries (x : Explorer) (base : Path) (entries : List String) : Ignores where
  paths := (entries.filter fun entry => !Glob.hasWildcard entry).map fun entry => base.join ⟨entry⟩
  matchers := (entries.filter Glob.hasWildcard).filterMap x.matcher?

def covers (ignores : Ignores) (path : Path) : Bool :=
  ignores.paths.any path.startsWith || ignores.matchers.any fun isMatch => isMatch path.text

end Ignores

/-- The files found, in their order, and how many paths could not be reached. -/
structure Scan where
  files : List Path
  skipped : Nat
deriving DecidableEq

namespace Scan

/-- Whether a path has one of the extensions, in capitals or not. -/
def hasExtension (extensions : List String) (path : Path) : Bool :=
  match path.extension? with
  | some ext => extensions.any fun e => e.toLower = ext.toLower
  | none => false

/-- The paths at which a scan starts. -/
def roots (t : FileTree) (x : Explorer) (base : Path) (includes : List String) : List Path :=
  if includes.isEmpty then [base]
  else
    includes.flatMap fun entry =>
      let path := base.join ⟨entry⟩
      if Glob.hasWildcard entry then (x.expand path).filter t.isDirectory
      else if t.exists? path then [path] else []

/-- Paths in their order, each once in the spelling that came first. -/
def sorted (paths : List Path) : List Path := (paths.eraseDupsBy Path.same).mergeSort Path.le

def run (t : FileTree) (x : Explorer) (base : Path) (includes ignores extensions : List String) :
    Scan :=
  let paths := (roots t x base includes).flatMap x.walk
  let ignores := Ignores.ofEntries x base ignores
  let found := (paths.filterMap id).filter fun path =>
    !ignores.covers path && t.isFile path && hasExtension extensions path
  ⟨sorted found, paths.countP Option.isNone⟩

end Scan

end Harvest
