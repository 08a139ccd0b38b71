import Harvest.Config
import Harvest.Exploration
import Harvest.Extract
import Harvest.Listing
import Harvest.Summary
import Harvest.Text.Lines

/-!
# Projects

A project is what one extraction works on: the source files that a scan finds and the options from
the configuration, to which the user adds. Files that cannot be read are reported and left out.
-/

namespace Harvest

/-- What the user asks for beside the configuration. -/
structure Settings where
  /-- The directory of the project. -/
  root : Path := ⟨"."⟩
  includePaths : List Path := []
  excludes : List String := []
  spellings : List String := []
  verbose : Bool := false

structure Project where
  root : Path
  tree : FileTree
  options : Options
  scan : Scan

/-- A file that could not be read, and why. -/
structure Unreadable where
  path : Path
  reason : String
deriving DecidableEq, Repr

namespace Project

/-- The configuration with the user's entries after its own. -/
def configured (c : Config) (s : Settings) : Config :=
  { c with excludes := c.excludes ++ s.excludes, spellings := c.spellings ++ s.spellings }

def load (t : FileTree) (s : Settings) : Except ConfigError Project := do
  let (config, _) ← Config.load t s.root
  let config := configured config s
  let regexes ← config.excludeRegexes
  let calls ← config.callTable
  return {
    root := s.root
    tree := t
    options := {
      includePaths := config.includePathsFrom s.root ++ s.includePaths
      excludes := fun path => regexes.any fun r => r.isMatch path.text
      calls }
    scan := Scan.run t t.explorer (s.root.join ⟨config.sourceRoot⟩) config.includes config.ignores
      config.extensions }

/-- The source files, cleaned. -/
def files (p : Project) : List Path := Scan.sorted (p.scan.files.map Path.clean)

/-- The source files that can be read, with their texts. -/
def inputs (p : Project) : List (Path × String) :=
  p.files.filterMap fun path =>
    match p.tree.readText path with
    | .ok source => some (path, source)
    | .error _ => none

def unreadable (p : Project) : List Unreadable :=
  p.files.filterMap fun path =>
    match p.tree.readText path with
    | .ok _ => none
    | .error e => some ⟨path, "Failed to read " ++ path.text ++ ": " ++ e.message⟩

def report (p : Project) : Report :=
  ({ options := p.options, files := p.tree : Extractor }.extractFiles p.inputs).1

/-- A line of a source file, counted from one. -/
def sourceLine (p : Project) : Path → Nat → Option String :=
  Listing.lineOf (p.inputs.map fun (path, source) => (path, Text.lines source))

/-- The counts of a report. Every file that could not be read is an error. -/
def summary (p : Project) (r : Report) : Summary where
  messages := r.messages.length
  files := p.inputs.length
  errors := r.diagnostics.countP (fun d => d.severity = .error) + p.unreadable.length
  warnings := r.diagnostics.countP fun d => d.severity = .warning

end Project

end Harvest
