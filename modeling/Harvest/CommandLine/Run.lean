import Harvest.CommandLine.Arguments

/-!
# Running commands

What a command prints, how it ends and which file it makes, given the files that there are.
-/

namespace Harvest

/-- Why a command could not do its work. -/
inductive RunError
  | config (e : ConfigError)
  | create (file : Path)
deriving DecidableEq, Repr

namespace RunError

def message : RunError → String
  | config e => e.message
  | create file => "Failed to create " ++ file.text

end RunError

/-- A file that a command makes in a directory. -/
structure NewFile where
  dir : Path
  name : String
  text : String
deriving DecidableEq, Repr

structure Outcome where
  stdout : String := ""
  stderr : String := ""
  status : Except RunError ExitStatus := .ok .success
  created : Option NewFile := none

namespace Command

def version : String := "trscan 0.1.0\n"

def help : String :=
  Listing.lines [
    "A fast scanner that extracts translatable strings and their contexts from C++ sources",
    "",
    "Usage: trscan [COMMAND]",
    "",
    "Commands:",
    "  extract  Extract translatable messages and their contexts",
    "  init     Initialize a new .trscanrc.json configuration file",
    "  help     Print this message or the help of the given subcommand(s)",
    "",
    "Options:",
    "  -h, --help     Print help",
    "  -V, --version  Print version"]

/-- Extracts the messages of a project. Messages are printed apart from all else. -/
def runExtract (t : FileTree) (settings : Settings) (format : OutputFormat) : Outcome :=
  match Project.load t settings with
  | .error e => { status := .error (.config e) }
  | .ok project =>
    let report := project.report
    let summary := project.summary report
    { stdout := Listing.messages report.messages format
      stderr := Listing.unreadable (project.unreadable.map Unreadable.reason) ++
        Listing.diagnostics project.sourceLine report.diagnostics ++ summary.render
      status := .ok summary.status }

/-- The name under which a configuration file is shown: in the working directory it stands alone. -/
def shownConfig (dir : Path) : String :=
  if dir.same ⟨"."⟩ then Config.fileName else (dir.join ⟨Config.fileName⟩).text

/-- Makes a configuration file with the defaults, unless there is one. -/
def runInit (t : FileTree) (dir : Path) : Outcome :=
  let file := dir.join ⟨Config.fileName⟩
  if (t.locate? file).isSome then
    { stderr := "Error: " ++ shownConfig dir ++ " already exists\n", status := .ok .failure }
  else if t.isDirectory dir then
    { stdout := successMark ++ " Created " ++ shownConfig dir ++ "\n"
      created := some ⟨dir, Config.fileName, ({} : Config).toJson.render 0⟩ }
  else { status := .error (.create file) }

/-- Runs a command; without one the help is printed. -/
def run (t : FileTree) : Option Command → Outcome
  | some (extract settings format) => runExtract t settings format
  | some (init dir) => runInit t dir
  | none => { stdout := help }

end Command

end Harvest
