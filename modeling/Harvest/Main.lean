import Harvest.CommandLine.Run

/-!
# The program

Reads the directories that a command may look at into a file tree, runs the command on it, prints
what it says and writes the file that it makes.
-/

namespace Harvest

/-- The names on the way from the root to an absolute path. -/
def locationOf (path : String) : Location :=
  (Path.mk path).parts.filterMap fun part =>
    match part with
    | .normal name => some name
    | _ => none

/-- What a file holds, if it may be read. -/
def readEntry (file : String) : IO Entry := do
  try return .file (← IO.FS.readBinFile file)
  catch _ => return .locked

/-- Adds what is in a directory, links as links to where they lead. -/
partial def readDirectory (dir : String) (location : Location)
    (entries : Array (Location × Entry)) : IO (Array (Location × Entry)) := do
  let mut entries := entries
  for item in ← (← IO.FS.realPath dir).readDir do
    let place := location ++ [item.fileName]
    match (← item.path.symlinkMetadata).type with
    | .dir =>
      entries ← readDirectory item.path.toString place (entries.push (place, .directory))
    | .symlink =>
      let target ← try pure (← IO.FS.realPath item.path).toString catch _ => pure ""
      entries := entries.push (place, .link target)
    | .file => entries := entries.push (place, ← readEntry item.path.toString)
    | .other => pure ()
  return entries

/-- The directories that hold a location, with the files in them that end the search for a
configuration or answer it. -/
def readHolders (location : Location) : IO (List (Location × Entry)) := do
  let mut entries := []
  for n in List.range (location.length + 1) do
    let holder := location.take n
    let path := "/" ++ "/".intercalate holder
    if n > 0 then entries := (holder, .directory) :: entries
    for name in [Config.fileName, ".git"] do
      try
        let file ← IO.FS.realPath (path ++ "/" ++ name)
        if ← file.isDir then entries := (holder ++ [name], .directory) :: entries
        else entries := (holder ++ [name], ← readEntry file.toString) :: entries
      catch _ => pure ()
  return entries

/-- Reads directories with all that is below them. -/
def readTree (dirs : List Path) : IO FileTree := do
  let home := locationOf (← IO.currentDir).toString
  let mut entries := #[]
  for dir in dirs do
    try
      let path := (← IO.FS.realPath dir.text).toString
      let location := locationOf path
      entries ← readDirectory path location (entries ++ (← readHolders location).toArray)
    catch _ => pure ()
  return { entries := entries.toList, home }

/-- The files that a command may look at. -/
def readFor : Option Command → IO FileTree
  | none => return {}
  | some (.init dir) => readTree [⟨"."⟩, dir]
  | some (.extract settings _) => do
    let dirs := [⟨"."⟩, settings.root]
    let tree ← readTree dirs
    match Config.load tree settings.root with
    | .error _ => return tree
    | .ok (config, _) =>
      readTree (dirs ++ settings.root.join ⟨config.sourceRoot⟩ ::
        config.includePathsFrom settings.root ++ settings.includePaths)

def RunError.report (e : RunError) : String :=
  let cause :=
    match e with
    | .config e => e.cause?.elim "" fun cause => ": " ++ cause.message
    | .create _ => ""
  "Error: " ++ e.message ++ cause

def UsageError.report : UsageError → String
  | .unknownArgument => "error: unexpected argument"
  | .unknownCommand => "error: unrecognized subcommand"
  | .invalidValue => "error: invalid value"
  | .repeatedFlag => "error: an argument cannot be used multiple times"
  | .unneededValue => "error: unexpected value"
  | .help | .version => ""

end Harvest

open Harvest in
def main (arguments : List String) : IO UInt32 := do
  match Command.read arguments with
  | .error .help =>
    IO.print Command.help
    return 0
  | .error .version =>
    IO.print Command.version
    return 0
  | .error e =>
    IO.eprintln e.report
    return UInt32.ofNat ExitStatus.error.code
  | .ok command =>
    let outcome := Command.run (← readFor command) command
    IO.print outcome.stdout
    IO.eprint outcome.stderr
    if let some file := outcome.created then
      IO.FS.writeFile (file.dir.join ⟨file.name⟩).text file.text
    match outcome.status with
    | .ok status => return UInt32.ofNat status.code
    | .error e =>
      IO.eprintln e.report
      return UInt32.ofNat ExitStatus.error.code
