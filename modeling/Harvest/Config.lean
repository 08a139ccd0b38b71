import Harvest.Call
import Harvest.FileTree
import Harvest.JsonValue.Reader
import Harvest.Pattern.Glob
import Harvest.Pattern.Regex.Reader
import Harvest.Text.Quoted

/-!
# Configuration

What a project says about itself in its configuration file: where its sources are and which of them
count, where its includes are, and how it spells the localization calls. The file is looked for in a
directory and in those above it, up to the one that holds a repository. A configuration is checked
in full before it is used.
-/

namespace Harvest

structure Config where
  /-- Directories to scan, as paths or as patterns. -/
  includes : List String := ["."]
  ignores : List String := []
  extensions : List String :=
    ["c", "c++", "cc", "cpp", "cxx", "ch", "h", "h++", "hh", "hpp", "hxx"]
  includePaths : List String := []
  /-- Regular expressions for include files that are not followed. -/
  excludes : List String := []
  /-- Specifications of spellings. -/
  spellings : List String := []
  /-- Where scanning begins, seen from the directory of the project. -/
  sourceRoot : String := "./"
deriving DecidableEq, Repr

/-- Why a configuration cannot be used. -/
inductive ConfigError
  | unreadable (file : Path)
  | malformed (file : Path)
  | ignorePattern (text : String)
  | includePattern (text : String)
  | excludePattern (text : String)
  | spelling (spec : String) (cause : SpellingError)
deriving DecidableEq, Repr

namespace ConfigError

def message : ConfigError → String
  | unreadable file => "Failed to read config file: " ++ Text.Quoted.encode file.text
  | malformed file => "Failed to parse config file: " ++ Text.Quoted.encode file.text
  | ignorePattern text => "Invalid glob pattern in 'ignores': \"" ++ text ++ "\""
  | includePattern text => "Invalid glob pattern in 'includes': \"" ++ text ++ "\""
  | excludePattern text => "Invalid regex in 'excludes': \"" ++ text ++ "\""
  | spelling spec _ => "Invalid entry in 'trFunctionAliases': \"" ++ spec ++ "\""

/-- The mistake that made an entry invalid, where it has a wording of its own. -/
def cause? : ConfigError → Option SpellingError
  | spelling _ cause => some cause
  | _ => none

end ConfigError

namespace Config

def fileName : String := ".trscanrc.json"

/-- The keys of the fields, in their order. -/
def keys : List String :=
  ["includes", "ignores", "extensions", "includePaths", "excludes", "trFunctionAliases",
    "sourceRoot"]

def toJson (c : Config) : JsonValue :=
  .record [("includes", .texts c.includes), ("ignores", .texts c.ignores),
    ("extensions", .texts c.extensions), ("includePaths", .texts c.includePaths),
    ("excludes", .texts c.excludes), ("trFunctionAliases", .texts c.spellings),
    ("sourceRoot", .text c.sourceRoot)]

/-- Reads the values of the fields, in their order. A field without a value has its default. -/
def ofValues? (values : List (Option JsonValue)) : Option Config := do
  let texts (place : Nat) (default : List String) : Option (List String) :=
    match values[place]? with
    | some (some value) => value.texts?
    | _ => some default
  let default : Config := {}
  return {
    includes := ← texts 0 default.includes
    ignores := ← texts 1 default.ignores
    extensions := ← texts 2 default.extensions
    includePaths := ← texts 3 default.includePaths
    excludes := ← texts 4 default.excludes
    spellings := ← texts 5 default.spellings
    sourceRoot := ← match values[6]? with
      | some (some value) => value.text?
      | _ => some default.sourceRoot }

/-- The value of a key, which may stand once at most. -/
def valueOf? (fields : List (CodePoints × JsonValue)) (key : String) : Option (Option JsonValue) :=
  match fields.filter fun field => field.1 = .ofText key with
  | [] => some none
  | [field] => some (some field.2)
  | _ => none

/-- Reads a configuration: an object, whose other keys do not matter, or an array with the values of
the fields in their order. -/
def ofJson? : JsonValue → Option Config
  | .object fields =>
    if fields.all fun field => field.1.text?.isSome then
      (keys.mapM (valueOf? fields)).bind ofValues?
    else none
  | .array items => if items.length ≤ keys.length then ofValues? (items.map some) else none
  | _ => none

/-- The first text that a test refuses. -/
def refuse (texts : List String) (accepts : String → Bool) (error : String → ConfigError) :
    Except ConfigError Unit :=
  match texts.find? fun text => !accepts text with
  | some text => .error (error text)
  | none => .ok ()

/-- The regular expressions of the include files that are not followed. -/
def excludeRegexes (c : Config) : Except ConfigError (List Regex) :=
  c.excludes.mapM fun text =>
    match Regex.parse? text with
    | some r => .ok r
    | none => .error (.excludePattern text)

/-- The calls under their spellings. -/
def callTable (c : Config) : Except ConfigError CallTable :=
  c.spellings.foldlM (fun table spec =>
    match table.apply spec with
    | (table, none) => .ok table
    | (_, some cause) => .error (.spelling spec cause)) {}

def validate (c : Config) : Except ConfigError Unit := do
  refuse c.ignores (fun text => (Glob.parse? text).isSome) .ignorePattern
  refuse c.includes (fun text => !Glob.hasWildcard text || (Glob.parse? text).isSome)
    .includePattern
  let _ ← c.excludeRegexes
  let _ ← c.callTable
  return ()

/-- The include paths of a project in the directory `root`. -/
def includePathsFrom (c : Config) (root : Path) : List Path :=
  c.includePaths.map fun dir => root.join ⟨dir⟩

/-- Looks for the file in a directory and, at most so many times, in the directory that holds
it. -/
def findFrom (t : FileTree) : Nat → Path → Option Path
  | 0, _ => none
  | levels + 1, dir =>
    let file := dir.join ⟨fileName⟩
    if t.exists? file then some file
    else if t.exists? (dir.join ⟨".git"⟩) then none
    else
      match dir.parent? with
      | some parent => findFrom t levels parent
      | none => none

/-- The configuration file for a directory. -/
def find? (t : FileTree) (start : Path) : Option Path := findFrom t (start.text.length + 1) start

/-- The configuration in a file. -/
def read (t : FileTree) (file : Path) : Except ConfigError Config := do
  let some text := (t.read? file).bind String.fromUTF8? | .error (.unreadable file)
  let some config := (JsonValue.parse? text).bind ofJson? | .error (.malformed file)
  config.validate
  return config

/-- The configuration for a directory, and whether a file gave it. -/
def load (t : FileTree) (start : Path) : Except ConfigError (Config × Bool) :=
  match find? t start with
  | some file => (read t file).map fun config => (config, true)
  | none => .ok ({}, false)

end Config

end Harvest
