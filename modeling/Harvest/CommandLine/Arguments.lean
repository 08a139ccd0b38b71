import Harvest.Project

/-!
# Command-line arguments

A command and its flags. A flag with a value takes it from the same argument, after `=` or directly
after a short name, or else from the next argument. After `--` nothing is a flag any more, and no
command takes anything but flags.
-/

namespace Harvest

inductive Command
  | extract (settings : Settings) (format : OutputFormat)
  | init (dir : Path)

/-- Why arguments do not lead to a command. -/
inductive UsageError
  | unknownArgument
  | unknownCommand
  | invalidValue
  | repeatedFlag
  | unneededValue
  /-- The help was asked for. -/
  | help
  /-- The version was asked for. -/
  | version
deriving DecidableEq, Repr

inductive Flag
  | sourceRoot
  | includePath
  | exclude
  | spelling
  | verbose
  | format
  | help
deriving DecidableEq, Repr

namespace Flag

def long : Flag → String
  | sourceRoot => "source-root"
  | includePath => "include-path"
  | exclude => "exclude"
  | spelling => "tr-function-alias"
  | verbose => "verbose"
  | format => "format"
  | help => "help"

def short? : Flag → Option Char
  | includePath => some 'I'
  | verbose => some 'v'
  | help => some 'h'
  | _ => none

def takesValue : Flag → Bool
  | verbose | help => false
  | _ => true

def isRepeatable : Flag → Bool
  | includePath | exclude | spelling => true
  | _ => false

def accepts (value : String) : Flag → Bool
  | sourceRoot | includePath => value ≠ ""
  | format => (OutputFormat.ofName? value).isSome
  | _ => true

end Flag

/-- The flags read so far. A flag whose value may be in the next argument is `pending` until the
next flag or the end; only then is it checked. -/
structure FlagReader where
  flags : List Flag
  values : List (Flag × String) := []
  pending : Option (Flag × Option String) := none
  onlyValues : Bool := false

namespace FlagReader

def record (r : FlagReader) (flag : Flag) (value : String) : Except UsageError FlagReader :=
  if !flag.isRepeatable && r.values.any (fun (f, _) => f = flag) then .error .repeatedFlag
  else if !flag.accepts value then .error .invalidValue
  else .ok { r with values := r.values ++ [(flag, value)] }

/-- Records the flag that is pending. -/
def settle (r : FlagReader) : Except UsageError FlagReader :=
  match r.pending with
  | none => .ok r
  | some (_, none) => .error .invalidValue
  | some (flag, some value) => { r with pending := none }.record flag value

/-- Takes a flag, with the value from the same argument if there is one. -/
def take (r : FlagReader) (flag : Flag) (value : Option String) : Except UsageError FlagReader :=
  match flag.takesValue, value with
  | true, some value => do (← r.settle).record flag value
  | true, none => do return { ← r.settle with pending := some (flag, none) }
  | false, some _ => .error .unneededValue
  | false, none => do
    let r ← r.settle
    if flag = .help then .error .help else r.record flag ""

def takeLong (r : FlagReader) (body : List Char) : Except UsageError FlagReader :=
  let (name, value) :=
    match Text.splitFirst '=' body with
    | some (name, value) => (String.ofList name, some (String.ofList value))
    | none => (String.ofList body, none)
  match r.flags.find? fun flag => flag.long = name with
  | some flag => r.take flag value
  | none => .error .unknownArgument

/-- Takes short names in one argument; what follows one that takes a value is the value. -/
def takeShort (r : FlagReader) : List Char → Except UsageError FlagReader
  | [] => .ok r
  | c :: rest =>
    match r.flags.find? fun flag => flag.short? = some c with
    | none => .error .unknownArgument
    | some flag =>
      if flag.takesValue then
        match rest with
        | [] => r.take flag none
        | '=' :: value => r.take flag (some (String.ofList value))
        | value => r.take flag (some (String.ofList value))
      else do (← r.take flag none).takeShort rest

def step (r : FlagReader) (argument : String) : Except UsageError FlagReader :=
  if r.onlyValues then .error .unknownArgument
  else
    match argument.toList with
    | ['-', '-'] => .ok { r with onlyValues := true }
    | '-' :: '-' :: body => r.takeLong body
    | '-' :: c :: rest => r.takeShort (c :: rest)
    | _ =>
      match r.pending with
      | some (flag, none) => .ok { r with pending := some (flag, some argument) }
      | _ => .error .unknownArgument

/-- Reads all arguments of a command. -/
def run (flags : List Flag) (arguments : List String) : Except UsageError FlagReader := do
  (← arguments.foldlM step { flags }).settle

/-- The values of a flag, in their order. -/
def valuesOf (r : FlagReader) (flag : Flag) : List String :=
  r.values.filterMap fun (f, value) => if f = flag then some value else none

def root (r : FlagReader) : Path := ⟨(r.valuesOf .sourceRoot).headD "."⟩

end FlagReader

namespace Command

def readExtract (arguments : List String) : Except UsageError Command := do
  let r ← FlagReader.run
    [.sourceRoot, .includePath, .exclude, .spelling, .verbose, .format, .help] arguments
  let settings : Settings := {
    root := r.root
    includePaths := (r.valuesOf .includePath).map Path.mk
    excludes := r.valuesOf .exclude
    spellings := r.valuesOf .spelling
    verbose := !(r.valuesOf .verbose).isEmpty }
  return .extract settings (((r.valuesOf .format).head?.bind OutputFormat.ofName?).getD .text)

def readInit (arguments : List String) : Except UsageError Command := do
  return .init (← FlagReader.run [.sourceRoot, .help] arguments).root

/-- The commands that there is help for. -/
def names : List String := ["extract", "init", "help"]

/-- Help for a command; no command has commands of its own. -/
def readHelp : List String → UsageError
  | [] => .help
  | [name] => if name ∈ names then .help else .unknownCommand
  | _ => .unknownCommand

/-- A flag in front of a command; each of them ends the reading. -/
def readFlag : List Char → UsageError
  | '-' :: '-' :: body =>
    match Text.splitFirst '=' body with
    | some (name, _) =>
      if name = "help".toList ∨ name = "version".toList then .unneededValue
      else .unknownArgument
    | none =>
      if body = "help".toList then .help
      else if body = "version".toList then .version
      else .unknownArgument
  | '-' :: 'h' :: _ => .help
  | '-' :: 'V' :: _ => .version
  | '-' :: _ :: _ => .unknownArgument
  | _ => .unknownCommand

/-- Reads a command, if there is one. -/
def read : List String → Except UsageError (Option Command)
  | [] => .ok none
  | "extract" :: arguments => (readExtract arguments).map some
  | "init" :: arguments => (readInit arguments).map some
  | "help" :: arguments => .error (readHelp arguments)
  | ["--"] => .ok none
  | "--" :: name :: _ => .error (if name ∈ names then .unknownArgument else .unknownCommand)
  | argument :: _ => .error (readFlag argument.toList)

end Command

end Harvest
