import Harvest.Path
import Harvest.Text.Utf8

/-!
# File trees

Files, directories and symbolic links, each at its location below the root, and the working
directory. Paths are followed part by part, the way an operating system does: what is walked through
has to be a directory, a link leads to its target, and `..` leads to the directory that holds the
current one. The root holds itself. A path that is too long leads nowhere.
-/

namespace Harvest

/-- The names that lead from the root to something in the tree. -/
abbrev Location := List String

inductive Entry
  | file (bytes : ByteArray)
  /-- A file that may not be read. -/
  | locked
  | directory
  | link (target : String)

def Entry.isDirectory : Entry → Bool
  | directory => true
  | _ => false

def Entry.isFile : Entry → Bool
  | file _ | locked => true
  | _ => false

/-- Why nothing is read at a path. -/
inductive ReadError
  | missing
  | denied
  /-- The way leads through something that is no directory. -/
  | notDirectory
  | isDirectory
  | tooLong
  | tooManyLinks
deriving DecidableEq, Repr

def ReadError.message : ReadError → String
  | missing => "No such file or directory (os error 2)"
  | denied => "Permission denied (os error 13)"
  | notDirectory => "Not a directory (os error 20)"
  | isDirectory => "Is a directory (os error 21)"
  | tooLong => "File name too long (os error 36)"
  | tooManyLinks => "Too many levels of symbolic links (os error 40)"

/-- The entries below the root, each at its location, and where relative paths begin. -/
structure FileTree where
  entries : List (Location × Entry) := []
  home : Location := []

namespace FileTree

/-- How many links the way to one file may lead over. -/
def maxLinks : Nat := 40

/-- How many bytes a path may have. -/
def maxLength : Nat := 4095

/-- What is at a location. -/
def entry? (t : FileTree) (location : Location) : Option Entry :=
  if location.isEmpty then some .directory else t.entries.lookup location

/-- The pieces of a path's text. -/
def steps (p : Path) : List String := p.slices

/-- Where the steps of a path begin. -/
def start (here : Location) (p : Path) : Location := if p.isAbsolute then [] else here

/-- Follows the steps from a location; `jump` goes on at a link, from the location that holds it, to
its target and the steps after it. If `final` holds, a link at the end is followed, too. -/
def followWith (t : FileTree) (jump : Location → String → List String → Except ReadError Location)
    (final : Bool) (here : Location) : List String → Except ReadError Location
  | [] => .ok here
  | step :: rest =>
    if !(t.entry? here).any Entry.isDirectory then .error .notDirectory
    else if step = "" || step = "." then followWith t jump final here rest
    else if step = ".." then followWith t jump final here.dropLast rest
    else
      match t.entry? (here ++ [step]) with
      | none => .error .missing
      | some (.link target) =>
        if rest.isEmpty && !final then .ok (here ++ [step]) else jump here target rest
      | some _ => followWith t jump final (here ++ [step]) rest

/-- Follows the steps from a location, over at most `links` links. -/
def follow (t : FileTree) : Nat → Bool → Location → List String → Except ReadError Location
  | 0, final => t.followWith (fun _ _ _ => .error .tooManyLinks) final
  | links + 1, final =>
    t.followWith
      (fun here target rest =>
        if target = "" then .error .missing
        else follow t links final (start here ⟨target⟩) (steps ⟨target⟩ ++ rest))
      final

/-- Why a path is refused before its first step, if it is. -/
def refusal? (p : Path) : Option ReadError :=
  if p.text = "" then some .missing
  else if maxLength < (Text.Utf8.encode p.text.toList).length then some .tooLong
  else none

/-- Where a path leads. -/
def resolve (t : FileTree) (p : Path) : Except ReadError Location :=
  match refusal? p with
  | some e => .error e
  | none => t.follow maxLinks true (start t.home p) (steps p)

/-- Where a path leads, if anywhere. -/
def resolve? (t : FileTree) (p : Path) : Option Location := (t.resolve p).toOption

/-- Where a path leads if a link at its end is left alone. -/
def locate? (t : FileTree) (p : Path) : Option Location :=
  match refusal? p with
  | some _ => none
  | none => (t.follow maxLinks false (start t.home p) (steps p)).toOption

/-- What a path names, links followed. -/
def get? (t : FileTree) (p : Path) : Option Entry := (t.resolve? p).bind t.entry?

def isFile (t : FileTree) (p : Path) : Bool := (t.get? p).any Entry.isFile

def isDirectory (t : FileTree) (p : Path) : Bool := (t.get? p).any Entry.isDirectory

def exists? (t : FileTree) (p : Path) : Bool := (t.get? p).isSome

/-- The bytes of a file. -/
def read (t : FileTree) (p : Path) : Except ReadError ByteArray := do
  match t.entry? (← t.resolve p) with
  | some (.file bytes) => .ok bytes
  | some .locked => .error .denied
  | some .directory => .error .isDirectory
  | _ => .error .missing

def read? (t : FileTree) (p : Path) : Option ByteArray := (t.read p).toOption

/-- The text of a file; what is no text in it is replaced. -/
def readText (t : FileTree) (p : Path) : Except ReadError String :=
  (t.read p).map fun bytes => String.ofList (Text.Utf8.decode bytes.data.toList)

/-- The locations below a location, as seen from it. -/
def below (t : FileTree) (location : Location) : List Location :=
  t.entries.filterMap fun (l, _) =>
    if location.isPrefixOf l && location.length < l.length then some (l.drop location.length)
    else none

/-- The names in a directory. -/
def names (t : FileTree) (location : Location) : List String :=
  (t.below location).filterMap fun l =>
    match l with
    | [name] => some name
    | _ => none

def size (t : FileTree) : Nat := t.entries.length

end FileTree

end Harvest
