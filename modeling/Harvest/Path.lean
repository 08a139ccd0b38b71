import Harvest.Text.Blank

/-!
# Paths

A path is its text. Two paths are the same if they have the same parts: repeated and trailing
slashes and inner `.` parts do not count, a leading `.` does. Cleaning a path drops `.` and folds
`..` into the part before it, without looking at any directory.
-/

namespace Harvest

inductive PathPart
  | root
  | current
  | parent
  | normal (name : String)
deriving DecidableEq, Repr

namespace PathPart

def render : PathPart → String
  | root => "/"
  | current => "."
  | parent => ".."
  | normal name => name

def rank : PathPart → Nat
  | root => 0
  | current => 1
  | parent => 2
  | normal _ => 3

/-- The order of parts, names in the order of their characters. -/
def le (a b : PathPart) : Bool :=
  match a, b with
  | normal x, normal y => x ≤ y
  | a, b => a.rank ≤ b.rank

end PathPart

structure Path where
  text : String
deriving DecidableEq, Repr

namespace Path

/-- The texts between slashes. -/
def slices (p : Path) : List String := (Text.pieces (· = '/') p.text.toList).map String.ofList

def isAbsolute (p : Path) : Bool := p.text.toList.head? = some '/'

/-- The part that a text between slashes is, if it counts. -/
def part? (slice : String) : Option PathPart :=
  if slice = "" || slice = "." then none
  else if slice = ".." then some .parent
  else some (.normal slice)

def parts (p : Path) : List PathPart :=
  let start : List PathPart :=
    if p.isAbsolute then [.root] else if p.slices.head? = some "." then [.current] else []
  start ++ p.slices.filterMap part?

/-- The path with these parts. -/
def ofParts : List PathPart → Path
  | .root :: rest => ⟨"/" ++ "/".intercalate (rest.map PathPart.render)⟩
  | parts => ⟨"/".intercalate (parts.map PathPart.render)⟩

/-- Whether two paths have the same parts. -/
def same (p q : Path) : Bool := p.parts = q.parts

/-- Order by parts, one after the other. -/
def partsLe : List PathPart → List PathPart → Bool
  | [], _ => true
  | _ :: _, [] => false
  | a :: as, b :: bs => if a = b then partsLe as bs else a.le b

def le (p q : Path) : Bool := partsLe p.parts q.parts

/-- `p` is `start` or lies below it. -/
def startsWith (p start : Path) : Bool := start.parts.isPrefixOf p.parts

/-- The path `q` seen from `p`. -/
def join (p q : Path) : Path :=
  if q.isAbsolute || p.text = "" then q
  else if p.text.toList.getLast? = some '/' then ⟨p.text ++ q.text⟩
  else ⟨p.text ++ "/" ++ q.text⟩

/-- One step of cleaning; `done` holds the parts so far, the last one first. -/
def cleanStep (done : List PathPart) : PathPart → List PathPart
  | .current => done
  | .parent =>
    match done with
    | .normal _ :: rest => rest
    | .root :: rest => .root :: rest
    | done => .parent :: done
  | part => part :: done

def cleanParts (parts : List PathPart) : List PathPart := (parts.foldl cleanStep []).reverse

/-- The path without `.`, and with `..` folded into what stands before it. -/
def clean (p : Path) : Path :=
  match cleanParts p.parts with
  | [] => ⟨"."⟩
  | parts => ofParts parts

/-- The slices up to the last one that counts. -/
def trimmed (slices : List String) : List String :=
  (slices.reverse.dropWhile fun slice => slice = "" || slice = ".").reverse

/-- The directory of a path: its text up to the part before the last one. -/
def parent? (p : Path) : Option Path :=
  let anchor := if p.isAbsolute || p.slices.head? = some "." then p.slices.take 1 else []
  let body := trimmed (p.slices.drop anchor.length)
  if body.isEmpty then if anchor = ["."] then some ⟨""⟩ else none
  else
    match anchor ++ trimmed body.dropLast with
    | [""] => some ⟨"/"⟩
    | slices => some ⟨"/".intercalate slices⟩

def fileName? (p : Path) : Option String :=
  match p.parts.getLast? with
  | some (.normal name) => some name
  | _ => none

/-- What follows the last point of the file name. A name whose only point is its first character
has no extension. -/
def extension? (p : Path) : Option String :=
  match p.fileName? with
  | none => none
  | some name =>
    match (Text.pieces (· = '.') name.toList).reverse with
    | ext :: stem :: more => if stem = [] && more = [] then none else some (String.ofList ext)
    | _ => none

/-- Headers are the files without an extension or with one that begins with `h`. -/
def isHeader (p : Path) : Bool :=
  match p.extension? with
  | none => true
  | some ext => ext = "" || ext.toList.head? = some 'h' || ext.toList.head? = some 'H'

end Path

end Harvest
