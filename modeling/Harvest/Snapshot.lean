import Harvest.Name

/-!
# Parser snapshots

The part of a parser's state that says in which scope it stands. It is kept and taken up again
around macro bodies and the branches of conditionals, and a header that was parsed on its own is
used again where the includer's snapshot is the same.
-/

namespace Harvest

structure Snapshot where
  /-- The open namespaces and classes, from the global scope on. -/
  namespaces : Name := Name.root
  /-- For each open brace that entered a scope, the length of `namespaces` before it. -/
  depths : List Nat := []
  /-- The owner of the function body that is being read. -/
  functionContext : Name := Name.root
  /-- What is left of the owner's name where it could not be resolved. -/
  unresolved : String := ""
  /-- The qualifier of a definition whose body has not begun. -/
  pending : String := ""
deriving DecidableEq, Repr

namespace Snapshot

/-- A brace that leads back to `depth` leaves the scope that it closes, if it closes one. -/
def leave (s : Snapshot) (depth : Nat) : Snapshot :=
  match s.depths.getLast? with
  | some length =>
    if depth + 1 = s.depths.length then
      { s with namespaces := s.namespaces.take length, depths := s.depths.dropLast }
    else s
  | none => s

/-- A brace that leads back to `depth` ends the function body, if nothing but scopes is open then.
Outside of all of them, a file that is read on its own is back in the global scope. -/
def endBody (s : Snapshot) (depth : Nat) (inPlace : Bool) : Snapshot :=
  if depth = s.depths.length then
    let functionContext :=
      if depth = 0 && !inPlace then s.functionContext.take 1 else s.namespaces
    { s with functionContext, unresolved := "", pending := "" }
  else s

end Snapshot

end Harvest
