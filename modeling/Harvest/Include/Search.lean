import Harvest.FileTree

/-!
# Finding included files

A quoted include is looked for beside the including file first; both forms are then looked for in
the include paths, in their order.
-/

namespace Harvest

/-- The paths that an include may mean, in the order in which they are tried. -/
def includeCandidates (from_ : Path) (written : String) (quoted : Bool) (includePaths : List Path) :
    List Path :=
  let beside : List Path := if quoted then [(from_.parent?.getD ⟨""⟩).join ⟨written⟩] else []
  beside ++ includePaths.map fun dir => dir.join ⟨written⟩

/-- The file that an include means, if there is one. -/
def resolveInclude (t : FileTree) (from_ : Path) (written : String) (quoted : Bool)
    (includePaths : List Path) : Option Path :=
  ((includeCandidates from_ written quoted includePaths).find? t.isFile).map Path.clean

end Harvest
