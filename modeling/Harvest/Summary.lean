/-!
# Summaries

The counts at the end of an extraction, and how they decide its exit status.
-/

namespace Harvest

inductive ExitStatus
  /-- There is nothing to report beyond warnings. -/
  | success
  /-- The run finished, but with an error in a source or with a source that could not be read. -/
  | failure
  /-- The run could not start. -/
  | error
deriving DecidableEq, Repr

def ExitStatus.code : ExitStatus → Nat
  | .success => 0
  | .failure => 1
  | .error => 2

/-- The mark of what went well. -/
def successMark : String := "✓"

/-- The mark of what did not. -/
def failureMark : String := "✘"

structure Summary where
  messages : Nat
  files : Nat
  errors : Nat
  warnings : Nat
deriving DecidableEq, Repr

namespace Summary

/-- A number of things. -/
def count (n : Nat) (thing : String) : String :=
  toString n ++ " " ++ thing ++ if n = 1 then "" else "s"

def render (s : Summary) : String :=
  let total := " Extracted " ++ count s.messages "message" ++ " from " ++ count s.files "file"
  if s.errors = 0 && s.warnings = 0 then successMark ++ total ++ "\n"
  else
    (if s.errors > 0 then failureMark else successMark) ++ total ++ " (" ++
      count s.errors "error" ++ ", " ++ count s.warnings "warning" ++ ")\n"

def status (s : Summary) : ExitStatus := if s.errors > 0 then .failure else .success

end Summary

end Harvest
