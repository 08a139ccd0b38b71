import Harvest.Text.Blank
import Harvest.Text.CaseFold
import Harvest.Text.Letter

/-!
# Character sets

The sets of characters that patterns name. They are built from ranges of character numbers and a
few classes by the operations on sets, and they can be widened to all characters that differ from
one of theirs in case only.
-/

namespace Harvest

inductive CharSet
  | empty
  /-- The characters from one number to another. -/
  | range (low high : Nat)
  | digit
  | blank
  | word
  | union (a b : CharSet)
  | inter (a b : CharSet)
  | diff (a b : CharSet)
  | symmDiff (a b : CharSet)
  | compl (s : CharSet)
  /-- Without regard to case. -/
  | folded (s : CharSet)
  /-- Without regard to the case of the letters from `a` to `z`. -/
  | foldedAscii (s : CharSet)
deriving DecidableEq, Repr

namespace CharSet

def mem : CharSet → Char → Bool
  | empty, _ => false
  | range low high, c => low ≤ c.toNat && c.toNat ≤ high
  | digit, c => Text.isDigit c
  | blank, c => Text.isBlank c
  | word, c => Text.isWordChar c
  | union a b, c => a.mem c || b.mem c
  | inter a b, c => a.mem c && b.mem c
  | diff a b, c => a.mem c && !b.mem c
  | symmDiff a b, c => a.mem c != b.mem c
  | compl s, c => !s.mem c
  | folded s, c => (Text.caseVariants c).any s.mem
  | foldedAscii s, c => s.mem c || s.mem c.toLower || s.mem c.toUpper

def all : CharSet := compl empty

def single (c : Char) : CharSet := range c.toNat c.toNat

def unions (sets : List CharSet) : CharSet := sets.foldr union empty

def ofRanges (ranges : List (Nat × Nat)) : CharSet :=
  unions (ranges.map fun (low, high) => range low high)

/-- How much a set adds to the size of an expression. -/
def size : CharSet → Nat
  | empty | range _ _ => 1
  | digit => 100
  | blank => 10
  | word => 1400
  | union a b | inter a b | diff a b | symmDiff a b => max a.size b.size
  | compl s => max s.size 14
  | folded s | foldedAscii s => s.size

end CharSet

end Harvest
