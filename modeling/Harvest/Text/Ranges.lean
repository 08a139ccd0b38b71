/-!
# Ranges of characters

Properties of characters, given by ranges of character numbers.
-/

namespace Harvest.Text

/-- The first character number of each range, and how many numbers are in it. -/
abbrev Ranges := Array (Nat × Nat)

def Ranges.mem (ranges : Ranges) (c : Char) : Bool :=
  ranges.any fun (first, count) => first ≤ c.toNat && c.toNat < first + count

end Harvest.Text
