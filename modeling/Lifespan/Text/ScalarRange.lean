/-!
# Ranges of scalar values

A property of characters is given as a table of ranges of scalar values, with both ends included,
in ascending order and without overlap.
-/

namespace Lifespan.Text

/-- A range of scalar values, given by its least and its greatest member. -/
abbrev ScalarRange := Nat × Nat

/-- Whether a scalar value lies in a range. -/
def ScalarRange.contains (r : ScalarRange) (n : Nat) : Bool :=
  decide (r.1 ≤ n) && decide (n ≤ r.2)

/-- Whether a scalar value lies in one of the ranges of a table. -/
def isInTable (table : List ScalarRange) (n : Nat) : Bool := table.any (·.contains n)

/-- Whether the ranges of a table are not empty, ascend, and do not overlap. -/
def isTable : List ScalarRange → Bool
  | [] => true
  | [r] => decide (r.1 ≤ r.2)
  | r :: s :: rest => decide (r.1 ≤ r.2) && decide (r.2 < s.1) && isTable (s :: rest)

end Lifespan.Text
