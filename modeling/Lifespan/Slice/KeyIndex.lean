import Lifespan.Slice.Order

/-!
# Sorted keys

Keys in slice order, the length that each key shares with the next, and the keys without
repetitions. Equal keys stand side by side after sorting, so dropping neighbours is enough.
-/

namespace Lifespan.Slice

/-- The slices in ascending order. -/
def sort (l : List Slice) : List Slice :=
  l.mergeSort fun a b => (compare a b).isLE

/-- The number of leading bytes that each slice shares with the one after it. -/
def sharedWithNext (l : List Slice) : List Nat :=
  List.zipWith firstDifference l l.tail

/-- The slices without those that equal the one before them. -/
def dropRepeats : List Slice → List Slice
  | a :: b :: rest => if a = b then dropRepeats (b :: rest) else a :: dropRepeats (b :: rest)
  | l => l

end Lifespan.Slice
