import Lifespan.Slice.Basic

/-!
# The order of slices

Slices are ordered by their first differing byte, as an unsigned number; a slice that is the
beginning of another comes first. This is the lexicographic order of lists of bytes.
-/

namespace Lifespan.Slice

/-- Lexicographic comparison of the bytes. -/
instance : Ord Slice where
  compare a b := compare a.bytes b.bytes

instance : LT Slice := ltOfOrd

instance : LE Slice := leOfOrd

/-- The number of leading bytes that two byte strings share. -/
def sharedLength : Bytes → Bytes → Nat
  | x :: a, y :: b => if x = y then sharedLength a b + 1 else 0
  | _, _ => 0

/-- The number of leading bytes that two slices share. -/
def firstDifference (a b : Slice) : Nat := sharedLength a.bytes b.bytes

end Lifespan.Slice
