import Lifespan.Word

/-!
# Alignment

An alignment is a power of two. Rounding up to a multiple of it adds the alignment less one and
clears the bits below it; the addition refuses to leave the range of words.
-/

namespace Lifespan.Alignment

/-- The alignment that suits every ordinary value. -/
def standard : Nat := 16

/-- The strongest alignment that a block is asked to have. -/
def page : Nat := 4096

/-- A number is an alignment when it is a power of two: not zero, and without a bit in common with
its predecessor. -/
def IsValid (align : Nat) : Prop := align ≠ 0 ∧ align &&& (align - 1) = 0

instance (align : Nat) : Decidable (IsValid align) :=
  inferInstanceAs (Decidable (_ ∧ _))

/-- A value with the bits below an alignment cleared. -/
def clearBelow (value align : Nat) : Nat := value - (value &&& (align - 1))

/-- The least multiple of an alignment that is not below a value, if it is a word. -/
def roundUp? (value align : Nat) : Option Nat :=
  (Word.add? value (align - 1)).map (clearBelow · align)

end Lifespan.Alignment
