import Lifespan.Memory.Alignment

/-!
# Layouts

A layout is a number of bytes together with an alignment. It is valid when the alignment is a power
of two and the size, rounded up to the alignment, does not exceed what one object may span.
-/

namespace Lifespan

/-- A size in bytes and an alignment. -/
structure Layout where
  size : Nat
  align : Nat
deriving DecidableEq, Repr, Inhabited

namespace Layout

/-- A layout is valid when its alignment is a power of two and its size, rounded up to the
alignment, does not exceed `Word.maxSpan`. -/
def Valid (l : Layout) : Prop := Alignment.IsValid l.align ∧ l.size + l.align ≤ Word.maxSpan + 1

instance (l : Layout) : Decidable l.Valid := inferInstanceAs (Decidable (_ ∧ _))

/-- The layout with this size and alignment, if it is valid. -/
def of? (size align : Nat) : Option Layout :=
  if Valid ⟨size, align⟩ then some ⟨size, align⟩ else none

/-- The layout of `count` objects of one size behind one another, if it is valid. -/
def array? (count size align : Nat) : Option Layout := of? (count * size) align

end Layout

end Lifespan
