import Lifespan.Memory.Layout

/-!
# Block sources

A block source hands out extents of memory on request and takes them back. It may refuse a request,
and it may grant more bytes than were asked for. `Source σ` is the interface of sources whose state
is a `σ`; `Source.Grant` is one extent as it was granted.
-/

namespace Lifespan

/-- Sources of memory blocks with state in `σ`. -/
class Source (σ : Type) where
  /-- Asks for an extent with a layout: its first address, or `none` for a refusal. -/
  allocate : Layout → σ → Option Nat × σ
  /-- Gives back the extent at an address, with the layout it was granted for. -/
  deallocate : Nat → Layout → σ → σ
  /-- The number of bytes that an extent granted for a layout may be used for. -/
  usableSize : Layout → σ → Nat := fun l _ => l.size

/-- An extent as it was granted. -/
structure Source.Grant where
  base : Nat
  layout : Layout
deriving DecidableEq, Repr

end Lifespan
