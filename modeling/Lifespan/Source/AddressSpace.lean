import Lifespan.Source.Basic

/-!
# An address space

The source that all others rest on. Extents are taken from a frontier that only moves upwards, so
an extent is never handed out twice, and at least one address is left between two of them. Requests
of `AddressSpace.refusedFrom` bytes or more are refused.

Every base has the same remainder modulo a page, as far as the alignment asked for allows, and the
usable size differs from the size asked for by a fixed amount.
-/

namespace Lifespan

/-- An address space of which everything below `frontier` has been given away. -/
structure AddressSpace where
  /-- The remainder of every base modulo a page, before it is rounded down to the alignment. -/
  skew : Nat := 0
  /-- The usable size less the size asked for. -/
  slack : Int := 0
  isClosed : Bool := false
  frontier : Nat := Alignment.page
  live : Nat := 0
deriving DecidableEq, Repr

namespace AddressSpace

/-- The number of bytes from which on a request is refused. -/
def refusedFrom : Nat := 1 <<< 60

/-- The usable size of an extent for a layout, never below zero. -/
def usable (a : AddressSpace) (l : Layout) : Nat := ((l.size : Int) + a.slack).toNat

/-- The base of the next extent for a layout: the least page boundary from the frontier on that
suits the alignment, and the skew above it. -/
def nextBase (a : AddressSpace) (l : Layout) : Nat :=
  let unit := max l.align Alignment.page
  (a.frontier + (unit - 1)) / unit * unit + a.skew % Alignment.page / l.align * l.align

/-- Whether a request for a layout is granted. -/
def Grants (a : AddressSpace) (l : Layout) : Prop :=
  a.isClosed = false ∧ 0 < l.size ∧ l.size < refusedFrom ∧
    a.nextBase l + max l.size (a.usable l) < Word.bound

instance (a : AddressSpace) (l : Layout) : Decidable (a.Grants l) :=
  inferInstanceAs (Decidable (_ ∧ _))

instance : Source AddressSpace where
  allocate l a :=
    if a.Grants l then
      let base := a.nextBase l
      (some base, { a with
        frontier := base + max l.size (a.usable l) + 1
        live := a.live + 1 })
    else (none, a)
  deallocate _ _ a := { a with live := a.live - 1 }
  usableSize l a := a.usable l

end AddressSpace

end Lifespan
