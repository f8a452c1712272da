import Lifespan.Source.Basic

/-!
# Page alignment

A source that asks another one for extents that start on a page boundary, whatever alignment it is
asked for itself. A request that has no valid layout at that alignment is refused and not passed
on.
-/

namespace Lifespan

/-- A source whose extents start on page boundaries. -/
structure Paged (σ : Type) where
  inner : σ
deriving DecidableEq, Repr

namespace Paged

variable {σ : Type}

/-- The layout that is asked for in the place of `l`. -/
def strengthen? (l : Layout) : Option Layout := Layout.of? l.size (max l.align Alignment.page)

instance [Source σ] : Source (Paged σ) where
  allocate l p :=
    match strengthen? l with
    | none => (none, p)
    | some l' =>
      match Source.allocate l' p.inner with
      | (base, inner) => (base, { inner })
  deallocate base l p :=
    match strengthen? l with
    | none => p
    | some l' => { inner := Source.deallocate base l' p.inner }
  usableSize l p := Source.usableSize l p.inner

end Paged

end Lifespan
