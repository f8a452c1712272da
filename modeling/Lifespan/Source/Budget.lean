import Lifespan.Source.Basic

/-!
# A budget

A source that passes requests on to another one as long as the bytes granted and not given back
stay within a budget. The bytes of a request are reserved first; if the inner source refuses, the
reservation is undone, and only a request that exceeds the budget counts as a refusal.
-/

namespace Lifespan

/-- A source of which at most `budget` bytes may be granted at a time. -/
structure Budgeted (σ : Type) where
  budget : Nat
  used : Nat := 0
  live : Nat := 0
  refusals : Nat := 0
  inner : σ
deriving DecidableEq, Repr

namespace Budgeted

variable {σ : Type}

/-- A budget that no request exceeds unless the sum of bytes leaves the range of words. -/
def unlimited : Nat := Word.max

/-- Reserves bytes, if they are within the budget. -/
def reserve? (b : Budgeted σ) (size : Nat) : Option (Budgeted σ) :=
  match Word.add? b.used size with
  | some total => if total ≤ b.budget then some { b with used := total } else none
  | none => none

instance [Source σ] : Source (Budgeted σ) where
  allocate l b :=
    match b.reserve? l.size with
    | none => (none, { b with refusals := b.refusals + 1 })
    | some reserved =>
      match Source.allocate l reserved.inner with
      | (some base, inner) => (some base, { reserved with inner, live := reserved.live + 1 })
      | (none, inner) => (none, { reserved with inner, used := reserved.used - l.size })
  deallocate base l b :=
    { b with
      inner := Source.deallocate base l b.inner
      used := b.used - l.size
      live := b.live - 1 }

end Budgeted

end Lifespan
