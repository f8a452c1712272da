/-!
# Faults

A fault ends an operation at once: the caller broke a precondition, or a deferred action failed
while it ran. Refusals that a caller has to reckon with are errors and have types of their own.
The last four causes are internal checks of block placement, which no sequence of requests reaches.
-/

namespace Lifespan

/-- The operations that ask for an unpinned slice. -/
inductive PinOperation where
  | pinSlice
  | pinSliceFrom
  | pinSelf
  | repinSelf
deriving DecidableEq, Repr

/-- The name under which an operation is reported. -/
def PinOperation.name : PinOperation → String
  | pinSlice => "pin_slice"
  | pinSliceFrom => "pin_slice_from"
  | pinSelf => "pin_self"
  | repinSelf => "repin_self"

/-- Why an operation ended at once. -/
inductive Fault where
  | trimFront (count length : Nat)
  | trimBack (count length : Nat)
  | index (length index : Nat)
  | pinned (operation : PinOperation)
  /-- The alignment is a power of two, but larger than blocks are aligned. -/
  | alignment (align maximum : Nat)
  | zeroMaximum
  | cleanup (label : String)
  /-- A second cleanup action failed while a first failure was being handled. -/
  | doubleFailure
  /-- A range was to start before the cursor of its block. -/
  | behindCursor
  /-- A range was to end past its block. -/
  | pastBlock
  /-- A new block cannot hold the request it was made for. -/
  | freshBlock
deriving DecidableEq, Repr

/-- The text of a fault. -/
def Fault.message : Fault → String
  | trimFront count length => s!"remove_prefix({count}) on slice of length {length}"
  | trimBack count length => s!"remove_suffix({count}) on slice of length {length}"
  | index length position =>
    s!"index out of bounds: the len is {length} but the index is {position}"
  | pinned operation => s!"{operation.name} on a pinned slice; call reset() first"
  | alignment align maximum =>
    s!"alignment {align} exceeds the supported maximum of {maximum}"
  | zeroMaximum => "max must be non-zero"
  | cleanup label => s!"cleanup {label} panicked"
  | doubleFailure => "a cleanup failed while the failure of another was being handled"
  | behindCursor => "bump behind the cursor"
  | pastBlock => "bump past the end of the block"
  | freshBlock => "fresh block is aligned and at least size bytes"

end Lifespan
