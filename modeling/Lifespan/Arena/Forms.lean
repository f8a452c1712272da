import Lifespan.Arena.Placing
import Lifespan.Memory.Element
import Lifespan.Slice.Basic

/-!
# Typed and filled ranges

Requests that say what the range is for: room for values of a type, a value, a copy of values, one
value repeated, zeros, a copy of bytes, or several byte strings behind one another. A range without
cells takes no memory; for values it then has an address of its own, which is the alignment of
their type.
-/

namespace Lifespan

/-- Where values lie. -/
inductive Spot where
  | dangling (address : Nat)
  | placed (p : Placement)
deriving DecidableEq, Repr

/-- The placed range, if there is one. -/
def Spot.placement? : Spot → Option Placement
  | dangling _ => none
  | placed p => some p

namespace Arena

variable {σ : Type} [Source σ] {α : Type}

/-- Room for `count` values of a type. -/
def allocateArray (a : Arena σ) (e : Element α) (count : Nat) : Except Failure Spot × Arena σ :=
  match Layout.array? count e.size e.align with
  | none => (.error (.error (.layoutOverflow count e.size)), a)
  | some layout =>
    if layout.size = 0 then (.ok (.dangling layout.align), a)
    else match a.place layout.size layout.align with
      | (.error f, a') => (.error f, a')
      | (.ok p, a') => (.ok (.placed p), a')

/-- The arena with cells written at the start of a spot. -/
def store (a : Arena σ) (s : Spot) (cells : List Cell) : Arena σ :=
  match s with
  | .dangling _ => a
  | .placed p => a.writeAt p 0 cells

/-- The cells of `count` copies of a value. None are written where none fit. -/
def repeated (e : Element α) (s : Spot) (count : Nat) (v : α) : List Cell :=
  match s with
  | .dangling _ => []
  | .placed _ => e.encodeAll (List.replicate count v)

/-- A copy of one value. -/
def alloc (a : Arena σ) (e : Element α) (v : α) : Except Failure Spot × Arena σ :=
  match a.allocateArray e 1 with
  | (.error f, a') => (.error f, a')
  | (.ok s, a') => (.ok s, a'.store s (e.encode v))

/-- A copy of values behind one another. -/
def allocCopy (a : Arena σ) (e : Element α) (vs : List α) : Except Failure Spot × Arena σ :=
  match a.allocateArray e vs.length with
  | (.error f, a') => (.error f, a')
  | (.ok s, a') => (.ok s, a'.store s (e.encodeAll vs))

/-- A value, `count` times over. -/
def allocFill (a : Arena σ) (e : Element α) (count : Nat) (v : α) :
    Except Failure Spot × Arena σ :=
  match a.allocateArray e count with
  | (.error f, a') => (.error f, a')
  | (.ok s, a') => (.ok s, a'.store s (repeated e s count v))

/-- A range of zeros. -/
def allocZeroed (a : Arena σ) (size align : Nat) : Except Failure (Option Placement) × Arena σ :=
  match a.allocate size align with
  | (.ok (some p), a') => (.ok (some p), a'.writeAt p 0 (List.replicate size (.byte 0)))
  | r => r

/-- A copy of the bytes of a slice. -/
def copySlice (a : Arena σ) (s : Slice) : Except Failure (Option Placement) × Arena σ :=
  match a.allocCopy Element.uint8 s.bytes with
  | (.error f, a') => (.error f, a')
  | (.ok spot, a') => (.ok spot.placement?, a')

/-- The sum of the lengths of slices, if it is a word. -/
def totalLength? : List Slice → Option Nat :=
  List.foldlM (fun total part => Word.add? total part.length) 0

/-- Writes slices behind one another into a placed range, from an offset on. -/
def writeParts (p : Placement) : Nat → List Slice → Arena σ → Arena σ
  | _, [], a => a
  | written, part :: rest, a =>
    writeParts p (written + part.length) rest (a.writeAt p written (part.bytes.map .byte))

/-- The bytes of slices behind one another. -/
def concat (a : Arena σ) (parts : List Slice) : Except Failure (Option Placement) × Arena σ :=
  match totalLength? parts with
  | none => (.error (.error (.layoutOverflow parts.length 1)), a)
  | some total =>
    match a.allocate total 1 with
    | (.ok (some p), a') => (.ok (some p), writeParts p 0 parts a')
    | r => r

/-- The first `n` values at a spot. -/
def valuesAt (a : Arena σ) (e : Element α) (s : Spot) (n : Nat) : List α :=
  match s with
  | .dangling _ => List.replicate n (e.decode [])
  | .placed p =>
    (List.range n).map fun i => e.decode (a.cellsAt ⟨p.block, p.offset + i * e.size⟩ e.size)

end Arena

end Lifespan
