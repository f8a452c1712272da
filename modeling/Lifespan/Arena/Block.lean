import Lifespan.Fault
import Lifespan.Source.Basic

/-!
# Blocks

A block is an extent with a cursor that separates the claimed bytes from the free ones. Ranges are
claimed at the cursor, after as many bytes of padding as their alignment needs at the block's
address, and are given up all at once by `Block.rewind`.
-/

namespace Lifespan

/-- An extent of memory with a cursor. -/
structure Block where
  grant : Source.Grant
  capacity : Nat
  /-- The number of bytes claimed, padding included. -/
  cursor : Nat := 0
deriving DecidableEq, Repr

namespace Block

/-- The address of the first byte. -/
def base (b : Block) : Nat := b.grant.base

/-- The number of bytes not claimed. -/
def available (b : Block) : Nat := b.capacity - b.cursor

/-- The least offset from the cursor on at which `size` bytes are aligned, if they fit. -/
def peek (b : Block) (size align : Nat) : Option Nat :=
  match Word.add? b.base b.cursor with
  | none => none
  | some here =>
    match Alignment.roundUp? here align with
    | none => none
    | some aligned =>
      let offset := b.cursor + (aligned - here)
      match Word.add? offset size with
      | none => none
      | some stop => if stop ≤ b.capacity then some offset else none

/-- Claims `size` bytes at an offset. -/
def claim (b : Block) (offset size : Nat) : Except Fault Block :=
  if offset < b.cursor then .error .behindCursor
  else match Word.add? offset size with
    | none => .error .pastBlock
    | some stop => if stop ≤ b.capacity then .ok { b with cursor := stop } else .error .pastBlock

/-- The block with nothing claimed. -/
def rewind (b : Block) : Block := { b with cursor := 0 }

/-- A range lies within a block when it ends at a word and all of it is claimed. -/
def Contains (b : Block) (address length : Nat) : Prop :=
  address + length < Word.bound ∧ b.base ≤ address ∧ address + length ≤ b.base + b.cursor

instance (b : Block) (address length : Nat) : Decidable (b.Contains address length) :=
  inferInstanceAs (Decidable (_ ∧ _))

end Block

end Lifespan
