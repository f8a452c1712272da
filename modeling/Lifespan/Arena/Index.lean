import Lifespan.Arena.Block

/-!
# The index of rooms

For each block of an arena the index holds how many bytes are available in it. Entries are kept in
descending order, by room first and by block number second, so that a search meets the roomiest
block first and may stop as soon as the room is smaller than the request.
-/

namespace Lifespan

/-- The bytes available in a block of an arena. -/
structure Room where
  available : Nat
  block : Nat
deriving DecidableEq, Repr

/-- One room precedes another in the index when it is larger, or as large and in a later block. -/
def Room.Precedes (r s : Room) : Prop :=
  s.available < r.available ∨ s.available = r.available ∧ s.block < r.block

instance (r s : Room) : Decidable (r.Precedes s) := inferInstanceAs (Decidable (_ ∨ _))

/-- The rooms of an arena's blocks, in descending order. -/
abbrev Index := List Room

namespace Index

/-- The index with an entry put in its place. -/
def insert (r : Room) : Index → Index
  | [] => [r]
  | s :: rest => if s.Precedes r then s :: insert r rest else r :: s :: rest

/-- The index without an entry. -/
def erase (r : Room) (l : Index) : Index := List.erase l r

/-- The index of blocks numbered from `first` on. -/
def ofBlocks (first : Nat) : List Block → Index
  | [] => []
  | b :: rest => insert ⟨b.available, first⟩ (ofBlocks (first + 1) rest)

/-- The first entry whose block can hold `size` bytes at an alignment, and the offset in it. Apart
from padding, no block after the first one with less room than that can hold them either. -/
def search (blocks : List Block) (size align : Nat) :
    Index → Except Fault (Option (Room × Nat))
  | [] => .ok none
  | r :: rest =>
    if r.available < size then .ok none
    else match blocks[r.block]? with
      | none => .error (.index blocks.length r.block)
      | some b =>
        match b.peek size align with
        | some offset => .ok (some (r, offset))
        | none => search blocks size align rest

end Index

end Lifespan
