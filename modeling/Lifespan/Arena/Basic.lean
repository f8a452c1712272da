import Lifespan.Arena.Error
import Lifespan.Arena.Index
import Lifespan.Memory.Cell
import Lifespan.Sum

/-!
# Arenas

An arena hands out ranges of bytes from a growing list of blocks. Ranges are never given back one
by one: `Arena.reset` rewinds all blocks at once and keeps them, `Arena.release` returns them to
their source.
-/

namespace Lifespan

/-- Where a range lies. -/
structure Placement where
  block : Nat
  offset : Nat
deriving DecidableEq, Repr, Inhabited

/-- A growing list of blocks, taken from a source with state in `σ`. -/
structure Arena (σ : Type) where
  config : Config
  source : σ
  blocks : List Block := []
  index : Index := []
  /-- The size of the next block that is not made for one large request. -/
  nextBlockSize : Nat
  /-- The number of bytes handed out since the last reset. -/
  allocatedBytes : Nat := 0
  memoryBytes : Nat := 0
  memory : Memory := []

namespace Arena

variable {σ : Type}

/-- The greatest alignment of a range. -/
def maxAlign : Nat := Alignment.page

/-- An arena without blocks, if the configuration has no flaw. -/
def create? (config : Config) (source : σ) : Except Error (Arena σ) :=
  match config.flaw? with
  | some flaw => .error (.invalidConfig flaw)
  | none => .ok { config, source, nextBlockSize := config.initialBlockSize }

/-- The arena with all ranges given up and all blocks kept. -/
def reset (a : Arena σ) : Arena σ :=
  let blocks := a.blocks.map Block.rewind
  { a with blocks, index := Index.ofBlocks 0 blocks, allocatedBytes := 0 }

/-- The source after all blocks have been given back, the oldest first. -/
def release [Source σ] (a : Arena σ) : σ :=
  a.blocks.foldl (fun s b => Source.deallocate b.grant.base b.grant.layout s) a.source

/-! ## Observations -/

/-- The number of bytes claimed in all blocks, padding included. -/
def usedBytes (a : Arena σ) : Nat := sum (a.blocks.map Block.cursor)

/-- The number of bytes available in each block. -/
def available (a : Arena σ) : List Nat := a.blocks.map Block.available

/-- The address at an offset of a block. -/
def address? (a : Arena σ) (p : Placement) : Option Nat :=
  a.blocks[p.block]?.map fun b => b.base + p.offset

/-- A range lies within an arena when it lies within the claimed bytes of one of its blocks. -/
def Contains (a : Arena σ) (address length : Nat) : Prop :=
  ∃ b ∈ a.blocks, b.Contains address length

instance (a : Arena σ) (address length : Nat) : Decidable (a.Contains address length) :=
  inferInstanceAs (Decidable (∃ b ∈ a.blocks, _))

/-- The text of an arena. -/
def describe (a : Arena σ) : String :=
  Text.record "Arena" [("blocks", toString a.blocks.length),
    ("memory_bytes", toString a.memoryBytes), ("allocated_bytes", toString a.allocatedBytes),
    ("next_block_size", toString a.nextBlockSize)]

/-! ## Content -/

/-- Writes cells from an offset of a placed range on. -/
def writeAt (a : Arena σ) (p : Placement) (offset : Nat) (cells : List Cell) : Arena σ :=
  match a.address? p with
  | none => a
  | some address => { a with memory := a.memory.write (address + offset) cells }

/-- The first `n` cells of a placed range. -/
def cellsAt (a : Arena σ) (p : Placement) (n : Nat) : List Cell :=
  match a.address? p with
  | none => []
  | some address => a.memory.readRange address n

/-- The first `n` bytes of a placed range. -/
def bytesAt (a : Arena σ) (p : Placement) (n : Nat) : Bytes := (a.cellsAt p n).map Cell.toByte

end Arena

end Lifespan
