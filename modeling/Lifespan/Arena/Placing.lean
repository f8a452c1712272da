import Lifespan.Arena.Basic

/-!
# Placing a range

A range is placed in the roomiest block that can hold it. If there is none, a new block is made:
of the running size if the request is not larger than that, and otherwise for this one request.
Every way in which no range comes about leaves the arena as it was, its source's own counters
apart.
-/

namespace Lifespan.Arena

variable {σ : Type}

/-- Claims a range in the roomiest block that can hold it. -/
def reuse (a : Arena σ) (size align : Nat) : Except Fault (Option (Placement × Arena σ)) :=
  match a.index.search a.blocks size align with
  | .error f => .error f
  | .ok none => .ok none
  | .ok (some (room, offset)) =>
    match a.blocks[room.block]? with
    | none => .error (.index a.blocks.length room.block)
    | some b =>
      match b.claim offset size with
      | .error f => .error f
      | .ok b' =>
        .ok (some (⟨room.block, offset⟩, { a with
          blocks := a.blocks.set room.block b'
          index := (a.index.erase room).insert ⟨b'.available, room.block⟩ }))

/-- Whether a request needs a block of its own. -/
def IsLarge (a : Arena σ) (size : Nat) : Prop := a.nextBlockSize < size

instance (a : Arena σ) (size : Nat) : Decidable (a.IsLarge size) :=
  inferInstanceAs (Decidable (_ < _))

/-- The alignment of a new block for a request. -/
def blockAlign (align : Nat) : Nat := max align Alignment.standard

/-- The size of a new block for a request: the running size, or for a large request its own size,
rounded up to the alignment of the block. -/
def newBlockSize? (a : Arena σ) (size align : Nat) : Option Nat :=
  if a.IsLarge size then Alignment.roundUp? size (blockAlign align) else some a.nextBlockSize

/-- The memory limit, if it does not admit another block of a size. -/
def violatedLimit? (a : Arena σ) (blockSize : Nat) : Option Nat :=
  match a.config.memoryLimit with
  | none => none
  | some limit =>
    match Word.add? a.memoryBytes blockSize with
    | none => some limit
    | some total => if total ≤ limit then none else some limit

/-- A new block with its first range, and the offset of that range. -/
def openBlock (grant : Source.Grant) (capacity size align : Nat) : Except Fault (Nat × Block) :=
  let fresh : Block := { grant, capacity }
  match fresh.peek size align with
  | none => .error .freshBlock
  | some offset =>
    match fresh.claim offset size with
    | .error f => .error f
    | .ok b => .ok (offset, b)

/-- The arena with a new block. The running size moves on unless the block was made for one large
request. -/
def addBlock (a : Arena σ) (b : Block) (isLarge : Bool) : Arena σ :=
  { a with
    blocks := a.blocks ++ [b]
    index := a.index.insert ⟨b.available, a.blocks.length⟩
    memoryBytes := a.memoryBytes + b.grant.layout.size
    nextBlockSize := if isLarge then a.nextBlockSize else a.config.growth.advance a.nextBlockSize }

/-- Makes a new block and claims a range in it. -/
def grow [Source σ] (a : Arena σ) (size align : Nat) : Except Failure Placement × Arena σ :=
  match a.newBlockSize? size align with
  | none => (.error (.error (.outOfMemory size size)), a)
  | some blockSize =>
    match a.violatedLimit? blockSize with
    | some limit => (.error (.error (.capacityExceeded size limit)), a)
    | none =>
      match Layout.of? blockSize (blockAlign align) with
      | none => (.error (.error (.outOfMemory size blockSize)), a)
      | some layout =>
        match Source.allocate layout a.source with
        | (none, source) => (.error (.error (.outOfMemory size blockSize)), { a with source })
        | (some base, source) =>
          let capacity := max (Source.usableSize layout source) blockSize
          match openBlock ⟨base, layout⟩ capacity size align with
          | .error f => (.error (.fault f), { a with source })
          | .ok (offset, b) =>
            (.ok ⟨a.blocks.length, offset⟩,
              { a with source }.addBlock b (decide (a.IsLarge size)))

/-- The arena after `size` more bytes have been handed out. -/
def charge (a : Arena σ) (size : Nat) : Arena σ :=
  { a with allocatedBytes := a.allocatedBytes + size }

/-- Claims a range of at least one byte at a power of two. -/
def place [Source σ] (a : Arena σ) (size align : Nat) : Except Failure Placement × Arena σ :=
  if maxAlign < align then (.error (.fault (.alignment align maxAlign)), a)
  else match a.reuse size align with
    | .error f => (.error (.fault f), a)
    | .ok (some (p, a')) => (.ok p, a'.charge size)
    | .ok none =>
      match a.grow size align with
      | (.error e, a') => (.error e, a')
      | (.ok p, a') => (.ok p, a'.charge size)

/-- Claims a range of bytes; a range without bytes is none. -/
def allocate [Source σ] (a : Arena σ) (size align : Nat) :
    Except Failure (Option Placement) × Arena σ :=
  if size = 0 then (.ok none, a)
  else if ¬ Alignment.IsValid align then (.error (.error (.invalidAlignment align)), a)
  else match a.place size align with
    | (.error e, a') => (.error e, a')
    | (.ok p, a') => (.ok (some p), a')

end Lifespan.Arena
