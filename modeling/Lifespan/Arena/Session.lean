import Lifespan.Arena.Forms
import Lifespan.Slice.KeyIndex

/-!
# Sessions

An arena together with the ranges that it has handed out since the last reset. Each range has a
slot, numbered from zero in the order in which they were handed out, that says how large it is, how
it was asked to be aligned and how many of its leading bytes are known. A session carries out
requests one after another, so a whole history is a list of requests.
-/

namespace Lifespan

/-- A range that has been handed out. -/
structure Slot where
  placement : Placement
  size : Nat
  align : Nat
  /-- The number of leading bytes that have been written. -/
  written : Nat
deriving DecidableEq, Repr, Inhabited

/-- An arena and the ranges that it has handed out since the last reset. -/
structure Session (σ : Type) where
  arena : Arena σ
  slots : List Slot := []

/-- What may be asked of an arena. -/
inductive Request : Type 1 where
  | allocate (size : Nat)
  | allocateAligned (size align : Nat)
  | zeroed (size align : Nat)
  | copySlice (s : Slice)
  | concat (parts : List Slice)
  | array {α : Type} (e : Element α) (count : Nat)
  | alloc {α : Type} (e : Element α) (v : α)
  | allocCopy {α : Type} (e : Element α) (vs : List α)
  | allocFill {α : Type} (e : Element α) (count : Nat) (v : α)
  | write (slot : Nat) (bytes : Bytes)
  | reset

/-- What a request yields. -/
inductive Grant where
  /-- Nothing: the request was for no bytes, or for none to be handed out. -/
  | nothing
  | dangling (address : Nat)
  | placed (slot : Nat) (p : Placement)
deriving DecidableEq, Repr

/-- A way to name an address. -/
inductive Locus where
  | absolute (address : Nat)
  | slot (slot : Nat) (delta : Int)
  | block (block : Nat) (delta : Int)
deriving DecidableEq, Repr

namespace Session

variable {σ : Type} {α : Type}

/-- The session with a new slot for a range. -/
def record (s : Session σ) (a : Arena σ) (size align written : Nat) :
    Except Arena.Failure (Option Placement) → Except Arena.Failure Grant × Session σ
  | .error f => (.error f, { s with arena := a })
  | .ok none => (.ok .nothing, { s with arena := a })
  | .ok (some p) =>
    (.ok (.placed s.slots.length p),
      { arena := a, slots := s.slots ++ [⟨p, size, align, written⟩] })

/-- The session with a new slot for `count` values of a type, of which `known` have been written.
-/
def recordValues (s : Session σ) (a : Arena σ) (e : Element α) (count known : Nat) :
    Except Arena.Failure Spot → Except Arena.Failure Grant × Session σ
  | .ok (.dangling address) => (.ok (.dangling address), { s with arena := a })
  | .ok (.placed p) =>
    s.record a (count * e.size) e.align (if e.isPlain then known * e.size else 0) (.ok (some p))
  | .error f => (.error f, { s with arena := a })

/-- Stores bytes at the start of the range in a slot, if they fit into it. -/
def write (s : Session σ) (slot : Nat) (bytes : Bytes) : Session σ :=
  match s.slots[slot]? with
  | none => s
  | some range =>
    if bytes.length ≤ range.size then
      { arena := s.arena.writeAt range.placement 0 (bytes.map .byte)
        slots := s.slots.set slot { range with written := max range.written bytes.length } }
    else s

/-- Carries out a request. -/
def step [Source σ] (s : Session σ) : Request → Except Arena.Failure Grant × Session σ
  | .allocate size =>
    let (r, a) := s.arena.allocate size Alignment.standard
    s.record a size Alignment.standard 0 r
  | .allocateAligned size align =>
    let (r, a) := s.arena.allocate size align
    s.record a size align 0 r
  | .zeroed size align =>
    let (r, a) := s.arena.allocZeroed size align
    s.record a size align size r
  | .copySlice source =>
    let (r, a) := s.arena.copySlice source
    s.record a source.length 1 source.length r
  | .concat parts =>
    let (r, a) := s.arena.concat parts
    let total := sum (parts.map Slice.length)
    s.record a total 1 total r
  | .array e count =>
    let (r, a) := s.arena.allocateArray e count
    s.recordValues a e count 0 r
  | .alloc e v =>
    let (r, a) := s.arena.alloc e v
    s.recordValues a e 1 1 r
  | .allocCopy e vs =>
    let (r, a) := s.arena.allocCopy e vs
    s.recordValues a e vs.length vs.length r
  | .allocFill e count v =>
    let (r, a) := s.arena.allocFill e count v
    s.recordValues a e count count r
  | .write slot bytes => (.ok .nothing, s.write slot bytes)
  | .reset => (.ok .nothing, { arena := s.arena.reset })

/-- The session after a history of requests. -/
def run [Source σ] (s : Session σ) (requests : List Request) : Session σ :=
  requests.foldl (fun s r => (s.step r).2) s

/-! ## Observations -/

/-- The known bytes of a range. -/
def bytesOf (s : Session σ) (range : Slot) : Bytes := s.arena.bytesAt range.placement range.written

/-- The known bytes of the range in a slot. -/
def read? (s : Session σ) (slot : Nat) : Option Bytes := s.slots[slot]?.map s.bytesOf

/-- The known bytes of all ranges, the oldest first. -/
def readAll (s : Session σ) : List Bytes := s.slots.map s.bytesOf

/-- The known bytes of all ranges, in the order of slices. -/
def readSorted (s : Session σ) : List Bytes := (Slice.sort (s.readAll.map .mk)).map Slice.bytes

/-- The known bytes of the ranges in some slots, as slices. -/
def slices (s : Session σ) (slots : List Nat) : List Slice := (slots.filterMap s.read?).map .mk

/-- The address that a locus names, if it names one. -/
def resolve? (s : Session σ) : Locus → Option Nat
  | .absolute address => some address
  | .slot i delta => do
    let range ← s.slots[i]?
    let start ← s.arena.address? range.placement
    ((start : Int) + delta).toNat?
  | .block i delta => do
    let b ← s.arena.blocks[i]?
    ((b.base : Int) + delta).toNat?

/-- Whether the arena says of `length` bytes at a locus that they lie within it. -/
def containsAt (s : Session σ) (locus : Locus) (length : Nat) : Bool :=
  (s.resolve? locus).any fun address => decide (s.arena.Contains address length)

/-- Whether the arena says of every range that it lies within it. -/
def containsAll (s : Session σ) : Bool :=
  s.slots.all fun range =>
    match s.arena.address? range.placement with
    | some address => decide (s.arena.Contains address range.size)
    | none => false

/-- The values of a type at what a request has yielded. -/
def values (s : Session σ) (e : Element α) (n : Nat) : Grant → List α
  | .nothing => []
  | .dangling address => s.arena.valuesAt e (.dangling address) n
  | .placed _ p => s.arena.valuesAt e (.placed p) n

end Session

end Lifespan
