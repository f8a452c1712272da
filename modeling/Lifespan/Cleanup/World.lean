import Lifespan.Cleanup.Cascade
import Lifespan.Cleanup.Pinnable
import Lifespan.Pool.Basic

/-!
# Objects with cleanups

A world holds named objects that have cleanups: chains of their own, handles to shared chains, and
pinnable slices. It keeps the shared chains, hands out tickets, and records how entries end.

The target chain of an object is the chain to which entries can be added through it. A handle has
one only while it is the sole reference to its shared chain.

## Main definitions

* `Object`, `World`: named objects and what they share.
* `World.target?`, `World.setTarget`: the target chain of an object.
* `World.run`, `World.release`: carrying out a chain, and giving up a reference.
-/

namespace Lifespan.Cleanup

/-- Something that has cleanups. -/
inductive Object where
  | chain (entries : Chain)
  | handle (h : Handle)
  | pinnable (p : Pinnable)
deriving DecidableEq, Repr

namespace Object

/-- Whether the object is a reference to a shared chain. -/
def isHandle : Object → Bool
  | handle _ => true
  | _ => false

/-- The chain to which entries can be added through an object. -/
def target? (heap : Heap) : Object → Option Chain
  | chain entries => some entries
  | handle h => heap.exclusive? h
  | pinnable p => some p.cleanups

/-- The entries that are to be carried out when an object is given up, and the heap then. -/
def freed (heap : Heap) : Object → Chain × Heap
  | .chain entries => (entries, heap)
  | .handle h => heap.release h
  | .pinnable p => (p.cleanups, heap)

/-- What becomes of an object that is reset. -/
def emptied : Object → Object
  | .chain _ => .chain []
  | .handle _ => .handle none
  | .pinnable p => .pinnable { p with cleanups := [] }

/-- The text of an object. -/
def describe (heap : Heap) : Object → String
  | chain entries => Text.record "Cleanable" [("pending", toString entries.length)]
  | handle h => Text.record "SharedCleanablePtr" [("refs", toString (heap.refCount h))]
  | pinnable p => p.describe

end Object

/-- Named objects with cleanups. -/
structure World where
  objects : List (String × Object) := []
  heap : Heap := {}
  log : Log := []
  nextTicket : Nat := 0
  /-- Whether an action has failed while the failure of another was being handled. -/
  isAborted : Bool := false
deriving DecidableEq, Repr

/-- What a command yields. -/
inductive Reply where
  | done
  | accepted (isTaken : Bool)
  /-- A target chain was needed that does not exist, and nothing was done. -/
  | refused
  /-- The names in the command do not fit the objects, and nothing was done. -/
  | misnamed
  | buffer (bytes : Bytes)
  | workers (count : Nat)
  | unpooled (e : Pool.Error)
deriving DecidableEq, Repr

/-- What a command yields unless it faults, and the world after it. -/
abbrev Reaction := Except Fault Reply × World

namespace World

/-! ## Names -/

/-- The object with a name. -/
def find? (w : World) (id : String) : Option Object := w.objects.lookup id

/-- Whether no object has a name. -/
def isFree (w : World) (id : String) : Bool := (w.find? id).isNone

/-- Adds an object under a name that is free. -/
def insert (w : World) (id : String) (o : Object) : World :=
  { w with objects := w.objects ++ [(id, o)] }

/-- Puts an object in the place of the one with a name. -/
def put (w : World) (id : String) (o : Object) : World :=
  { w with objects := w.objects.map fun entry => if entry.1 = id then (id, o) else entry }

/-- Takes the object with a name away. -/
def erase (w : World) (id : String) : World :=
  { w with objects := w.objects.filter fun entry => decide (entry.1 ≠ id) }

/-! ## Entries -/

/-- The target chain of the object with a name. -/
def target? (w : World) (id : String) : Option Chain := (w.find? id).bind (·.target? w.heap)

/-- Puts entries in the place of the target chain of the object with a name. -/
def setTarget (w : World) (id : String) (entries : Chain) : World :=
  match w.find? id with
  | none => w
  | some (.chain _) => w.put id (.chain entries)
  | some (.handle h) => { w with heap := w.heap.setChain h entries }
  | some (.pinnable p) => w.put id (.pinnable { p with cleanups := entries })

/-- A new entry, which takes the next ticket. -/
def issue (w : World) (duty : Duty) : Entry × World :=
  (⟨w.nextTicket, duty⟩, { w with nextTicket := w.nextTicket + 1 })

/-- Adds a new entry to the target chain of the object with a name, which holds `entries`. -/
def enter (w : World) (id : String) (entries : Chain) (duty : Duty) : World :=
  let (e, w) := w.issue duty
  w.setTarget id (entries ++ [e])

/-- Drops an entry that no chain has taken. -/
def discard (w : World) (e : Entry) : World := { w with log := w.log ++ [⟨e, .dropped⟩] }

/-- Carries out the entries of a chain that nothing refers to any more. -/
def run (w : World) (entries : Chain) : Reaction :=
  let c := (Cascade.start w.heap entries).settle
  let outcome := match c.failure with
    | some label => .error (if c.isAborted then .doubleFailure else .cleanup label)
    | none => .ok .done
  (outcome, { w with
    heap := c.heap, log := w.log ++ c.events, isAborted := w.isAborted || c.isAborted })

/-- Gives up the reference of a handle. -/
def release (w : World) (h : Handle) : Reaction :=
  let (freed, heap) := w.heap.release h
  { w with heap }.run freed

/-- Gives up what an object holds. -/
def giveUp (w : World) : Object → Reaction
  | .chain entries => w.run entries
  | .handle h => w.release h
  | .pinnable p => w.run p.cleanups

end World

end Lifespan.Cleanup
