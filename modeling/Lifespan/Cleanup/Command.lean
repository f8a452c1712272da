import Lifespan.Cleanup.World

/-!
# Commands on objects with cleanups

What can be done to the objects of a world, one command after another. A fault ends its command but
not the ones after it. Where a command needs the target chain of an object that has none, it is
refused and does nothing.
-/

namespace Lifespan.Cleanup

/-- What can be asked for. Names in one command are meant to differ. -/
inductive Command where
  | createChain (id : String)
  | createHandle (id : String) (isAllocated : Bool)
  | createPinnable (id : String)
  /-- A new entry for an action, which is dropped if there is no chain to take it. -/
  | register (id : String) (a : Action)
  /-- A new entry that writes a label and is never told to have been dropped. -/
  | record (id : String) (label : String)
  | delegate (id target : String)
  | reset (id : String)
  /-- The entries of a target chain are carried out, and the object stays what it is. -/
  | flush (id : String)
  | drop (id : String)
  | rename (id new : String)
  /-- An object becomes part of a new entry, which ends it. -/
  | nest (id target : String)
  | allocate (id : String)
  | share (id new : String)
  /-- A new reference to what a handle refers to is given up by a new entry. -/
  | registerCopy (id target : String)
  | moveInto (id target : String)
  /-- New references to what a handle refers to are given up by the workers of a pool, and the
  handle is reset. -/
  | releaseOnPool (id : String) (copies workers : Nat)
  | pinSlice (id : String) (s : Slice) (a : Action)
  | pinSliceFrom (id : String) (s : Slice) (source : String)
  | pinSelf (id : String) (s : Slice)
  | repinSelf (id : String)
  | dropFront (id : String) (count : Nat)
  | dropBack (id : String) (count : Nat)
  | edit (id : String) (e : BufferEdit)
deriving DecidableEq, Repr

namespace World

/-- The reaction to a command whose names do not fit. -/
def misnamed (w : World) : Reaction := (.ok .misnamed, w)

/-- The reaction to a command that lacks a target chain. -/
def refused (w : World) : Reaction := (.ok .refused, w)

/-- The reaction to a command that has led to a world. -/
def done (w : World) : Reaction := (.ok .done, w)

/-! ## All objects -/

/-- Adds an object, if its name is free. -/
def create (w : World) (id : String) (o : Object) : Reaction :=
  if w.isFree id then (w.insert id o).done else w.misnamed

/-- Adds a handle that refers to a new shared chain, or to nothing, if its name is free. -/
def createHandle (w : World) (id : String) (isAllocated : Bool) : Reaction :=
  if !w.isFree id then w.misnamed
  else if isAllocated then
    let (c, heap) := w.heap.allocate []
    ({ w with heap }.insert id (.handle (some c))).done
  else (w.insert id (.handle none)).done

/-- Registers an action. Only a handle can lack a target chain. An action that owns an object is
`nest`; when it is refused it is dropped together with the object, which is a refused registration
and then `drop`. -/
def register (w : World) (id : String) (a : Action) : Reaction :=
  match w.find? id with
  | none => w.misnamed
  | some o =>
    match o.target? w.heap with
    | some entries =>
      (.ok (if o.isHandle then .accepted true else .done), w.enter id entries (.perform a))
    | none =>
      let (e, w) := w.issue (.perform a)
      (.ok (.accepted false), w.discard e)

/-- Registers an action that writes a label, if there is a chain to take it. -/
def record (w : World) (id : String) (label : String) : Reaction :=
  match w.target? id with
  | none => w.refused
  | some entries =>
    (.ok (.accepted true), w.enter id entries (.perform { label, tellsDrop := false }))

/-- Moves all entries of one target chain behind those of another. -/
def delegate (w : World) (id target : String) : Reaction :=
  if id = target then w.misnamed
  else match w.target? id, w.target? target with
    | some moved, some entries =>
      let (left, taken) := Chain.delegate moved entries
      ((w.setTarget target taken).setTarget id left).done
    | _, _ => w.refused

/-- Carries out the cleanups of an object. If one of them fails, a pinnable slice goes on showing
what it showed. -/
def reset (w : World) (id : String) : Reaction :=
  match w.find? id with
  | none => w.misnamed
  | some (.chain entries) => (w.put id (.chain [])).run entries
  | some (.handle h) => (w.put id (.handle none)).release h
  | some (.pinnable p) =>
    match (w.put id (.pinnable { p with cleanups := [] })).run p.cleanups with
    | (.ok r, w) => (.ok r, w.put id (.pinnable { p with view := .nothing, cleanups := [] }))
    | (.error f, w) => (.error f, w)

/-- Carries out the entries of the target chain of an object, which stays what it is: a handle goes
on referring to its shared chain, and a pinnable slice goes on showing what it showed. -/
def flush (w : World) (id : String) : Reaction :=
  match w.target? id with
  | none => w.refused
  | some entries => (w.setTarget id []).run entries

/-- Ends an object. -/
def drop (w : World) (id : String) : Reaction :=
  match w.find? id with
  | none => w.misnamed
  | some o => (w.erase id).giveUp o

/-- Gives an object another name. -/
def rename (w : World) (id new : String) : Reaction :=
  match w.find? id with
  | none => w.misnamed
  | some o => if w.isFree new then ((w.erase id).insert new o).done else w.misnamed

/-- A handle that stands for an object inside an entry. Anything but a handle is kept as a shared
chain with a single reference; of a pinnable slice only the chain is kept, because nothing can
look at its bytes any more. -/
def enclose (w : World) : Object → Handle × World
  | .chain entries =>
    let (c, heap) := w.heap.allocate entries
    (some c, { w with heap })
  | .handle h => (h, w)
  | .pinnable p =>
    let (c, heap) := w.heap.allocate p.cleanups
    (some c, { w with heap })

/-- Makes an object part of a new entry. Without a target chain it stays where it is; to have it
end with an entry that is refused is another command, `drop`. -/
def nest (w : World) (id target : String) : Reaction :=
  if id = target then w.misnamed
  else match w.find? id, w.target? target with
    | none, _ => w.misnamed
    | some _, none => w.refused
    | some o, some entries =>
      let (h, w) := (w.erase id).enclose o
      (w.enter target entries (.giveUp h)).done

/-! ## Handles -/

/-- Resets a handle and lets it refer to a new shared chain. If an action fails, the handle is left
without reference. -/
def allocate (w : World) (id : String) : Reaction :=
  match w.find? id with
  | some (.handle h) =>
    match (w.put id (.handle none)).release h with
    | (.ok _, w) =>
      let (c, heap) := w.heap.allocate []
      ({ w with heap }.put id (.handle (some c))).done
    | (.error f, w) => (.error f, w)
  | _ => w.misnamed

/-- Adds a handle that refers to what another refers to. -/
def share (w : World) (id new : String) : Reaction :=
  match w.find? id with
  | some (.handle h) =>
    if w.isFree new then
      ({ w with heap := w.heap.retain h 1 }.insert new (.handle h)).done
    else w.misnamed
  | _ => w.misnamed

/-- Lets a new entry give up a new reference. There is none if the handle refers to nothing. -/
def registerCopy (w : World) (id target : String) : Reaction :=
  if id = target then w.misnamed
  else match w.find? id, w.target? target with
    | some (.handle _), none => w.refused
    | some (.handle none), some _ => w.done
    | some (.handle (some c)), some entries =>
      ({ w with heap := w.heap.retain (some c) 1 }.enter target entries (.giveUp (some c))).done
    | _, _ => w.misnamed

/-- Lets a new entry give up the reference of a handle. There is none if the handle refers to
nothing. -/
def moveInto (w : World) (id target : String) : Reaction :=
  if id = target then w.misnamed
  else match w.find? id, w.target? target with
    | some (.handle _), none => w.refused
    | some (.handle none), some _ => w.done
    | some (.handle (some c)), some entries =>
      ((w.put id (.handle none)).enter target entries (.giveUp (some c))).done
    | _, _ => w.misnamed

/-- Gives up `n` references one after another. A failure stays with the worker that meets it. -/
def releaseTimes (w : World) (h : Handle) : Nat → World
  | 0 => w
  | n + 1 => (w.release h).2.releaseTimes h n

/-- Gives up `copies` new references on the workers of a pool, and then the handle's own one. All
workers have ended when the pool is shut down. -/
def releaseOnPool (w : World) (id : String) (copies workers : Nat) : Reaction :=
  match w.find? id with
  | some (.handle h) =>
    match (Pool.create? workers none : Except Pool.Error (Pool Handle)) with
    | .error e => (.ok (.unpooled e), w)
    | .ok pool =>
      let w := { w with heap := w.heap.retain h copies }.releaseTimes h copies
      match (w.put id (.handle none)).release h with
      | (.ok _, w) => (.ok (.workers pool.close.workerCount), w)
      | (.error f, w) => (.error f, w)
  | _ => w.misnamed

/-! ## Pinnable slices -/

/-- Lets a pinnable slice change. -/
def adjust (w : World) (id : String) (change : Pinnable → Except Fault Pinnable) : Reaction :=
  match w.find? id with
  | some (.pinnable p) =>
    match change p with
    | .ok q => (w.put id (.pinnable q)).done
    | .error f => (.error f, w)
  | _ => w.misnamed

/-- Shows foreign bytes that a new entry gives back. -/
def pinSlice (w : World) (id : String) (s : Slice) (a : Action) : Reaction :=
  match w.find? id with
  | some (.pinnable p) =>
    let (e, w) := w.issue (.perform a)
    match p.pin .pinSlice s with
    | .ok q => (w.put id (.pinnable { q with cleanups := q.cleanups ++ [e] })).done
    | .error f => (.error f, w.discard e)
  | _ => w.misnamed

/-- Shows foreign bytes that the entries of another object give back. -/
def pinSliceFrom (w : World) (id : String) (s : Slice) (source : String) : Reaction :=
  if id = source then w.misnamed
  else match w.find? id, w.target? source with
    | some (.pinnable _), none => w.refused
    | some (.pinnable p), some entries =>
      match p.pin .pinSliceFrom s with
      | .ok q =>
        let (left, taken) := Chain.delegate entries q.cleanups
        ((w.put id (.pinnable { q with cleanups := taken })).setTarget source left).done
      | .error f => (.error f, w)
    | _, _ => w.misnamed

/-- Changes the own buffer of a pinnable slice. -/
def edit (w : World) (id : String) (e : BufferEdit) : Reaction :=
  match w.find? id with
  | some (.pinnable p) => (.ok (.buffer (p.edit e).buffer), w.put id (.pinnable (p.edit e)))
  | _ => w.misnamed

/-! ## Histories -/

/-- What becomes of a world through a command. -/
def step (w : World) : Command → Reaction
  | .createChain id => w.create id (.chain [])
  | .createHandle id isAllocated => w.createHandle id isAllocated
  | .createPinnable id => w.create id (.pinnable {})
  | .register id a => w.register id a
  | .record id label => w.record id label
  | .delegate id target => w.delegate id target
  | .reset id => w.reset id
  | .flush id => w.flush id
  | .drop id => w.drop id
  | .rename id new => w.rename id new
  | .nest id target => w.nest id target
  | .allocate id => w.allocate id
  | .share id new => w.share id new
  | .registerCopy id target => w.registerCopy id target
  | .moveInto id target => w.moveInto id target
  | .releaseOnPool id copies workers => w.releaseOnPool id copies workers
  | .pinSlice id s a => w.pinSlice id s a
  | .pinSliceFrom id s source => w.pinSliceFrom id s source
  | .pinSelf id s => w.adjust id (·.copy s)
  | .repinSelf id => w.adjust id (·.showBuffer)
  | .dropFront id n => w.adjust id (·.dropFront n)
  | .dropBack id n => w.adjust id (·.dropBack n)
  | .edit id e => w.edit id e

/-- The world after a history of commands. -/
def steps (w : World) (history : List Command) : World :=
  history.foldl (fun w c => (w.step c).2) w

/-- Drops the objects with the given names, and tells which faults that led to. -/
def dropAll (w : World) : List String → List Fault × World
  | [] => ([], w)
  | id :: rest =>
    match w.drop id with
    | (.ok _, w) => w.dropAll rest
    | (.error f, w) =>
      let (faults, w) := w.dropAll rest
      (f :: faults, w)

/-- Drops all objects that are left, in ascending order of their names. -/
def close (w : World) : List Fault × World :=
  w.dropAll ((w.objects.map Prod.fst).mergeSort fun a b => decide (a ≤ b))

end World

end Lifespan.Cleanup
