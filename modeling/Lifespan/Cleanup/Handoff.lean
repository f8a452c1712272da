import Lifespan.Cleanup.World

/-!
# Handing references to a pool

References to shared chains are handed to the workers of a pool. A task is an entry that gives a
reference up; a worker that takes it carries it out, and with it whatever this sets free. Threads
outside of the pool hold objects, clone their handles for further tasks and reset what they hold,
and one of them, the owner of the pool, closes it.

All threads act at any time. A thread that is carrying something out ends one entry after another,
and the others may act between two of them. Where a failure takes a worker along and nobody is left
to take the tasks that wait, they are dropped by whoever sees to it, and their references with them.
-/

namespace Lifespan.Cleanup

/-- A thread. -/
inductive Handoff.Party where
  | worker (i : Nat)
  /-- A thread outside of the pool. The first one owns the pool. -/
  | outside (j : Nat)
deriving DecidableEq, Repr

/-- What a thread is carrying out. -/
structure Handoff.Turn where
  party : Handoff.Party
  due : List (Fate × Entry)
  failure : Option String := none
deriving DecidableEq, Repr

/-- Threads that share a heap and a pool. -/
structure Handoff where
  heap : Heap
  objects : List Object
  pool : Pool Entry
  turns : List Handoff.Turn := []
  log : List (Handoff.Party × Event) := []
  nextTicket : Nat
  isAborted : Bool := false

/-- A move of one thread. -/
inductive Handoff.Move where
  | submit (k : Nat)
  | reset (j k : Nat)
  | close
  | take (i : Nat)
  | work (n : Nat)
  | rest (n : Nat)
  /-- A worker is taken along by its task, in which an action has failed. -/
  | lose (n : Nat)
  | leave (i : Nat)
deriving DecidableEq, Repr

namespace Handoff

/-- The owner of the pool. -/
def Party.owner : Party := .outside 0

/-- Whether a thread has no part in closing the pool: it is neither a worker nor the owner. -/
def Party.isStranger : Party → Bool
  | .worker _ | .outside 0 => false
  | .outside _ => true

/-- What a thread is carrying out, as a cascade over the heap that all share. -/
def Turn.cascade (u : Turn) (heap : Heap) : Cascade := { heap, due := u.due, failure := u.failure }

/-- The threads that are carrying something out. -/
def parties (s : Handoff) : List Party := s.turns.map Turn.party

/-- The tasks that have left the queue without being taken. -/
def discarded (s : Handoff) (pool : Pool Entry) : Chain :=
  if pool.queue.isEmpty then s.pool.queue else []

/-- The state after a clone has been handed in. -/
def submit (s : Handoff) (c : CellId) : Handoff :=
  { s with
    heap := s.heap.retain (some c) 1
    pool := (s.pool.submit ⟨s.nextTicket, .giveUp (some c)⟩).2
    nextTicket := s.nextTicket + 1 }

/-- The state after a thread has begun to reset an object. -/
def reset (s : Handoff) (j k : Nat) (o : Object) : Handoff :=
  let (freed, heap) := o.freed s.heap
  { s with
    heap
    objects := s.objects.set k o.emptied
    turns := s.turns ++ [⟨.outside j, freed.map (.ran, ·), none⟩] }

/-- The state after the pool has been closed. -/
def close (s : Handoff) : Handoff :=
  { s with
    pool := s.pool.close
    turns := s.turns ++ [⟨.owner, (s.discarded s.pool.close).map (.dropped, ·), none⟩] }

/-- The state after a worker has taken a task. -/
def take (s : Handoff) (i : Nat) (e : Entry) (pool : Pool Entry) : Handoff :=
  { s with pool, turns := s.turns ++ [⟨.worker i, [(.ran, e)], none⟩] }

/-- The state after a thread has ended an entry. -/
def work (s : Handoff) (n : Nat) (u : Turn) : Handoff :=
  let c := (u.cascade s.heap).step
  { s with
    heap := c.heap
    turns := s.turns.set n ⟨u.party, c.due, c.failure⟩
    log := s.log ++ c.events.map (u.party, ·)
    isAborted := c.isAborted }

/-- The state after a thread is done. -/
def rest (s : Handoff) (n : Nat) (pool : Pool Entry) : Handoff :=
  { s with pool, turns := s.turns.eraseIdx n }

/-- The state after a worker has been taken along. It drops what nobody is left to take. -/
def lose (s : Handoff) (n : Nat) (u : Turn) (pool : Pool Entry) : Handoff :=
  { s with
    pool
    turns := s.turns.set n { u with due := (s.discarded pool).map (.dropped, ·) } }

/-- The state after a move, if it is possible. A thread begins one thing after another, and nobody
moves after the program has been aborted. -/
def step (s : Handoff) (m : Move) : Option Handoff :=
  if s.isAborted then none
  else match m with
    | .submit k =>
      match s.objects[k]? with
      | some (.handle (some c)) =>
        if s.pool.accepts && s.pool.hasRoom then some (s.submit c) else none
      | _ => none
    | .reset j k =>
      if .outside j ∈ s.parties then none else (s.objects[k]?).map (s.reset j k)
    | .close => if .owner ∈ s.parties then none else some s.close
    | .take i =>
      match s.pool.queue with
      | e :: _ => (s.pool.act i .take).map (s.take i e)
      | [] => none
    | .work n =>
      match s.turns[n]? with
      | some u => if u.due.isEmpty then none else some (s.work n u)
      | none => none
    | .rest n =>
      match s.turns[n]? with
      | some ⟨.outside _, [], _⟩ => some (s.rest n s.pool)
      | some ⟨.worker i, [], _⟩ =>
        if s.pool.workers[i]? = some .gone then some (s.rest n s.pool)
        else (s.pool.act i .finish).map (s.rest n)
      | _ => none
    | .lose n =>
      match s.turns[n]? with
      | some ⟨.worker i, [], some label⟩ =>
        (s.pool.act i .lose).map (s.lose n ⟨.worker i, [], some label⟩)
      | _ => none
    | .leave i => (s.pool.act i .leave).map fun pool => { s with pool }

/-- The objects of a world in the hands of threads, with a pool. -/
def start (w : World) (pool : Pool Entry) : Handoff :=
  { heap := w.heap, objects := w.objects.map Prod.snd, pool, nextTicket := w.nextTicket }

/-- The state after moves in a row, if all of them are possible. -/
def run (s : Handoff) (moves : List Move) : Option Handoff := moves.foldlM step s

/-- Whether the owner is done with closing the pool: all workers have left, and neither they nor the
owner have anything to carry out. -/
def hasReturned (s : Handoff) : Bool :=
  s.pool.hasEnded && s.parties.all Party.isStranger

end Handoff

end Lifespan.Cleanup
