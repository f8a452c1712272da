import Lifespan.Cleanup.Entry
import Lifespan.Sum

/-!
# A shared chain among threads

Threads that hold references to one shared chain, each acting at any time. A reference is held
either by a handle of the thread or by an entry of a chain that belongs to the thread alone. Giving
up a reference and freeing the chain are two steps, because other threads may act between them; so
are seeing that a reference is the only one and changing the chain.

Whether a thread can make a move depends on the thread alone: it has to hold the reference that the
move is about. Nothing here asks whether the chain has been freed already.
-/

namespace Lifespan.Cleanup

/-- What a thread is in the middle of. -/
inductive Sharing.Stage where
  | calm
  /-- It has given up what it saw to be the last reference, and is about to free the chain. -/
  | destroying
  /-- It has seen that its reference is the only one, and may change the chain. -/
  | exclusive
deriving DecidableEq, Repr

/-- What a thread holds. -/
structure Sharing.Thread where
  handles : Nat := 0
  /-- The number of references held by entries of its own chains. -/
  entries : Nat := 0
  stage : Sharing.Stage := .calm
deriving DecidableEq, Repr

/-- A shared chain and the threads that may hold references to it. -/
structure Sharing where
  count : Nat
  chain : Chain := []
  threads : List Sharing.Thread
  runs : List Chain := []
  isFreed : Bool := false
deriving DecidableEq, Repr

/-- A move of one thread. A thread that may change the chain can add an entry to it, or leave any
other entries there. -/
inductive Sharing.Move where
  | clone (i : Nat)
  | send (i j : Nat)
  | drop (i : Nat)
  | registerCopy (i : Nat)
  | moveInto (i : Nat)
  | fire (i : Nat)
  | destroy (i : Nat)
  | inspect (i : Nat)
  | extend (i : Nat) (e : Entry)
  | change (i : Nat) (entries : Chain)
  | letGo (i : Nat)
deriving DecidableEq, Repr

namespace Sharing

/-- Whether a move reads or writes the memory of the shared chain. -/
def Move.touches : Move → Bool
  | send _ _ | moveInto _ | letGo _ => false
  | _ => true

/-- The number of references that a thread holds. -/
def Thread.references (t : Thread) : Nat := t.handles + t.entries

/-- The number of references that have not been given up. -/
def references (s : Sharing) : Nat := sum (s.threads.map Thread.references)

/-- A thread that is in the middle of nothing. -/
def calm? (s : Sharing) (i : Nat) : Option Thread :=
  s.threads[i]?.filter fun t => decide (t.stage = .calm)

/-- A thread that is in the middle of nothing and has a handle. -/
def holder? (s : Sharing) (i : Nat) : Option Thread :=
  (s.calm? i).filter fun t => decide (0 < t.handles)

/-- A thread that may change the chain. -/
def writer? (s : Sharing) (i : Nat) : Option Thread :=
  s.threads[i]?.filter fun t => decide (t.stage = .exclusive)

/-- The state after what a thread holds has changed. -/
def setThread (s : Sharing) (i : Nat) (t : Thread) : Sharing :=
  { s with threads := s.threads.set i t }

/-- The state after one more reference has been counted. -/
def increment (s : Sharing) : Sharing := { s with count := s.count + 1 }

/-- The state after one reference less has been counted. The thread that sees the count fall from
one has to free the chain. -/
def decrement (s : Sharing) (i : Nat) (t : Thread) : Sharing :=
  { s with count := s.count - 1 }.setThread i
    { t with stage := if s.count = 1 then .destroying else .calm }

/-- The state after a move, if the thread can make it. -/
def step (s : Sharing) : Move → Option Sharing
  | .clone i => (s.holder? i).map fun t =>
    s.increment.setThread i { t with handles := t.handles + 1 }
  | .send i j =>
    match s.holder? i, s.threads[j]? with
    | some t, some u =>
      if i = j then none
      else some ((s.setThread i { t with handles := t.handles - 1 }).setThread j
        { u with handles := u.handles + 1 })
    | _, _ => none
  | .drop i => (s.holder? i).map fun t => s.decrement i { t with handles := t.handles - 1 }
  | .registerCopy i => (s.holder? i).map fun t =>
    s.increment.setThread i { t with entries := t.entries + 1 }
  | .moveInto i => (s.holder? i).map fun t =>
    s.setThread i { t with handles := t.handles - 1, entries := t.entries + 1 }
  | .fire i => ((s.calm? i).filter fun t => decide (0 < t.entries)).map fun t =>
    s.decrement i { t with entries := t.entries - 1 }
  | .destroy i =>
    (s.threads[i]?.filter fun t => decide (t.stage = .destroying)).map fun t =>
      { s with isFreed := true, runs := s.runs ++ [s.chain], chain := [] }.setThread i
        { t with stage := .calm }
  | .inspect i => (s.holder? i).map fun t =>
    s.setThread i { t with stage := if s.count = 1 then .exclusive else .calm }
  | .extend i e => (s.writer? i).map fun _ => { s with chain := s.chain ++ [e] }
  | .change i entries => (s.writer? i).map fun _ => { s with chain := entries }
  | .letGo i => (s.writer? i).map fun t => s.setThread i { t with stage := .calm }

/-- One thread with the only reference, and `others` threads without any. -/
def start (others : Nat) : Sharing :=
  { count := 1, threads := { handles := 1 } :: List.replicate others {} }

/-- The states to which moves of any threads in any order lead. -/
inductive Reachable : Sharing → Prop where
  | start (others : Nat) : Reachable (start others)
  | step {s t : Sharing} {m : Move} : Reachable s → s.step m = some t → Reachable t

end Sharing

end Lifespan.Cleanup
