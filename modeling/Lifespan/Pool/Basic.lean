import Lifespan.Pool.Error
import Lifespan.Sum
import Lifespan.Text.Record

/-!
# Worker pools

A pool has a queue of tasks and workers that take them from its front, one at a time. It accepts
tasks until it is closed, and as long as any worker is left. Workers leave once the pool is closed
and the queue is empty. A task that ends abnormally takes its worker along. When no worker is left,
the tasks that still wait are discarded: at once if the queue has no limit, and not before the pool
is closed if it has one.

Any worker may act at any time, so a run of a pool is a sequence of moves, each of which says who
does what. A move that is not possible has no result.
-/

namespace Lifespan

/-- What a worker is doing. -/
inductive Worker (τ : Type) where
  | idle
  | busy (t : τ)
  | gone
deriving DecidableEq, Repr

/-- What happens to a task. -/
inductive Pool.Event (τ : Type) where
  | accepted (t : τ)
  | rejected (t : τ)
  | taken (worker : Nat) (t : τ)
  /-- A worker has ended it, normally or by a failure that the worker survives. -/
  | finished (worker : Nat) (t : τ)
  /-- It has ended and has taken its worker along. -/
  | lost (worker : Nat) (t : τ)
  /-- It has left the queue because no worker is left who could take it. -/
  | discarded (t : τ)
deriving DecidableEq, Repr

/-- A queue of tasks and the workers that take them. -/
structure Pool (τ : Type) where
  /-- The number of tasks that may wait; `none` is no limit. -/
  capacity : Option Nat := none
  isOpen : Bool := true
  queue : List τ := []
  workers : List (Worker τ)
  history : List (Pool.Event τ) := []
deriving Repr

/-- What a worker can do. -/
inductive Pool.Act where
  | take
  | finish
  | lose
  | leave
deriving DecidableEq, Repr

/-- A move of the owner or of a worker. -/
inductive Pool.Move (τ : Type) where
  | submit (t : τ)
  | close
  | act (worker : Nat) (a : Pool.Act)
deriving DecidableEq, Repr

namespace Worker

variable {τ : Type}

/-- Whether the worker has left. -/
def isGone : Worker τ → Bool
  | gone => true
  | _ => false

/-- Whether the worker waits for a task. -/
def isIdle : Worker τ → Bool
  | idle => true
  | _ => false

/-- The number of acts that a worker has left if no task comes. -/
def effort : Worker τ → Nat
  | idle => 1
  | busy _ => 2
  | gone => 0

end Worker

namespace Pool

variable {τ : Type}

/-- A pool with a number of workers, all of which wait. -/
def create? (count : Nat) (capacity : Option Nat) : Except Error (Pool τ) :=
  if count = 0 then .error .noWorkers
  else .ok { capacity, workers := List.replicate count .idle }

/-- Whether no worker is left. -/
def isDeserted (p : Pool τ) : Bool := p.workers.all Worker.isGone

/-- Whether the pool takes tasks. -/
def accepts (p : Pool τ) : Bool := p.isOpen && !p.isDeserted

/-- Whether one more task can wait. Where none may wait, a task is handed to a worker that waits
for it. -/
def hasRoom (p : Pool τ) : Bool :=
  match p.capacity with
  | none => true
  | some 0 => p.queue.isEmpty && p.workers.any Worker.isIdle
  | some n => decide (p.queue.length < n)

/-- The number of workers that belong to the pool. None does after it has been closed. -/
def workerCount (p : Pool τ) : Nat := if p.isOpen then p.workers.length else 0

/-- The pool after a further event. -/
def note (p : Pool τ) (e : Event τ) : Pool τ := { p with history := p.history ++ [e] }

/-- Hands a task in. -/
def submit (p : Pool τ) (t : τ) : Except Error Unit × Pool τ :=
  if p.accepts then (.ok (), { p with queue := p.queue ++ [t] }.note (.accepted t))
  else (.error .shutDown, p.note (.rejected t))

/-- The pool after a worker has changed to doing something else. -/
def setWorker (p : Pool τ) (i : Nat) (w : Worker τ) : Pool τ :=
  { p with workers := p.workers.set i w }

/-- Whether the tasks that wait are not kept: no worker is left, and the queue has no limit or the
pool has been closed. A queue with a limit keeps them for as long as the pool is open. -/
def isAbandoned (p : Pool τ) : Bool := p.isDeserted && (p.capacity.isNone || !p.isOpen)

/-- Discards the tasks that wait if they are not kept. -/
def discardAbandoned (p : Pool τ) : Pool τ :=
  if p.isAbandoned then
    { p with queue := [], history := p.history ++ p.queue.map Event.discarded }
  else p

/-- Accepts no more tasks. -/
def close (p : Pool τ) : Pool τ := { p with isOpen := false }.discardAbandoned

/-- Closing changes nothing else as long as somebody is left to take what waits. -/
theorem close_of_isDeserted_eq_false {p : Pool τ} (h : p.isDeserted = false) :
    p.close = { p with isOpen := false } := by
  have hd : ({ p with isOpen := false } : Pool τ).isDeserted = false := h
  simp [close, discardAbandoned, isAbandoned, hd]

/-- What a worker does, if it can. -/
def act (p : Pool τ) (i : Nat) (a : Act) : Option (Pool τ) :=
  match p.workers[i]?, a with
  | some .idle, .take =>
    match p.queue with
    | [] => none
    | t :: rest => some (({ p with queue := rest }.setWorker i (.busy t)).note (.taken i t))
  | some (.busy t), .finish => some ((p.setWorker i .idle).note (.finished i t))
  | some (.busy t), .lose => some (((p.setWorker i .gone).note (.lost i t)).discardAbandoned)
  | some .idle, .leave =>
    if !p.isOpen && p.queue.isEmpty then some (p.setWorker i .gone) else none
  | _, _ => none

/-- The pool after a move, if the move is possible. Handing a task in has to wait for room. -/
def step (p : Pool τ) : Move τ → Option (Pool τ)
  | .submit t => if p.accepts && !p.hasRoom then none else some (p.submit t).2
  | .close => some p.close
  | .act i a => p.act i a

/-- The pool after moves in a row, if all of them are possible. -/
def run (p : Pool τ) (moves : List (Move τ)) : Option (Pool τ) := moves.foldlM step p

/-- Whether the pool has been closed and all workers have left, which is what the owner waits for
after closing it. -/
def hasEnded (p : Pool τ) : Bool := !p.isOpen && p.isDeserted

/-- The text of a pool. -/
def describe (p : Pool τ) : String :=
  Text.record "ThreadPool" [("threads", toString p.workerCount),
    ("shut_down", Text.truth !p.isOpen)]

/-! ## Effort -/

/-- An upper bound for the number of acts that are left. -/
def effort (p : Pool τ) : Nat := 2 * p.queue.length + sum (p.workers.map Worker.effort)

theorem effort_setWorker {p : Pool τ} {i : Nat} {v : Worker τ} (h : p.workers[i]? = some v)
    (w : Worker τ) : (p.setWorker i w).effort + v.effort = p.effort + w.effort := by
  have := sum_map_set Worker.effort h w
  simp only [effort, setWorker]
  omega

@[simp] theorem effort_note (p : Pool τ) (e : Event τ) : (p.note e).effort = p.effort := rfl

theorem effort_discardAbandoned_le (p : Pool τ) : p.discardAbandoned.effort ≤ p.effort := by
  unfold discardAbandoned
  split
  · simp [effort]
  · exact Nat.le_refl _

/-- Each act brings the pool nearer to rest. -/
theorem effort_act_lt {p q : Pool τ} {i : Nat} {a : Act} (h : p.act i a = some q) :
    q.effort < p.effort := by
  unfold act at h
  split at h
  · next hw =>
    split at h
    · cases h
    · next t rest hq =>
      cases h
      have hw' : ({ p with queue := rest } : Pool τ).workers[i]? = some .idle := hw
      have := effort_setWorker hw' (.busy t)
      have hp : p.effort = ({ p with queue := rest } : Pool τ).effort + 2 := by
        simp only [effort, hq, List.length_cons]; omega
      simp only [effort_note, Worker.effort] at this ⊢
      omega
  · next t hw =>
    cases h
    have := effort_setWorker hw .idle
    simp only [effort_note, Worker.effort] at this ⊢
    omega
  · next t hw =>
    cases h
    have := effort_setWorker hw .gone
    have := effort_discardAbandoned_le ((p.setWorker i .gone).note (.lost i t))
    simp only [effort_note, Worker.effort] at *
    omega
  · next hw =>
    split at h
    · cases h
      have := effort_setWorker hw .gone
      simp only [Worker.effort] at this
      omega
    · cases h
  · cases h

end Pool

end Lifespan
