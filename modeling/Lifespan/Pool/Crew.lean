import Lifespan.Pool.Basic

/-!
# Crews

A crew is a pool whose tasks are jobs that can be told apart from outside: a job with a label, a job
that holds its worker until a gate opens, and a job that ends its worker. After each request the
crew is driven to rest: workers act for as long as any of them can, the first in the list of workers
before the others. With a single worker no other order is possible; with several the order in which
jobs end is not determined, which is why the log of such a crew is shown sorted.
-/

namespace Lifespan

/-- What a worker of a crew can be asked to do. -/
inductive Job where
  | work (label : String)
  | wait (gate : Nat)
  | crash
deriving DecidableEq, Repr

/-- What a log says of an event: the label of a job that has been carried out, and the label after
an exclamation mark if the job was thrown away. -/
def Job.text? : Pool.Event Job → Option String
  | .finished _ (.work label) => some label
  | .rejected (.work label) => some ("!" ++ label)
  | .discarded (.work label) => some ("!" ++ label)
  | _ => none

/-- A pool of jobs. -/
structure Crew where
  pool : Pool Job
  gates : Nat := 0
  opened : Nat := 0

/-- What can be asked of a crew. -/
inductive Crew.Request where
  | work (label : String)
  | gate
  | openGates
  | crash
  | shutDown
deriving DecidableEq, Repr

namespace Crew

/-- A crew of workers who wait. -/
def create? (count : Nat) (capacity : Option Nat) : Except Pool.Error Crew :=
  (Pool.create? count capacity).map fun pool => { pool }

/-- What a worker can do now. -/
def act? (c : Crew) : Worker Job → Option Pool.Act
  | .idle =>
    if !c.pool.queue.isEmpty then some .take
    else if c.pool.isOpen then none
    else some .leave
  | .busy (.work _) => some .finish
  | .busy (.wait gate) => if gate < c.opened then some .finish else none
  | .busy .crash => some .lose
  | .gone => none

/-- The first worker that can do something, and what. -/
def next? (c : Crew) : Option (Nat × Pool.Act) :=
  c.pool.workers.zipIdx.findSome? fun w => (c.act? w.1).map (w.2, ·)

/-- The pool after the first worker that can do something has done it. -/
def advance? (c : Crew) : Option (Pool Job) := c.next?.bind fun n => c.pool.act n.1 n.2

theorem effort_advance_lt {c : Crew} {p : Pool Job} (h : c.advance? = some p) :
    p.effort < c.pool.effort := by
  obtain ⟨n, -, hp⟩ := Option.bind_eq_some_iff.1 h
  exact Pool.effort_act_lt hp

/-- The crew when nobody can do anything any more. -/
def settle (c : Crew) : Crew :=
  match _h : c.advance? with
  | none => c
  | some pool => { c with pool }.settle
termination_by c.pool.effort
decreasing_by exact effort_advance_lt ‹_›

/-- Hands a job in. Where there is no room for it, it has to wait outside. -/
def submit (c : Crew) (job : Job) : Except Pool.Error Unit × Crew :=
  if c.pool.accepts && !c.pool.hasRoom then (.ok (), c)
  else
    let (r, pool) := c.pool.submit job
    (r, { c with pool }.settle)

/-- Opens all gates. -/
def openGates (c : Crew) : Crew := { c with opened := c.gates }.settle

/-- Opens all gates, carries out what waits, and lets all workers leave. -/
def shutDown (c : Crew) : Crew := { c with pool := c.pool.close, opened := c.gates }.settle

/-- What becomes of a crew through a request. -/
def step (c : Crew) : Request → Except Pool.Error Unit × Crew
  | .work label => c.submit (.work label)
  | .gate => { c with gates := c.gates + 1 }.submit (.wait c.gates)
  | .openGates => (.ok (), c.openGates)
  | .crash => c.submit .crash
  | .shutDown => (.ok (), c.shutDown)

/-- Which labels have been carried out, and which have been thrown away. Of several workers it is
not known who came first, so that the labels are put in ascending order. -/
def log (c : Crew) : List String :=
  let texts := c.pool.history.filterMap Job.text?
  if c.pool.workers.length ≤ 1 then texts else texts.mergeSort fun a b => decide (a ≤ b)

end Crew

end Lifespan
