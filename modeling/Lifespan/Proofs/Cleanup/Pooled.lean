import Lifespan.Proofs.Cleanup.Handoff
import Lifespan.Proofs.Cleanup.Unwinding

/-!
# Giving up clones on a pool

A world that gives up clones of a handle on a pool does what threads do along one of their
schedules: each clone is handed in and given up by a worker, the owner resets the handle, and then
it closes the pool. In the end the objects and the shared chains are the same, and the events of
the world are those of the owner.
-/
namespace Lifespan.Cleanup

namespace Heap

variable {heap : Heap} {c : CellId} {shared : Shared}

/-- Of the references that have been counted anew, one is given up. -/
theorem release_retain (hs : heap.get? c = some shared) (hpos : 0 < shared.refs) (n : Nat) :
    (heap.retain (some c) (n + 1)).release (some c) = ([], heap.retain (some c) n) := by
  have hself : (heap.retain (some c) (n + 1)).get? c =
      some { shared with refs := shared.refs + (n + 1) } := by
    rw [retain_eq hs, get?_set hs, if_pos rfl]
  rw [release_more hself (by simp only; omega), retain_eq hs, retain_eq hs, set_set]
  rfl

theorem retain_zero (hs : heap.get? c = some shared) : heap.retain (some c) 0 = heap := by
  rw [retain_eq hs, Nat.add_zero, ← hs, set_get?]

end Heap

namespace Cascade

theorem isAborted_of_settle {m : Cascade} (h : m.settle.isAborted = false) :
    m.isAborted = false :=
  (settle_induction (P := fun m' => m'.isAborted = false → m.isAborted = false)
    (fun _ hm h' => hm (isAborted_of_step h')) m id).1 h

/-- What a step does to a cascade does not depend on what has happened before. -/
theorem step_forget (m : Cascade) : m.step = { ({ m with events := [] } : Cascade).step with
    events := m.events ++ ({ m with events := [] } : Cascade).step.events } := by
  obtain ⟨heap, due, events, failure, isAborted⟩ := m
  cases due with
  | nil => simp [step]
  | cons d rest =>
      obtain ⟨fate, ticket, duty⟩ := d
      cases duty with
      | giveUp h => simp [step]
      | perform a =>
          cases fate with
          | dropped => simp [step]
          | ran =>
              by_cases hfails : a.fails = true
              · cases failure <;> simp [step, fail, hfails]
              · simp [step, hfails]

end Cascade

namespace Handoff

variable {n k : Nat} {heap : Heap} {objects : List Object} {history : List (Pool.Event Entry)}
  {log : List (Party × Event)} {ticket : Nat} {c : CellId} {shared : Shared}

/-! ## Handing in -/

/-- Threads of which none has anything to do, with an open pool of `n + 1` workers. -/
def atRest (n : Nat) (heap : Heap) (objects : List Object) (history : List (Pool.Event Entry))
    (log : List (Party × Event)) (nextTicket : Nat) : Handoff :=
  { heap, objects, pool := { workers := List.replicate (n + 1) .idle, history }, log, nextTicket }

/-- A clone is handed in and given up. -/
def round (k : Nat) : List Move := [.submit k, .take 0, .work 0, .rest 0]

theorem run_round (hk : objects[k]? = some (.handle (some c))) (hs : heap.get? c = some shared)
    (hpos : 0 < shared.refs) :
    (atRest n heap objects history log ticket).run (round k) = some (atRest n heap objects
      (history ++ [.accepted ⟨ticket, .giveUp (some c)⟩, .taken 0 ⟨ticket, .giveUp (some c)⟩,
        .finished 0 ⟨ticket, .giveUp (some c)⟩])
      (log ++ [(.worker 0, ⟨⟨ticket, .giveUp (some c)⟩, .ran⟩)]) (ticket + 1)) := by
  simp [round, run, step, atRest, hk, Pool.accepts, Pool.isDeserted, Pool.hasRoom,
    submit, take, work, rest, Pool.submit, Pool.act, Pool.note, Pool.setWorker, Turn.cascade,
    Cascade.step, List.replicate_succ, Worker.isGone, Heap.release_retain hs hpos,
    Heap.retain_zero hs]

/-- What a thread has ended, with the fates of the entries. -/
def eventsOn (log : List (Party × Event)) (t : Party) : Log :=
  (log.filter fun x => decide (x.1 = t)).map Prod.snd

theorem eventsOn_append (log events : List (Party × Event)) (t : Party) :
    eventsOn (log ++ events) t = eventsOn log t ++ eventsOn events t := by
  simp [eventsOn]

theorem eventsOn_map (events : Log) (t : Party) : eventsOn (events.map (t, ·)) t = events := by
  simp [eventsOn, List.filter_map, Function.comp_def]

theorem run_append (s : Handoff) (before after : List Move) :
    s.run (before ++ after) = (s.run before).bind fun next => next.run after := by
  simp [run, List.foldlM_append]

/-- Clones are handed in and given up one after another. -/
theorem exists_run_rounds (hk : objects[k]? = some (.handle (some c)))
    (hs : heap.get? c = some shared) (hpos : 0 < shared.refs) (copies : Nat) :
    ∃ history' log' ticket',
      (atRest n heap objects history log ticket).run (List.replicate copies (round k)).flatten =
        some (atRest n heap objects history' log' ticket') ∧
      (Pool.accepted history').length = (Pool.accepted history).length + copies ∧
      eventsOn log' .owner = eventsOn log .owner := by
  induction copies generalizing history log ticket with
  | zero => exact ⟨history, log, ticket, rfl, rfl, rfl⟩
  | succ copies ih =>
      rw [List.replicate_succ, List.flatten_cons, run_append, run_round hk hs hpos,
        Option.bind_some]
      obtain ⟨history', log', ticket', hrun, htasks, hevents⟩ := ih
      refine ⟨history', log', ticket', hrun, ?_, ?_⟩
      · rw [htasks]
        simp [Pool.accepted, List.filterMap_cons, Pool.Event.accepted?]
        omega
      · rw [hevents, eventsOn_append]
        simp [eventsOn, Party.owner]

/-! ## Carrying out a cascade -/

/-- Threads one of which carries out a cascade. -/
def carrying (s : Handoff) (t : Party) (m : Cascade) : Handoff :=
  { s with
    heap := m.heap
    turns := [⟨t, m.due, m.failure⟩]
    log := s.log ++ m.events.map (t, ·)
    isAborted := m.isAborted }

theorem step_carrying {s : Handoff} {t : Party} {m : Cascade} (hdue : m.due ≠ [])
    (hab : m.isAborted = false) :
    (s.carrying t m).step (.work 0) = some (s.carrying t m.step) := by
  have hbare : Turn.cascade ⟨t, m.due, m.failure⟩ m.heap = { m with events := [] } := by
    rw [Turn.cascade, ← hab]
  rw [Cascade.step_forget m]
  simp [step, carrying, work, hab, hdue, hbare]

/-- A thread can carry out a cascade to its end. -/
theorem exists_run_carrying (s : Handoff) (t : Party) (m : Cascade)
    (hab : m.settle.isAborted = false) :
    ∃ moves, (s.carrying t m).run moves = some (s.carrying t m.settle) := by
  induction m using Cascade.settle.induct with
  | case1 m hdue => exact ⟨[], by rw [Cascade.settle_of_idle hdue]; rfl⟩
  | case2 m hdue ih =>
      have hstep := step_carrying (s := s) (t := t) hdue (Cascade.isAborted_of_settle hab)
      rw [← m.settle_step] at hab ⊢
      obtain ⟨moves, hrun⟩ := ih hab
      exact ⟨.work 0 :: moves, by rw [run_cons, hstep, Option.bind_some, hrun]⟩

/-! ## Leaving -/

/-- Workers leave one after another. -/
theorem run_leave {s : Handoff} (hab : s.isAborted = false) (hclosed : s.pool.isOpen = false)
    (hq : s.pool.queue = []) (i n : Nat)
    (hworkers : s.pool.workers = List.replicate i .gone ++ List.replicate n .idle) :
    s.run ((List.range' i n).map .leave) =
      some { s with pool := { s.pool with workers := List.replicate (i + n) .gone } } := by
  induction n generalizing s i with
  | zero =>
      rw [List.replicate_zero, List.append_nil] at hworkers
      rw [Nat.add_zero, ← hworkers]
      rfl
  | succ n ih =>
      have hidle : s.pool.workers[i]? = some .idle := by simp [hworkers]
      have hset : s.pool.workers.set i .gone =
          List.replicate (i + 1) .gone ++ List.replicate n .idle := by
        rw [hworkers, List.replicate_succ' (n := i), List.replicate_succ (n := n)]
        simp
      have hact : s.pool.act i .leave =
          some { s.pool with workers := s.pool.workers.set i .gone } :=
        Pool.act_leave_eq_some_iff.mpr ⟨hidle, hclosed, hq, rfl⟩
      have hstep : s.step (.leave i) =
          some { s with pool := { s.pool with workers := s.pool.workers.set i .gone } } := by
        simp [step, hab, hact]
      rw [List.range'_succ, List.map_cons, run_cons, hstep, Option.bind_some]
      have hrest := ih (s := { s with pool := { s.pool with
        workers := s.pool.workers.set i .gone } }) hab hclosed hq (i + 1) hset
      rw [hrest, Nat.add_right_comm, Nat.add_assoc]

/-- The owner carries out what a reset frees, and closes the pool, which the workers leave. -/
theorem exists_run_reset {o : Object} (hk : objects[k]? = some o)
    (hend : (Cascade.start (o.freed heap).2 (o.freed heap).1).settle.isAborted = false) :
    ∃ moves s, (atRest n heap objects history log ticket).run moves = some s ∧
      s.hasReturned = true ∧ s.pool.history = history ∧ s.objects = objects.set k o.emptied ∧
      s.heap = (Cascade.start (o.freed heap).2 (o.freed heap).1).settle.heap ∧
      s.log = log ++ (Cascade.start (o.freed heap).2 (o.freed heap).1).settle.events.map
        (.owner, ·) := by
  generalize hm : Cascade.start (o.freed heap).2 (o.freed heap).1 = m at hend ⊢
  let s := atRest n heap (objects.set k o.emptied) history log ticket
  have hreset : (atRest n heap objects history log ticket).step (.reset 0 k) =
      some (s.carrying .owner m) := by
    subst hm
    simp [step, atRest, parties, hk, reset, carrying, s, Cascade.start, Party.owner]
  obtain ⟨moves, hcascade⟩ := exists_run_carrying s .owner m hend
  let closed : Handoff := { s.carrying .owner m.settle with
    turns := [], pool := { s.pool with isOpen := false } }
  have hclose : (s.carrying .owner m.settle).run [.rest 0, .close, .rest 0] = some closed := by
    have hstaffed : s.pool.isDeserted = false := by
      simp [s, atRest, Pool.isDeserted, List.replicate_succ, Worker.isGone]
    simp [run, step, rest, close, carrying, closed, parties, discarded, Party.owner, hend,
      Cascade.due_settle, Pool.close_of_isDeserted_eq_false hstaffed]
    simp [s, atRest]
  let left : Handoff := { closed with pool := { closed.pool with
    workers := List.replicate (0 + (n + 1)) .gone } }
  have hleave : closed.run ((List.range' 0 (n + 1)).map .leave) = some left :=
    run_leave hend rfl rfl 0 (n + 1) rfl
  refine ⟨.reset 0 k :: (moves ++ ([.rest 0, .close, .rest 0] ++
    (List.range' 0 (n + 1)).map .leave)), left, ?_, ?_, rfl, rfl, rfl, rfl⟩
  · rw [run_cons, hreset, Option.bind_some, run_append, hcascade, Option.bind_some, run_append,
      hclose, Option.bind_some, hleave]
  · simp [hasReturned, Pool.hasEnded, Pool.isDeserted, parties, left, closed, Worker.isGone]

end Handoff

namespace World

variable {w : World} {id : String} {c : CellId} {issued : List Entry}

/-- Clones that are given up leave no trace. -/
theorem releaseTimes_retain {shared : Shared} (hs : w.heap.get? c = some shared)
    (hpos : 0 < shared.refs) (n : Nat) :
    releaseTimes { w with heap := w.heap.retain (some c) n } (some c) n = w := by
  induction n with
  | zero => rw [Heap.retain_zero hs, releaseTimes]
  | succ n ih =>
      rw [releaseTimes, release, Heap.release_retain hs hpos]
      dsimp only
      rw [run_nil]
      exact ih

/-- What remains of giving up clones and a handle is that the handle is given up. -/
theorem Books.releaseOnPool_eq (b : w.Books [] issued) (ho : w.find? id = some (.handle (some c)))
    {workers : Nat} (hworkers : workers ≠ 0) (copies : Nat) :
    (w.releaseOnPool id copies workers).2 = ((w.put id (.handle none)).release (some c)).2 := by
  obtain ⟨shared, hs⟩ := b.ledger.exists_of_mem (mem_held_of_find? ho)
  simp only [releaseOnPool, ho, Pool.create?, if_neg hworkers,
    releaseTimes_retain hs (b.ledger.refs_pos c shared hs)]
  split
  · next heq => rw [heq]
  · next heq => rw [heq]

/-- The name of an object stands for a place. -/
theorem exists_place {o : Object} (hn : w.names.Nodup) (ho : w.find? id = some o) :
    ∃ k, w.held[k]? = some o ∧ ∀ o', (w.put id o').held = w.held.set k o' := by
  obtain ⟨before, after, hobjects, hbefore, hafter⟩ := exists_split hn ho
  have hheld : w.held = before.map Prod.snd ++ o :: after.map Prod.snd := by
    rw [held, hobjects, List.map_append, List.map_cons]
  refine ⟨(before.map Prod.snd).length, by simp [hheld], fun o' => ?_⟩
  rw [hheld, held, objects_put hobjects hbefore hafter]
  simp

/-- Threads that share the objects of a world can do what the world does when it gives up clones of
a handle on a pool. In the end the objects and the shared chains are the same, and the world has
recorded the events of the owner. -/
theorem Books.exists_run_of_releaseOnPool (b : w.Books [] issued)
    (ho : w.find? id = some (.handle (some c))) {workers : Nat} {pool : Pool Entry}
    (created : Pool.create? workers none = .ok pool) (copies : Nat)
    (hend : (w.releaseOnPool id copies workers).2.isAborted = false) :
    ∃ moves s, (Handoff.start w pool).run moves = some s ∧ s.hasReturned = true ∧
      (Pool.accepted s.pool.history).length = copies ∧
      s.objects = (w.releaseOnPool id copies workers).2.held ∧
      s.heap = (w.releaseOnPool id copies workers).2.heap ∧
      w.log ++ Handoff.eventsOn s.log .owner = (w.releaseOnPool id copies workers).2.log := by
  obtain ⟨shared, hs⟩ := b.ledger.exists_of_mem (mem_held_of_find? ho)
  obtain ⟨k, hk, hput⟩ := exists_place b.names ho
  obtain ⟨n, rfl⟩ : ∃ n, workers = n + 1 := by
    refine Nat.exists_eq_succ_of_ne_zero fun hzero => ?_
    simp [Pool.create?, hzero] at created
  obtain rfl := Pool.eq_of_create? created
  rw [b.releaseOnPool_eq ho n.succ_ne_zero] at hend ⊢
  let m := Cascade.start (w.heap.release (some c)).2 (w.heap.release (some c)).1
  have hsettle : m.settle.isAborted = false := (Bool.or_eq_false_iff.mp hend).2
  obtain ⟨history, log, ticket, hrounds, htasks, hevents⟩ :
      ∃ history log ticket, (Handoff.atRest n w.heap w.held [] [] w.nextTicket).run
        (List.replicate copies (Handoff.round k)).flatten =
          some (Handoff.atRest n w.heap w.held history log ticket) ∧ _ ∧ _ :=
    Handoff.exists_run_rounds hk hs (b.ledger.refs_pos c shared hs) copies
  obtain ⟨moves, s, hrun, hreturned, hhistory, hobjects, hheap, hlog⟩ :
      ∃ moves s, (Handoff.atRest n w.heap w.held history log ticket).run moves = some s ∧ _ :=
    Handoff.exists_run_reset hk hsettle
  refine ⟨(List.replicate copies (Handoff.round k)).flatten ++ moves, s, ?_, hreturned, ?_,
    hobjects.trans (hput _).symm, hheap, ?_⟩
  · have hstart : Handoff.start w { workers := List.replicate (n + 1) .idle } =
        Handoff.atRest n w.heap w.held [] [] w.nextTicket := rfl
    rw [hstart, Handoff.run_append, hrounds, Option.bind_some, hrun]
  · rw [hhistory, htasks]
    exact Nat.zero_add copies
  · rw [hlog, Handoff.eventsOn_append, Handoff.eventsOn_map, hevents]
    rfl

end World

end Lifespan.Cleanup
