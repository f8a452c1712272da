import Lifespan.Proofs.Cleanup.Cascade
import Lifespan.Proofs.Cleanup.Objects

/-!
# Moments

While a command gives up what an object holds, a cascade is under way. A moment is a state between
two steps of it, with all that owns entries and references then: the objects that are left, the
object that is about to be given up, the entries that are due, and the heap. A world at rest is a
moment too.
-/
namespace Lifespan.Cleanup

/-- A state in the course of a command. -/
structure Moment where
  objects : List Object
  hand : Option Object
  log : Log
  cascade : Cascade

/-- The reference that a duty gives up. -/
def Duty.handle : Duty → Handle
  | .perform _ => none
  | .giveUp h => h

/-- The cascade that begins when an object is given up. -/
def Cascade.begin (heap : Heap) : Object → Cascade
  | .chain entries => start heap entries
  | .handle h => start (heap.release h).2 (heap.release h).1
  | .pinnable p => start heap p.cleanups

theorem Cascade.releases_begin (heap : Heap) (o : Object) : heap.Releases (begin heap o).heap := by
  cases o with
  | chain entries => exact .refl
  | handle h => exact .single heap h
  | pinnable p => exact .refl

/-- What an object holds is what is due first. -/
theorem Cascade.books_begin {heap : Heap} {o : Object} {outer : List Object}
    {ended issued : List Entry} (l : Ledger heap (o :: outer) ended issued) :
    (begin heap o).Books outer ended issued := by
  cases o with
  | chain entries => exact books_start l
  | handle h => exact books_start l.release
  | pinnable p => exact books_start l.cleanups

theorem Cascade.orderly_begin (heap : Heap) (o : Object) : (begin heap o).Orderly := by
  cases o <;> exact orderly_start _ _

/-- The reference that an object gives up. -/
def Object.reference : Object → Handle
  | .handle h => h
  | _ => none

namespace Moment

variable {m : Moment} {c : CellId}

/-- What comes next: what is in hand is given up, or else an entry ends. -/
def next (m : Moment) : Moment :=
  match m.hand with
  | some o => { m with hand := none, cascade := .begin m.cascade.heap o }
  | none => { m with cascade := m.cascade.step }

/-- The cascade when no entry is due any more. -/
def finish (m : Moment) : Cascade :=
  match m.hand with
  | some o => (Cascade.begin m.cascade.heap o).settle
  | none => m.cascade.settle

/-- All objects, the one that is about to be given up among them. -/
def allObjects (m : Moment) : List Object := m.hand.toList ++ m.objects

/-- The shared chain with a number, if it is in the heap. -/
def shared? (m : Moment) (c : CellId) : Option Shared := m.cascade.heap.get? c

/-- The number of handles that refer to a shared chain. -/
def handles (m : Moment) (c : CellId) : Nat := m.allObjects.count (.handle (some c))

/-- The pending entries: those of objects, those that are due, and those of shared chains. -/
def pending (m : Moment) : Chain :=
  m.allObjects.flatMap Object.own ++ m.cascade.dueEntries ++ m.cascade.heap.entries

/-- The events so far. -/
def ended (m : Moment) : Log := m.log ++ m.cascade.events

/-- The reference that is given up next: that of the object in hand, or else that of the entry whose
turn it is. -/
def gives (m : Moment) : Handle :=
  match m.hand, m.cascade.due with
  | some o, _ => o.reference
  | none, [] => none
  | none, (_, e) :: _ => e.duty.handle

/-- The entries that are still due after what comes next, apart from those that it makes due. -/
def rest (m : Moment) : List (Fate × Entry) :=
  match m.hand with
  | some _ => []
  | none => m.cascade.due.tail

/-! ## What comes next -/

theorem next_of_hand {o : Object} (h : m.hand = some o) :
    m.next = { m with hand := none, cascade := .begin m.cascade.heap o } := by
  simp only [next, h]

theorem next_of_none (h : m.hand = none) : m.next = { m with cascade := m.cascade.step } := by
  simp only [next, h]

/-- What comes next leads to the same end. -/
theorem finish_next (m : Moment) : m.next.finish = m.finish := by
  simp only [next, finish]
  cases m.hand with
  | some o => rfl
  | none => exact m.cascade.settle_step

theorem releases_finish (m : Moment) : m.cascade.heap.Releases m.finish.heap := by
  simp only [finish]
  cases m.hand with
  | some o => exact (Cascade.releases_begin _ o).trans (Cascade.releases_settle _)
  | none => exact m.cascade.releases_settle

/-- What comes next changes the heap just by giving up a reference. -/
theorem heap_next (m : Moment) : m.next.cascade.heap = (m.cascade.heap.release m.gives).2 := by
  simp only [next, gives]
  cases m.hand with
  | some o => cases o <;> rfl
  | none =>
      dsimp only
      have hending := m.cascade.step_ending
      generalize m.cascade.step = m' at hending
      cases hending with
      | idle hdue => rw [hdue]; rfl
      | performed hdue hduty _ => rw [hdue]; dsimp only; rw [hduty]; rfl
      | failed hdue hduty _ _ => rw [hdue]; dsimp only; rw [hduty]; rfl
      | aborted hdue hduty _ _ => rw [hdue]; dsimp only; rw [hduty]; rfl
      | gaveUp hdue hduty => rw [hdue]; dsimp only; rw [hduty]; rfl

theorem before_next (m : Moment) : m.cascade.heap.Before m.next.cascade.heap := by
  rw [heap_next]
  exact Heap.before_release _ _

end Moment

namespace World

variable {w : World} {o : Object}

/-- A world at rest. -/
def rest (w : World) : Moment :=
  { objects := w.held, hand := none, log := w.log
    cascade := { Cascade.start w.heap [] with isAborted := w.isAborted } }

theorem heap_finish_rest (w : World) : w.rest.finish.heap = w.heap :=
  congrArg Cascade.heap (Cascade.settle_of_idle rfl)

/-- A world in which an object is about to be given up, while some are in the hands of others. -/
def launch (w : World) (lent : List Object) (o : Object) : Moment :=
  { objects := lent ++ w.held, hand := some o, log := w.log
    cascade := { Cascade.start w.heap [] with isAborted := w.isAborted } }

/-- Giving up an object leads to the end of its launch. -/
theorem giveUp_eq (w : World) (lent : List Object) (o : Object) :
    (w.giveUp o).2 = { w with
      heap := (w.launch lent o).finish.heap
      log := w.log ++ (w.launch lent o).finish.events
      isAborted := w.isAborted || (w.launch lent o).finish.isAborted } := by
  cases o <;> rfl

/-- The launches when `n` workers give up a reference each, one after another. -/
def lentLaunches (w : World) (h : Handle) : Nat → List Moment
  | 0 => []
  | n + 1 => w.launch (List.replicate n (.handle h)) (.handle h) ::
      (w.release h).2.lentLaunches h n

/-- The launches of a command, in the order in which they happen. -/
def launches (w : World) : Command → List Moment
  | .reset id =>
    match w.find? id with
    | some o => [(w.put id o.emptied).launch [] o]
    | none => []
  | .flush id =>
    match w.target? id with
    | some entries => [(w.setTarget id []).launch [] (.chain entries)]
    | none => []
  | .drop id =>
    match w.find? id with
    | some o => [(w.erase id).launch [] o]
    | none => []
  | .allocate id =>
    match w.find? id with
    | some (.handle h) => [(w.put id (.handle none)).launch [] (.handle h)]
    | _ => []
  | .releaseOnPool id copies workers =>
    match w.find? id with
    | some (.handle h) =>
      match (Pool.create? workers none : Except Pool.Error (Pool Handle)) with
      | .error _ => []
      | .ok _ =>
        let w := { w with heap := w.heap.retain h copies }
        w.lentLaunches h copies ++
          [((w.releaseTimes h copies).put id (.handle none)).launch [] (.handle h)]
    | _ => []
  | _ => []

end World

end Lifespan.Cleanup
