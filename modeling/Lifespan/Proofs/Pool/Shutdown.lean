import Lifespan.Proofs.Pool.Books
import Lifespan.Pool.Crew

/-!
# Closing a pool

After a pool has been closed it turns every task away, and closing it again changes nothing. As long
as it has not ended, some worker can act without being taken along by its task, and every act brings
the pool nearer to its end. When it has ended, each task that was accepted has been carried out, but
for the tasks that were discarded, and tasks are discarded only if each worker has been taken along
by a task of its own.

A task that fails in the ordinary way does not take its worker along. One that does, because what it
leaves behind fails in turn, costs a worker; when all of them are lost in this way, what still waits
is never carried out.
-/

namespace Lifespan.Pool

variable {τ : Type} {p q : Pool τ} {i : Nat} {v w : Worker τ}

/-! ## After closing -/

/-- A pool that is closed stays closed and accepts nothing. -/
theorem closed_change (h : Change p q) (hclosed : p.isOpen = false) :
    q.isOpen = false ∧ accepted q.history = accepted p.history := by
  cases h with
  | accept t hacc => simp [accepts, hclosed] at hacc
  | close => exact ⟨rfl, rfl⟩
  | _ => exact ⟨hclosed, by simp [Event.accepted?]⟩

theorem closed_changes (h : Changes p q) (hclosed : p.isOpen = false) :
    q.isOpen = false ∧ accepted q.history = accepted p.history := by
  induction h with
  | refl => exact ⟨hclosed, rfl⟩
  | tail _ hlast ih =>
      obtain ⟨hopen, hsame⟩ := closed_change hlast ih.1
      exact ⟨hopen, hsame.trans ih.2⟩

theorem step_submit_of_closed (hclosed : p.isOpen = false) (t : τ) :
    p.step (.submit t) = some (p.note (.rejected t)) ∧ (p.submit t).1 = .error .shutDown := by
  simp [step, submit, accepts, hclosed]

/-! ## Nobody is left -/

theorem isDeserted_setWorker (hv : p.workers[i]? = some v) (hw : w.isGone = false) :
    (p.setWorker i w).isDeserted = false := by
  obtain ⟨hlt, -⟩ := List.getElem?_eq_some_iff.mp hv
  refine List.all_eq_false.mpr ⟨w, ?_, by simp [hw]⟩
  exact List.mem_of_getElem? (i := i) (by simp [setWorker, hlt])

/-- Nothing waits that is not kept. -/
def Cleared (p : Pool τ) : Prop := p.isAbandoned = true → p.queue = []

theorem cleared_of_staffed (h : p.isDeserted = false) : p.Cleared := by
  intro habandoned
  simp [isAbandoned, h] at habandoned

theorem cleared_discardAbandoned (p : Pool τ) : p.discardAbandoned.Cleared := by
  intro h
  simp only [discardAbandoned] at h ⊢
  split
  · rfl
  · next hnot =>
    rw [if_neg hnot] at h
    exact absurd h hnot

theorem Cleared.discardAbandoned_eq (hp : p.Cleared) : p.discardAbandoned = p := by
  simp only [discardAbandoned]
  split
  · next habandoned =>
    have hq := hp habandoned
    cases p
    simp_all
  · rfl

theorem cleared_act {a : Act} (h : p.act i a = some q) : q.Cleared := by
  simp only [act] at h
  split at h
  · next hw =>
    split at h
    · cases h
    · cases h
      exact cleared_of_staffed (isDeserted_setWorker (p := { p with queue := _ }) hw rfl)
  · next hw =>
    cases h
    exact cleared_of_staffed (isDeserted_setWorker hw rfl)
  · cases h
    exact cleared_discardAbandoned _
  · split at h
    · next hleave =>
      cases h
      simp only [Bool.and_eq_true, List.isEmpty_iff] at hleave
      exact fun _ => hleave.2
    · cases h
  · cases h

theorem cleared_step {m : Move τ} (h : p.step m = some q) (hp : p.Cleared) : q.Cleared := by
  cases m with
  | submit t =>
      simp only [step] at h
      split at h
      · cases h
      · cases h
        simp only [submit]
        split
        · next hacc =>
          simp only [accepts, Bool.and_eq_true, Bool.not_eq_true'] at hacc
          exact cleared_of_staffed hacc.2
        · exact hp
  | close =>
      cases h
      exact cleared_discardAbandoned _
  | act i a => exact cleared_act h

/-- Closing a pool again changes nothing. -/
theorem close_of_closed (hp : p.Cleared) (hclosed : p.isOpen = false) : p.close = p := by
  have hsame : ({ p with isOpen := false } : Pool τ) = p := by rw [← hclosed]
  rw [close, hsame, hp.discardAbandoned_eq]

/-! ## The end -/

/-- A closed pool that has not ended can go on, without any worker being taken along. -/
theorem act_of_closed (hclosed : p.isOpen = false) (hgoing : p.hasEnded = false) :
    ∃ i a q, a ≠ Act.lose ∧ p.act i a = some q := by
  have hstaffed : p.isDeserted = false := by simpa [hasEnded, hclosed] using hgoing
  obtain ⟨w, hmem, hw⟩ := List.all_eq_false.mp hstaffed
  obtain ⟨i, hi⟩ := List.mem_iff_getElem?.mp hmem
  cases w with
  | gone => exact absurd rfl hw
  | busy t =>
      refine ⟨i, .finish, (p.setWorker i .idle).note (.finished i t), by simp, ?_⟩
      simp only [act, hi]
  | idle =>
      cases hq : p.queue with
      | nil =>
          refine ⟨i, .leave, p.setWorker i .gone, by simp, ?_⟩
          simp [act, hi, hq, hclosed]
      | cons t rest =>
          refine ⟨i, .take, ({ p with queue := rest }.setWorker i (.busy t)).note (.taken i t),
            by simp, ?_⟩
          simp only [act, hi, hq]

theorem workers_of_hasEnded (h : p.hasEnded = true) : ∀ w ∈ p.workers, w = .gone := by
  simp only [hasEnded, Bool.and_eq_true] at h
  intro w hw
  have hgone := List.all_eq_true.mp h.2 w hw
  cases w <;> simp [Worker.isGone] at hgone ⊢

theorem queue_of_hasEnded (hp : p.Cleared) (h : p.hasEnded = true) : p.queue = [] := by
  simp only [hasEnded, Bool.and_eq_true] at h
  exact hp (by simp [isAbandoned, h.1, h.2])

theorem running_of_hasEnded (h : p.hasEnded = true) : p.running = [] := by
  refine List.filterMap_eq_nil_iff.mpr fun w hw => ?_
  rw [workers_of_hasEnded h w hw]
  rfl

namespace Books

variable {count : Nat}

theorem taken_accepted (b : p.Books count) : taken p.history <+: accepted p.history := by
  rw [b.inOrder, List.append_assoc]
  exact List.prefix_append _ _

/-- A single worker takes all tasks that are taken. -/
theorem takenBy_eq_taken (b : p.Books 1) : takenBy p.history 0 = taken p.history := by
  have hworker {e : Event τ} (he : e ∈ p.history) {i : Nat} (hi : e.worker? = some i) : i = 0 := by
    by_contra hne
    have hnone : p.workers[i]? = none := by
      rw [List.getElem?_eq_none_iff, b.length_workers]
      omega
    have hmem : e ∈ eventsOf p.history i := by simp [eventsOf, he, hi]
    have hserial := b.serial i
    rw [hnone] at hserial
    cases hevents : eventsOf p.history i with
    | nil => simp [hevents] at hmem
    | cons => rw [hevents] at hserial; cases hserial
  rw [takenBy, taken, eventsOf, List.filterMap_filter]
  refine List.filterMap_congr fun e he => ?_
  cases e with
  | taken i t => simp [hworker he rfl, Event.worker?]
  | _ => simp [Event.taken?]

/-- As long as not every worker has been taken along, nothing is discarded. -/
theorem discarded_of_lost (b : p.Books count) (h : (lost p.history).length < count) :
    discarded p.history = [] := by
  rcases b.deserted with hnone | ⟨hall, -⟩
  · exact hnone
  · omega

open scoped List in
/-- At the end, what was accepted has ended or was discarded. -/
theorem accepted_of_hasEnded (b : p.Books count) (hp : p.Cleared) (h : p.hasEnded = true) :
    accepted p.history ~ ended p.history ++ discarded p.history := by
  have hbalance := b.balance
  rw [running_of_hasEnded h, List.append_nil] at hbalance
  rw [b.inOrder, queue_of_hasEnded hp h, List.append_nil]
  exact hbalance.append_right _

end Books

/-- What becomes of the tasks of a pool, whoever acts in whatever order, and whichever of the tasks
take their workers along. -/
theorem accepted_once {count : Nat} {capacity : Option Nat} {start : Pool τ}
    {moves : List (Move τ)} (created : create? count capacity = .ok start)
    (reached : start.run moves = some p) :
    -- Tasks leave the queue in the order in which they came in, and no task is taken twice.
    accepted p.history = taken p.history ++ discarded p.history ++ p.queue ∧
    (taken p.history).Perm (ended p.history ++ p.running) ∧
    -- A worker carries out its tasks one after another, in the order in which they came in.
    (∀ i, Serial i p.workers[i]? (eventsOf p.history i) ∧
      (takenBy p.history i).Sublist (accepted p.history)) ∧
    (count = 1 → takenBy p.history 0 = taken p.history) ∧
    -- At the end all workers have left, and each accepted task has been carried out or discarded.
    (p.hasEnded = true → (∀ w ∈ p.workers, w = .gone) ∧
      (accepted p.history).Perm (ended p.history ++ discarded p.history)) ∧
    -- Tasks are discarded only if each worker has been taken along by a task.
    ((lost p.history).length < count → discarded p.history = []) ∧
    -- After closing, the end comes nearer with each act, and nothing else has to happen.
    (p.isOpen = false → p.hasEnded = false →
      ∃ i a q, a ≠ Act.lose ∧ p.act i a = some q ∧ q.effort < p.effort) ∧
    -- After closing, tasks are turned away and never taken, and closing again changes nothing.
    (p.isOpen = false → p.close = p ∧
      (∀ t, p.step (.submit t) = some (p.note (.rejected t)) ∧
        (p.submit t).1 = .error .shutDown) ∧
      ∀ later q, p.run later = some q → q.isOpen = false ∧
        accepted q.history = accepted p.history ∧ taken q.history <+: accepted p.history) := by
  have books : p.Books count := (Books.create created).changes (changes_run reached)
  have cleared : p.Cleared := by
    refine run_induction cleared_step reached fun _ => ?_
    rw [eq_of_create? created]
  refine ⟨books.inOrder, books.balance, fun i => ⟨books.serial i, ?_⟩, ?_, ?_,
    books.discarded_of_lost, ?_, ?_⟩
  · exact (takenBy_sublist _ i).trans books.taken_accepted.sublist
  · intro hone
    subst hone
    exact books.takenBy_eq_taken
  · intro hended
    exact ⟨workers_of_hasEnded hended, books.accepted_of_hasEnded cleared hended⟩
  · intro hclosed hgoing
    obtain ⟨i, a, q, ha, hact⟩ := act_of_closed hclosed hgoing
    exact ⟨i, a, q, ha, hact, effort_act_lt hact⟩
  · intro hclosed
    refine ⟨close_of_closed cleared hclosed, step_submit_of_closed hclosed, ?_⟩
    intro later q hlater
    obtain ⟨hopen, hsame⟩ := closed_changes (changes_run hlater) hclosed
    have booksLater := books.changes (changes_run hlater)
    exact ⟨hopen, hsame, hsame ▸ booksLater.taken_accepted⟩

/-- Three tasks for two workers, the first of whom is taken along by its task. -/
def shortStaffed : List (Move String) :=
  [.submit "a", .submit "b", .submit "c", .act 0 .take, .act 1 .take, .act 1 .finish, .act 0 .lose,
    .close, .act 1 .take, .act 1 .finish, .act 1 .leave]

/-- The worker that is left carries out what waits. -/
theorem accepted_once_short_staffed :
    ∃ start p : Pool String, create? 2 none = .ok start ∧ start.run shortStaffed = some p ∧
      lost p.history = ["a"] ∧ taken p.history = ["a", "b", "c"] ∧
      (accepted p.history).Perm (ended p.history) ∧
      (p.submit "d").1 = .error .shutDown ∧ p.close = p := by
  obtain ⟨-, -, -, -, hend, hfew, -, hclosed⟩ :=
    @accepted_once String _ 2 none _ shortStaffed rfl rfl
  refine ⟨_, _, rfl, rfl, rfl, rfl, ?_, ?_, ?_⟩
  · have hperm := (hend (by decide)).2
    rwa [hfew (by decide), List.append_nil] at hperm
  · exact ((hclosed rfl).2.1 "d").2
  · exact (hclosed rfl).1

/-- A job that ends its only worker while another one waits. -/
def crashed : List (Move Job) :=
  [.submit (.wait 0), .act 0 .take, .submit .crash, .submit (.work "b"), .close, .act 0 .finish,
    .act 0 .take, .act 0 .lose]

/-- The job that waits was accepted, but nobody is left to carry it out. -/
theorem accepted_discarded_crashed :
    ∃ start p : Pool Job, create? 1 none = .ok start ∧ start.run crashed = some p ∧
      p.hasEnded = true ∧ Job.work "b" ∈ accepted p.history ∧
      Job.work "b" ∉ taken p.history ∧ Job.work "b" ∉ ended p.history ∧
      discarded p.history = [.work "b"] := by
  refine ⟨_, _, rfl, rfl, rfl, ?_, ?_, ?_, rfl⟩ <;> decide

end Lifespan.Pool
