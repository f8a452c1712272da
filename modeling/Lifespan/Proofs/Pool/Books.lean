import Lifespan.Pool.Basic
import Mathlib.Data.List.Perm.Basic
import Mathlib.Logic.Relation

/-!
# The books of a pool

The history of a pool says which tasks were accepted, who took them, and how they ended. At any time
the accepted tasks are those that were taken, those that were discarded and those that still wait,
one behind the other in the order in which they came in. Of the tasks that were taken, each one has
ended or is what some worker is busy with. A worker ends its task before it takes the next one.

Any worker may act at any time. What the books say is kept by each single change, so it holds in
whatever order the changes come.

## Main definitions

* `Pool.accepted`, `Pool.taken`, `Pool.ended`, …: what a history says of the tasks.
* `Pool.Change`, `Pool.Changes`: a single change of a pool, and changes in a row.
* `Pool.Serial`: a worker carries out its tasks one after another.
* `Pool.Books`: the invariant.

## Main results

* `Pool.changes_step`: every move comes down to single changes.
* `Pool.Books.change`: a single change keeps the books.
-/
namespace Lifespan

open scoped List in
/-- Replacing a member of a list replaces what it maps to. -/
theorem filterMap_set_perm {α β : Type} (f : α → Option β) {l : List α} {i : Nat} {a : α}
    (h : l[i]? = some a) (b : α) :
    ((f a).toList ++ (l.set i b).filterMap f).Perm ((f b).toList ++ l.filterMap f) := by
  induction l generalizing i with
  | nil => simp at h
  | cons c rest ih =>
      have hcons (x : α) (l : List α) : (x :: l).filterMap f = (f x).toList ++ l.filterMap f := by
        cases hx : f x <;> simp [hx]
      cases i with
      | zero =>
          obtain rfl : c = a := by simpa using h
          rw [List.set_cons_zero, hcons, hcons, ← List.append_assoc, ← List.append_assoc]
          exact List.perm_append_comm.append_right _
      | succ i =>
          have hrest := ih (i := i) (by simpa using h)
          rw [List.set_cons_succ, hcons, hcons]
          calc (f a).toList ++ ((f c).toList ++ (rest.set i b).filterMap f)
            _ ~ (f c).toList ++ ((f a).toList ++ (rest.set i b).filterMap f) :=
              List.perm_append_comm_assoc _ _ _
            _ ~ (f c).toList ++ ((f b).toList ++ rest.filterMap f) := hrest.append_left _
            _ ~ (f b).toList ++ ((f c).toList ++ rest.filterMap f) :=
              List.perm_append_comm_assoc _ _ _

/-- The task of a worker. -/
def Worker.task? {τ : Type} : Worker τ → Option τ
  | .busy t => some t
  | _ => none

namespace Pool

variable {τ : Type} {p q : Pool τ} {i : Nat} {t : τ}

/-! ## What a history says -/

section History

variable (l : List (Event τ)) (e : Event τ)

/-- The task that an event says was accepted. -/
def Event.accepted? : Event τ → Option τ
  | .accepted t => some t
  | _ => none

/-- The task that an event says was taken. -/
def Event.taken? : Event τ → Option τ
  | .taken _ t => some t
  | _ => none

/-- The task that an event says has ended, whether or not its worker survived. -/
def Event.ended? : Event τ → Option τ
  | .finished _ t => some t
  | .lost _ t => some t
  | _ => none

/-- The task that an event says took its worker along. -/
def Event.lost? : Event τ → Option τ
  | .lost _ t => some t
  | _ => none

/-- The task that an event says was discarded. -/
def Event.discarded? : Event τ → Option τ
  | .discarded t => some t
  | _ => none

/-- The worker whose doing an event is. -/
def Event.worker? : Event τ → Option Nat
  | .taken i _ => some i
  | .finished i _ => some i
  | .lost i _ => some i
  | _ => none

/-- The tasks that were accepted, the oldest first. -/
def accepted : List τ := l.filterMap Event.accepted?

/-- The tasks that were taken, in the order in which they were. -/
def taken : List τ := l.filterMap Event.taken?

/-- The tasks that have ended, whether or not their workers survived. -/
def ended : List τ := l.filterMap Event.ended?

/-- The tasks that took their workers along. -/
def lost : List τ := l.filterMap Event.lost?

/-- The tasks that were discarded. -/
def discarded : List τ := l.filterMap Event.discarded?

/-- What one worker did. -/
def eventsOf (i : Nat) : List (Event τ) := l.filter fun e => decide (e.worker? = some i)

/-- The tasks that one worker has taken, in the order in which it did. -/
def takenBy (i : Nat) : List τ := taken (eventsOf l i)

@[simp] theorem accepted_concat : accepted (l ++ [e]) = accepted l ++ e.accepted?.toList := by
  cases e <;> simp [accepted, Event.accepted?]

@[simp] theorem taken_concat : taken (l ++ [e]) = taken l ++ e.taken?.toList := by
  cases e <;> simp [taken, Event.taken?]

@[simp] theorem ended_concat : ended (l ++ [e]) = ended l ++ e.ended?.toList := by
  cases e <;> simp [ended, Event.ended?]

@[simp] theorem lost_concat : lost (l ++ [e]) = lost l ++ e.lost?.toList := by
  cases e <;> simp [lost, Event.lost?]

@[simp] theorem discarded_concat : discarded (l ++ [e]) = discarded l ++ e.discarded?.toList := by
  cases e <;> simp [discarded, Event.discarded?]

theorem eventsOf_concat (i : Nat) :
    eventsOf (l ++ [e]) i = if e.worker? = some i then eventsOf l i ++ [e] else eventsOf l i := by
  by_cases h : e.worker? = some i <;> simp [eventsOf, h]

variable (ts : List τ)

@[simp] theorem accepted_append_discarded :
    accepted (l ++ ts.map Event.discarded) = accepted l := by
  simp [accepted, List.filterMap_map, Function.comp_def, Event.accepted?]

@[simp] theorem taken_append_discarded : taken (l ++ ts.map Event.discarded) = taken l := by
  simp [taken, List.filterMap_map, Function.comp_def, Event.taken?]

@[simp] theorem ended_append_discarded : ended (l ++ ts.map Event.discarded) = ended l := by
  simp [ended, List.filterMap_map, Function.comp_def, Event.ended?]

@[simp] theorem lost_append_discarded : lost (l ++ ts.map Event.discarded) = lost l := by
  simp [lost, List.filterMap_map, Function.comp_def, Event.lost?]

@[simp] theorem discarded_append_discarded :
    discarded (l ++ ts.map Event.discarded) = discarded l ++ ts := by
  simp [discarded, List.filterMap_map, Function.comp_def, Event.discarded?]

@[simp] theorem eventsOf_append_discarded (i : Nat) :
    eventsOf (l ++ ts.map Event.discarded) i = eventsOf l i := by
  simp [eventsOf, Event.worker?]

/-- What a worker takes it takes in the order in which tasks are taken. -/
theorem takenBy_sublist (i : Nat) : (takenBy l i).Sublist (taken l) :=
  List.filter_sublist.filterMap Event.taken?

end History

/-- Rounds of a worker: it takes each of some tasks and ends it before it takes the next one. -/
def rounds (i : Nat) (ts : List τ) : List (Event τ) :=
  ts.flatMap fun t => [.taken i t, .finished i t]

theorem rounds_concat (i : Nat) (ts : List τ) (t : τ) :
    rounds i (ts ++ [t]) = rounds i ts ++ [.taken i t] ++ [.finished i t] := by
  simp [rounds]

/-- What a worker did, if it carries out its tasks one after another: rounds, and at the end perhaps
a task that it is still busy with or that took it along. -/
inductive Serial (i : Nat) : Option (Worker τ) → List (Event τ) → Prop where
  | absent : Serial i none []
  | idle (ts : List τ) : Serial i (some .idle) (rounds i ts)
  | busy (ts : List τ) (t : τ) : Serial i (some (.busy t)) (rounds i ts ++ [.taken i t])
  | left (ts : List τ) : Serial i (some .gone) (rounds i ts)
  | lost (ts : List τ) (t : τ) :
    Serial i (some .gone) (rounds i ts ++ [.taken i t] ++ [.lost i t])

theorem Serial.rounds_of_idle {i : Nat} {l : List (Event τ)} (h : Serial i (some .idle) l) :
    ∃ ts, l = rounds i ts := by
  cases h with
  | idle ts => exact ⟨ts, rfl⟩

theorem Serial.rounds_of_busy {i : Nat} {t : τ} {l : List (Event τ)}
    (h : Serial i (some (.busy t)) l) : ∃ ts, l = rounds i ts ++ [.taken i t] := by
  cases h with
  | busy ts => exact ⟨ts, rfl⟩

/-- The tasks that workers are busy with. -/
def running (p : Pool τ) : List τ := p.workers.filterMap Worker.task?

/-! ## Single changes -/

/-- A single change of a pool. -/
inductive Change (p : Pool τ) : Pool τ → Prop where
  | accept (t : τ) : p.accepts = true →
    Change p { p with queue := p.queue ++ [t], history := p.history ++ [.accepted t] }
  | reject (t : τ) : p.accepts = false →
    Change p { p with history := p.history ++ [.rejected t] }
  | close : Change p { p with isOpen := false }
  | take (i : Nat) (t : τ) (rest : List τ) : p.workers[i]? = some .idle → p.queue = t :: rest →
    Change p { p with
      queue := rest, workers := p.workers.set i (.busy t), history := p.history ++ [.taken i t] }
  | finish (i : Nat) (t : τ) : p.workers[i]? = some (.busy t) →
    Change p { p with
      workers := p.workers.set i .idle, history := p.history ++ [.finished i t] }
  | lose (i : Nat) (t : τ) : p.workers[i]? = some (.busy t) →
    Change p { p with workers := p.workers.set i .gone, history := p.history ++ [.lost i t] }
  | leave (i : Nat) : p.workers[i]? = some .idle → p.isOpen = false → p.queue = [] →
    Change p { p with workers := p.workers.set i .gone }
  | discard : p.isDeserted = true →
    Change p { p with queue := [], history := p.history ++ p.queue.map Event.discarded }

/-- Changes in a row. -/
def Changes : Pool τ → Pool τ → Prop := Relation.ReflTransGen Change

theorem changes_discardAbandoned (p : Pool τ) : Changes p p.discardAbandoned := by
  simp only [discardAbandoned]
  split
  · next h =>
    simp only [isAbandoned, Bool.and_eq_true] at h
    exact .single (.discard h.1)
  · exact .refl

theorem changes_submit (p : Pool τ) (t : τ) : Changes p (p.submit t).2 := by
  simp only [submit]
  split
  · next h => exact .single (.accept t h)
  · next h => exact .single (.reject t (by simpa using h))

theorem changes_act {a : Act} (h : p.act i a = some q) : Changes p q := by
  simp only [act] at h
  split at h
  · next hw =>
    split at h
    · cases h
    · next hq =>
      cases h
      exact .single (.take _ _ _ hw hq)
  · next hw =>
    cases h
    exact .single (.finish _ _ hw)
  · next hw =>
    cases h
    exact .head (.lose _ _ hw) (changes_discardAbandoned _)
  · next hw =>
    split at h
    · next hleave =>
      cases h
      simp only [Bool.and_eq_true, Bool.not_eq_true', List.isEmpty_iff] at hleave
      exact .single (.leave _ hw hleave.1 hleave.2)
    · cases h
  · cases h

/-- Every move comes down to single changes. -/
theorem changes_step {m : Move τ} (h : p.step m = some q) : Changes p q := by
  cases m with
  | submit t =>
      simp only [step] at h
      split at h
      · cases h
      · cases h
        exact changes_submit p t
  | close =>
      cases h
      exact .head .close (changes_discardAbandoned _)
  | act i a => exact changes_act h

theorem run_cons (p : Pool τ) (m : Move τ) (moves : List (Move τ)) :
    p.run (m :: moves) = (p.step m).bind fun q => q.run moves := rfl

/-- What every move keeps, every sequence of moves keeps. -/
theorem run_induction {P : Pool τ → Prop} (hstep : ∀ {p q m}, p.step m = some q → P p → P q)
    {moves : List (Move τ)} (h : p.run moves = some q) (hp : P p) : P q := by
  induction moves generalizing p with
  | nil =>
      cases h
      exact hp
  | cons m rest ih =>
      rw [run_cons] at h
      obtain ⟨next, hnext, hrest⟩ := Option.bind_eq_some_iff.mp h
      exact ih hrest (hstep hnext hp)

theorem changes_run {moves : List (Move τ)} (h : p.run moves = some q) : Changes p q :=
  run_induction (P := Changes p) (fun hstep hp => hp.trans (changes_step hstep)) h .refl

/-! ## The invariant -/

/-- The books of a pool with a number of workers. -/
structure Books (count : Nat) (p : Pool τ) : Prop where
  length_workers : p.workers.length = count
  inOrder : accepted p.history = taken p.history ++ discarded p.history ++ p.queue
  balance : (taken p.history).Perm (ended p.history ++ p.running)
  serial : ∀ i, Serial i p.workers[i]? (eventsOf p.history i)
  /-- Workers are gone because their tasks took them along, unless nothing will come any more. -/
  losses : (lost p.history).length = p.workers.countP Worker.isGone ∨
    p.isOpen = false ∧ p.queue = []
  deserted : discarded p.history = [] ∨ (lost p.history).length = count ∧ p.isDeserted = true

theorem eq_of_create? {count : Nat} {capacity : Option Nat} (h : create? count capacity = .ok p) :
    p = { capacity, workers := List.replicate count .idle } := by
  simp only [create?] at h
  split at h
  · cases h
  · exact (Except.ok.inj h).symm

/-- While a worker is left, nothing has been discarded. -/
theorem Books.discarded_eq_nil {count : Nat} (b : p.Books count) {w : Worker τ}
    (hw : p.workers[i]? = some w) (hleft : w.isGone = false) : discarded p.history = [] := by
  rcases b.deserted with h | ⟨-, h⟩
  · exact h
  · have := List.all_eq_true.mp h w (List.mem_of_getElem? hw)
    simp [hleft] at this

namespace Books

variable {count : Nat}

theorem inOrder_change (b : p.Books count) (h : Change p q) :
    accepted q.history = taken q.history ++ discarded q.history ++ q.queue := by
  have hb := b.inOrder
  cases h with
  | accept t _ => simp [hb, Event.accepted?, Event.taken?, Event.discarded?]
  | reject t _ => simp [hb, Event.accepted?, Event.taken?, Event.discarded?]
  | close => exact hb
  | take i t rest hw hq =>
      have hnone := b.discarded_eq_nil hw rfl
      simp [hb, Event.accepted?, Event.taken?, Event.discarded?, hq, hnone]
  | finish i t _ => simp [hb, Event.accepted?, Event.taken?, Event.discarded?]
  | lose i t _ => simp [hb, Event.accepted?, Event.taken?, Event.discarded?]
  | leave i _ _ _ => exact hb
  | discard _ => simp [hb]

open scoped List in
/-- When a worker ends its task, the task passes from those that run to those that have ended. -/
theorem balance_end (b : p.Books count) (hw : p.workers[i]? = some (.busy t)) {w : Worker τ}
    (hfree : w.task? = none) :
    taken p.history ~ (ended p.history ++ [t]) ++ (p.workers.set i w).filterMap Worker.task? := by
  have hset := filterMap_set_perm Worker.task? hw w
  rw [hfree] at hset
  simp only [Worker.task?, Option.toList_some, Option.toList_none, List.nil_append] at hset
  calc taken p.history
    _ ~ ended p.history ++ p.running := b.balance
    _ ~ ended p.history ++ ([t] ++ (p.workers.set i w).filterMap Worker.task?) :=
      hset.symm.append_left _
    _ = (ended p.history ++ [t]) ++ (p.workers.set i w).filterMap Worker.task? :=
      (List.append_assoc _ _ _).symm

open scoped List in
theorem balance_change (b : p.Books count) (h : Change p q) :
    taken q.history ~ ended q.history ++ q.running := by
  have hb := b.balance
  cases h with
  | accept t _ => simpa [Event.taken?, Event.ended?, running] using hb
  | reject t _ => simpa [Event.taken?, Event.ended?, running] using hb
  | close => exact hb
  | take i t rest hw hq =>
      have hset := filterMap_set_perm Worker.task? hw (.busy t)
      simp only [Worker.task?, Option.toList_none, List.nil_append, Option.toList_some] at hset
      simp only [taken_concat, ended_concat, Event.taken?, Event.ended?,
        Option.toList_some, Option.toList_none, List.append_nil]
      calc taken p.history ++ [t]
        _ ~ (ended p.history ++ p.running) ++ [t] := hb.append_right _
        _ = ended p.history ++ (p.running ++ [t]) := List.append_assoc _ _ _
        _ ~ ended p.history ++ ([t] ++ p.running) := List.perm_append_comm.append_left _
        _ ~ ended p.history ++ (p.workers.set i (.busy t)).filterMap Worker.task? :=
          hset.symm.append_left _
  | finish i t hw => simpa [Event.taken?, Event.ended?, running] using b.balance_end hw rfl
  | lose i t hw => simpa [Event.taken?, Event.ended?, running] using b.balance_end hw rfl
  | leave i hw _ _ =>
      have hset := filterMap_set_perm Worker.task? hw .gone
      simp only [Worker.task?, Option.toList_none, List.nil_append] at hset
      exact hb.trans (hset.symm.append_left _)
  | discard _ => simpa [running] using hb

/-- What a worker does adds to what it did, and to nothing else. -/
theorem serial_set (b : p.Books count) {v w : Worker τ} {e : Event τ}
    (hv : p.workers[i]? = some v) (he : e.worker? = some i)
    (hown : Serial i (some w) (eventsOf p.history i ++ [e])) (j : Nat) :
    Serial j (p.workers.set i w)[j]? (eventsOf (p.history ++ [e]) j) := by
  by_cases hj : i = j
  · subst hj
    obtain ⟨hlt, -⟩ := List.getElem?_eq_some_iff.mp hv
    rwa [List.getElem?_set_self hlt, eventsOf_concat, if_pos he]
  · rw [List.getElem?_set_ne hj, eventsOf_concat, if_neg (by rw [he]; simpa using hj)]
    exact b.serial j

theorem serial_change (b : p.Books count) (h : Change p q) (j : Nat) :
    Serial j q.workers[j]? (eventsOf q.history j) := by
  have hb := b.serial j
  cases h with
  | accept t _ => simpa [eventsOf_concat, Event.worker?] using hb
  | reject t _ => simpa [eventsOf_concat, Event.worker?] using hb
  | close => exact hb
  | take i t rest hw _ =>
      obtain ⟨ts, hts⟩ := Serial.rounds_of_idle (hw ▸ b.serial i)
      exact b.serial_set hw rfl (hts ▸ .busy ts t) j
  | finish i t hw =>
      obtain ⟨ts, hts⟩ := Serial.rounds_of_busy (hw ▸ b.serial i)
      refine b.serial_set hw rfl ?_ j
      rw [hts, ← rounds_concat]
      exact .idle (ts ++ [t])
  | lose i t hw =>
      obtain ⟨ts, hts⟩ := Serial.rounds_of_busy (hw ▸ b.serial i)
      exact b.serial_set hw rfl (hts ▸ .lost ts t) j
  | leave i hw _ _ =>
      by_cases hj : i = j
      · subst hj
        obtain ⟨hlt, -⟩ := List.getElem?_eq_some_iff.mp hw
        obtain ⟨ts, hts⟩ := Serial.rounds_of_idle (hw ▸ hb)
        rw [List.getElem?_set_self hlt, hts]
        exact .left ts
      · rwa [List.getElem?_set_ne hj]
  | discard _ => simpa using hb

/-- What a worker's change of occupation does to the number of workers that are gone. -/
theorem countP_isGone_set {v : Worker τ} (hv : p.workers[i]? = some v) (w : Worker τ) :
    (p.workers.set i w).countP Worker.isGone + v.isGone.toNat =
      p.workers.countP Worker.isGone + w.isGone.toNat := by
  obtain ⟨hlt, rfl⟩ := List.getElem?_eq_some_iff.mp hv
  have hpos : (p.workers[i]).isGone = true → 0 < p.workers.countP Worker.isGone := fun h =>
    List.countP_pos_iff.mpr ⟨_, List.getElem_mem hlt, h⟩
  rw [List.countP_set hlt]
  cases h : (p.workers[i]).isGone <;> cases w.isGone <;> simp_all

theorem losses_change (b : p.Books count) (h : Change p q) :
    (lost q.history).length = q.workers.countP Worker.isGone ∨
      q.isOpen = false ∧ q.queue = [] := by
  have hb := b.losses
  cases h with
  | accept t hacc =>
      simp only [accepts, Bool.and_eq_true] at hacc
      simpa [Event.lost?, hacc.1] using hb
  | reject t _ => simpa [Event.lost?] using hb
  | close => exact hb.imp_right fun hclosed => ⟨rfl, hclosed.2⟩
  | take i t rest hw hq =>
      have hset := countP_isGone_set hw (.busy t)
      simp only [Worker.isGone, Bool.toNat_false, Nat.add_zero] at hset
      exact .inl (by simpa [Event.lost?, hset, hq] using hb)
  | finish i t hw =>
      have hset := countP_isGone_set hw .idle
      simp only [Worker.isGone, Bool.toNat_false, Nat.add_zero] at hset
      simpa [Event.lost?, hset] using hb
  | lose i t hw =>
      have hset := countP_isGone_set hw .gone
      simp only [Worker.isGone, Bool.toNat_false, Bool.toNat_true, Nat.add_zero] at hset
      simpa [Event.lost?, hset] using hb
  | leave i _ hclosed hq => exact .inr ⟨hclosed, hq⟩
  | discard _ => exact hb.imp (by simp) fun hclosed => ⟨hclosed.1, rfl⟩

theorem deserted_change (b : p.Books count) (h : Change p q) :
    discarded q.history = [] ∨ (lost q.history).length = count ∧ q.isDeserted = true := by
  have hb := b.deserted
  cases h with
  | accept t _ => simpa [Event.discarded?, Event.lost?, isDeserted] using hb
  | reject t _ => simpa [Event.discarded?, Event.lost?, isDeserted] using hb
  | close => exact hb
  | take i t rest hw _ => exact .inl (by simp [Event.discarded?, b.discarded_eq_nil hw rfl])
  | finish i t hw => exact .inl (by simp [Event.discarded?, b.discarded_eq_nil hw rfl])
  | lose i t hw => exact .inl (by simp [Event.discarded?, b.discarded_eq_nil hw rfl])
  | leave i hw _ _ => exact .inl (b.discarded_eq_nil hw rfl)
  | discard hgone =>
      rcases b.losses with hlost | ⟨-, hq⟩
      · have hall : p.workers.countP Worker.isGone = p.workers.length :=
          List.countP_eq_length.mpr (List.all_eq_true.mp hgone)
        exact .inr ⟨by rw [lost_append_discarded, hlost, hall, b.length_workers], hgone⟩
      · simpa [hq, isDeserted] using hb

theorem length_workers_change (b : p.Books count) (h : Change p q) :
    q.workers.length = count := by
  have hb := b.length_workers
  cases h <;> simpa using hb

/-- A single change keeps the books. -/
theorem change (b : p.Books count) (h : Change p q) : q.Books count where
  length_workers := b.length_workers_change h
  inOrder := b.inOrder_change h
  balance := b.balance_change h
  serial := b.serial_change h
  losses := b.losses_change h
  deserted := b.deserted_change h

/-- So do changes in a row. -/
theorem changes (b : p.Books count) (h : Changes p q) : q.Books count := by
  induction h with
  | refl => exact b
  | tail _ hlast ih => exact ih.change hlast

/-- The books of a pool that has just been made. -/
theorem create {capacity : Option Nat} (h : create? count capacity = .ok p) : p.Books count := by
  obtain rfl := eq_of_create? h
  exact {
    length_workers := by simp
    inOrder := rfl
    balance := by simp [running, taken, ended, List.filterMap_replicate, Worker.task?]
    serial := fun i => by
      by_cases hi : i < count
      · simpa [hi, eventsOf, rounds] using Serial.idle (τ := τ) (i := i) []
      · simpa [hi, eventsOf] using Serial.absent (τ := τ) (i := i)
    losses := .inl (by simp [lost, List.countP_replicate, Worker.isGone])
    deserted := .inl rfl }

end Books

end Pool

end Lifespan
