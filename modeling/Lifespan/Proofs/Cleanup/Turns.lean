import Lifespan.Cleanup.Handoff
import Lifespan.Proofs.Cleanup.Moment
import Lifespan.Proofs.Pool.Shutdown

/-!
# Threads and their turns

The course of a thread is what it has ended and what it has yet to end, in this order. Whoever
moves, courses only grow: what has once come to a thread is ended by that thread.

A worker that is busy with a task has a turn, which lasts until it is done with the task, and no
thread has two turns. Where an entry is dropped instead of being carried out, it is a task that
nobody was left to take, or an action has failed on that thread before.

## Main definitions

* `Handoff.Change`: what one move can do.
* `Handoff.course`: what a thread has ended and what it has yet to end.
* `Handoff.Staffed`, `Handoff.Orderly`: the invariants of turns and of fates.

## Main results

* `Handoff.change_of_step`: every move is one of the changes.
* `Handoff.course_change`: courses only grow.
* `Handoff.Staffed.change`, `Handoff.Orderly.change`: each move keeps the invariants.
-/

/-! ## Pools -/

namespace Lifespan.Pool

variable {τ : Type} {p q : Pool τ} {i : Nat}

/-! What a worker does is possible under these conditions, and leads to these states. -/

theorem act_take_eq_some_iff : p.act i .take = some q ↔
    ∃ t rest, p.workers[i]? = some .idle ∧ p.queue = t :: rest ∧
      { p with
        queue := rest
        workers := p.workers.set i (.busy t)
        history := p.history ++ [.taken i t] } = q := by
  unfold act
  rcases hw : p.workers[i]? with _ | _ | t | _ <;> simp
  rcases hq : p.queue with _ | ⟨t, rest⟩ <;> simp [setWorker, note]

theorem act_finish_eq_some_iff : p.act i .finish = some q ↔
    ∃ t, p.workers[i]? = some (.busy t) ∧
      { p with
        workers := p.workers.set i .idle
        history := p.history ++ [.finished i t] } = q := by
  unfold act
  rcases hw : p.workers[i]? with _ | _ | t | _ <;> simp [setWorker, note]

theorem act_lose_eq_some_iff : p.act i .lose = some q ↔
    ∃ t, p.workers[i]? = some (.busy t) ∧
      discardAbandoned { p with
        workers := p.workers.set i .gone
        history := p.history ++ [.lost i t] } = q := by
  unfold act
  rcases hw : p.workers[i]? with _ | _ | t | _ <;> simp [setWorker, note]

theorem act_leave_eq_some_iff : p.act i .leave = some q ↔
    p.workers[i]? = some .idle ∧ p.isOpen = false ∧ p.queue = [] ∧
      { p with workers := p.workers.set i .gone } = q := by
  unfold act
  rcases hw : p.workers[i]? with _ | _ | t | _ <;> simp [setWorker, and_assoc]

@[simp] theorem workers_discardAbandoned (p : Pool τ) :
    p.discardAbandoned.workers = p.workers := by
  unfold discardAbandoned
  split <;> rfl

/-- Either all tasks that wait are discarded, or none. -/
theorem queue_discardAbandoned (p : Pool τ) :
    p.discardAbandoned.queue = p.queue ∨ p.discardAbandoned.queue = [] := by
  unfold discardAbandoned
  split
  · exact .inr rfl
  · exact .inl rfl

@[simp] theorem accepted_discardAbandoned (p : Pool τ) :
    accepted p.discardAbandoned.history = accepted p.history := by
  unfold discardAbandoned
  split
  · exact accepted_append_discarded _ _
  · rfl

end Lifespan.Pool

namespace Lifespan.Cleanup

/-- A step ends the entry whose turn it is and gives up the reference that it owns. What this takes
out of the heap is due next. -/
theorem Cascade.step_cons {m : Cascade} {fate : Fate} {e : Entry} {rest : List (Fate × Entry)}
    (hdue : m.due = (fate, e) :: rest) (hab : m.step.isAborted = false) :
    m.step.heap = (m.heap.release e.duty.handle).2 ∧ m.step.events = m.events ++ [⟨e, fate⟩] ∧
      m.step.dueEntries = (m.heap.release e.duty.handle).1 ++ rest.map Prod.snd := by
  have hending := m.step_ending
  generalize m.step = m' at hab hending
  cases hending with
  | idle hidle =>
      rw [hidle] at hdue
      contradiction
  | performed hdue' hduty _ =>
      cases hdue.symm.trans hdue'
      rw [hduty]
      exact ⟨rfl, rfl, rfl⟩
  | failed hdue' hduty _ _ =>
      cases hdue.symm.trans hdue'
      rw [hduty]
      exact ⟨rfl, rfl, by simp [dueEntries, Duty.handle, Heap.release, Function.comp_def]⟩
  | aborted => contradiction
  | gaveUp hdue' hduty =>
      cases hdue.symm.trans hdue'
      rw [hduty]
      exact ⟨rfl, rfl, by simp [dueEntries, Duty.handle, Function.comp_def]⟩

/-- What a step says of failures: an action fails just if it is among the events, only then entries
come to be dropped, and only those are dropped that were to be. -/
theorem Cascade.drops_step (m : Cascade) :
    (m.step.failure ≠ none → m.failure ≠ none ∨ ∃ ev ∈ m.step.events, ev.Failed) ∧
    (∀ e, (.dropped, e) ∈ m.step.due → (.dropped, e) ∈ m.due ∨ ∃ ev ∈ m.step.events, ev.Failed) ∧
    ∀ e, ⟨e, .dropped⟩ ∈ m.step.events → ⟨e, .dropped⟩ ∈ m.events ∨ (.dropped, e) ∈ m.due := by
  have hending := m.step_ending
  generalize m.step = m' at hending
  cases hending with
  | idle => exact ⟨.inl, fun _ => .inl, fun _ => .inl⟩
  | performed hdue _ _ =>
      refine ⟨.inl, fun e he => .inl (hdue ▸ List.mem_cons_of_mem _ he), fun e he => ?_⟩
      rw [hdue]
      simp only [List.mem_append, List.mem_singleton, Event.mk.injEq] at he
      rcases he with he | ⟨rfl, rfl⟩
      · exact .inl he
      · exact .inr List.mem_cons_self
  | @failed e _ _ hdue hduty hfails _ =>
      have hfailed : ∃ ev ∈ m.events ++ [⟨e, .ran⟩], ev.Failed :=
        ⟨_, List.mem_append_right _ (List.mem_singleton_self _), rfl, _, hduty, hfails⟩
      exact ⟨fun _ => .inr hfailed, fun _ _ => .inr hfailed, fun e he => .inl (by simpa using he)⟩
  | aborted => exact ⟨.inl, nofun, fun e he => .inl (by simpa using he)⟩
  | gaveUp hdue _ =>
      refine ⟨.inl, fun e he => .inl ?_, fun e he => ?_⟩
      · rw [hdue]
        exact List.mem_cons_of_mem _ (by simpa using he)
      · rw [hdue]
        simp only [List.mem_append, List.mem_singleton, Event.mk.injEq] at he
        rcases he with he | ⟨rfl, rfl⟩
        · exact .inl he
        · exact .inr List.mem_cons_self

namespace Handoff

variable {s s' : Handoff} {t : Party} {e : Entry} {u : Turn} {before after : List Turn} {b : Bool}

/-! ## What a move does -/

/-- Whether a move goes on with what has been handed in or begun. -/
def Move.goesOn : Move → Bool
  | submit _ | reset _ _ | close => false
  | take _ | work _ | rest _ | lose _ | leave _ => true

/-- What one move can do, and whether it goes on with what has been handed in or begun. -/
inductive Change (s : Handoff) : Bool → Handoff → Prop where
  | submit {c : CellId} : .handle (some c) ∈ s.objects → s.pool.accepts = true →
      Change s false (s.submit c)
  | reset {j k : Nat} {o : Object} : .outside j ∉ s.parties → s.objects[k]? = some o →
      Change s false (s.reset j k o)
  | close : .owner ∉ s.parties → Change s false s.close
  | take {i : Nat} {e : Entry} {rest : List Entry} : s.pool.workers[i]? = some .idle →
      s.pool.queue = e :: rest → Change s true (s.take i e { s.pool with
        queue := rest
        workers := s.pool.workers.set i (.busy e)
        history := s.pool.history ++ [.taken i e] })
  | work {before after : List Turn} {u : Turn} {fate : Fate} {e : Entry}
      {rest : List (Fate × Entry)} {m : Cascade} : s.turns = before ++ u :: after →
      u.due = (fate, e) :: rest → (u.cascade s.heap).step = m → Change s true { s with
        heap := m.heap
        turns := before ++ ⟨u.party, m.due, m.failure⟩ :: after
        log := s.log ++ m.events.map (u.party, ·)
        isAborted := m.isAborted }
  | finish {before after : List Turn} {i : Nat} {failure : Option String} {e : Entry} :
      s.turns = before ++ ⟨.worker i, [], failure⟩ :: after →
      s.pool.workers[i]? = some (.busy e) → Change s true { s with
        pool := { s.pool with
          workers := s.pool.workers.set i .idle
          history := s.pool.history ++ [.finished i e] }
        turns := before ++ after }
  | retire {before after : List Turn} {u : Turn} : s.turns = before ++ u :: after → u.due = [] →
      (∀ i, u.party = .worker i → s.pool.workers[i]? = some .gone) →
      Change s true { s with turns := before ++ after }
  | lose {before after : List Turn} {i : Nat} {label : String} {e : Entry} {pool : Pool Entry} :
      s.turns = before ++ ⟨.worker i, [], some label⟩ :: after →
      s.pool.workers[i]? = some (.busy e) →
      pool = Pool.discardAbandoned { s.pool with
        workers := s.pool.workers.set i .gone
        history := s.pool.history ++ [.lost i e] } → Change s true { s with
        pool
        turns := before ++
          ⟨.worker i, (s.discarded pool).map (.dropped, ·), some label⟩ :: after }
  | leave {i : Nat} : s.pool.workers[i]? = some .idle → s.pool.isOpen = false →
      s.pool.queue = [] → Change s true { s with
        pool := { s.pool with workers := s.pool.workers.set i .gone } }

/-- A turn among those that come before it and those that come behind it. -/
theorem exists_of_turn {n : Nat} (h : s.turns[n]? = some u) : ∃ before after,
    s.turns = before ++ u :: after ∧ s.turns.eraseIdx n = before ++ after ∧
      ∀ v, s.turns.set n v = before ++ v :: after := by
  obtain ⟨hlt, rfl⟩ := List.getElem?_eq_some_iff.mp h
  refine ⟨s.turns.take n, s.turns.drop (n + 1), ?_, List.eraseIdx_eq_take_drop_succ .., ?_⟩
  · rw [← List.drop_eq_getElem_cons hlt, List.take_append_drop]
  · intro v
    rw [List.set_eq_take_append_cons_drop, if_pos hlt]

theorem change_of_rest {n : Nat} {pool : Pool Entry} (hturn : s.turns[n]? = some u)
    (hdue : u.due = [])
    (h : (∀ i, u.party = .worker i → s.pool.workers[i]? = some .gone) ∧ pool = s.pool ∨
      ∃ i, u.party = .worker i ∧ s.pool.act i .finish = some pool) :
    Change s true (s.rest n pool) := by
  obtain ⟨before, after, hturns, herase, -⟩ := exists_of_turn hturn
  rw [rest, herase]
  rcases h with ⟨hgone, rfl⟩ | ⟨i, hparty, hact⟩
  · exact .retire hturns hdue hgone
  · obtain ⟨party, due, failure⟩ := u
    obtain rfl : party = .worker i := hparty
    obtain rfl : due = [] := hdue
    obtain ⟨e, hbusy, rfl⟩ := Pool.act_finish_eq_some_iff.mp hact
    exact .finish hturns hbusy

/-- Every move is one of the changes. -/
theorem change_of_step {m : Move} (h : s.step m = some s') :
    s.isAborted = false ∧ Change s m.goesOn s' := by
  cases hab : s.isAborted with
  | true => simp [step, hab] at h
  | false =>
      refine ⟨rfl, ?_⟩
      rw [step.eq_def, if_neg (Bool.eq_false_iff.mp hab)] at h
      cases m with
      | submit k =>
          dsimp only at h
          split at h
          · next c hobject =>
            split at h
            · next hopen =>
              cases h
              rw [Bool.and_eq_true] at hopen
              exact .submit (List.mem_of_getElem? hobject) hopen.1
            · contradiction
          · contradiction
      | reset j k =>
          dsimp only at h
          split at h
          · contradiction
          · next hfree =>
            obtain ⟨o, hobject, rfl⟩ := Option.map_eq_some_iff.mp h
            exact .reset hfree hobject
      | close =>
          dsimp only at h
          split at h
          · contradiction
          · next hfree =>
            cases h
            exact .close hfree
      | take i =>
          dsimp only at h
          split at h
          · next e rest hq =>
            obtain ⟨pool, hact, rfl⟩ := Option.map_eq_some_iff.mp h
            obtain ⟨t, rest', hidle, hq', rfl⟩ := Pool.act_take_eq_some_iff.mp hact
            obtain ⟨rfl, rfl⟩ := List.cons.inj (hq.symm.trans hq')
            exact .take hidle hq
          · contradiction
      | work n =>
          dsimp only at h
          split at h
          · next u hturn =>
            split at h
            · contradiction
            · next hdue =>
              cases h
              obtain ⟨before, after, hturns, -, hset⟩ := exists_of_turn hturn
              obtain ⟨⟨fate, e⟩, rest, hcons⟩ := List.exists_cons_of_ne_nil
                fun hnil => hdue (List.isEmpty_iff.mpr hnil)
              simp only [work, hset]
              exact .work hturns hcons rfl
          · contradiction
      | rest n =>
          dsimp only at h
          split at h
          · next hturn =>
            cases h
            exact change_of_rest hturn rfl (.inl ⟨nofun, rfl⟩)
          · next i failure hturn =>
            split at h
            · next hgone =>
              cases h
              exact change_of_rest hturn rfl (.inl ⟨fun j hj => by cases hj; exact hgone, rfl⟩)
            · obtain ⟨pool, hact, rfl⟩ := Option.map_eq_some_iff.mp h
              exact change_of_rest hturn rfl (.inr ⟨i, rfl, hact⟩)
          · contradiction
      | lose n =>
          dsimp only at h
          split at h
          · next i label hturn =>
            obtain ⟨pool, hact, rfl⟩ := Option.map_eq_some_iff.mp h
            obtain ⟨before, after, hturns, -, hset⟩ := exists_of_turn hturn
            obtain ⟨e, hbusy, hpool⟩ := Pool.act_lose_eq_some_iff.mp hact
            simp only [lose, hset]
            exact .lose hturns hbusy hpool.symm
          · contradiction
      | leave i =>
          obtain ⟨pool, hact, rfl⟩ := Option.map_eq_some_iff.mp h
          obtain ⟨hidle, hclosed, hq, rfl⟩ := Pool.act_leave_eq_some_iff.mp hact
          exact .leave hidle hclosed hq

/-! ## The course of a thread -/

/-- The entries that are due in a turn. -/
def Turn.entries (u : Turn) : Chain := u.due.map Prod.snd

/-- The entries that are due on a thread. -/
def entriesOn (turns : List Turn) (t : Party) : Chain :=
  (turns.filter fun u => decide (u.party = t)).flatMap Turn.entries

/-- The entries that have ended on a thread. -/
def endedOn (log : List (Party × Event)) (t : Party) : Chain :=
  (log.filter fun x => decide (x.1 = t)).map fun x => x.2.entry

/-- What a thread has ended and what it has yet to end. -/
def course (s : Handoff) (t : Party) : Chain := endedOn s.log t ++ entriesOn s.turns t

@[simp] theorem entriesOn_nil (t : Party) : entriesOn [] t = [] := rfl

@[simp] theorem entriesOn_cons (u : Turn) (us : List Turn) (t : Party) :
    entriesOn (u :: us) t = (if u.party = t then u.entries else []) ++ entriesOn us t := by
  by_cases h : u.party = t <;> simp [entriesOn, h]

@[simp] theorem entriesOn_append (us vs : List Turn) (t : Party) :
    entriesOn (us ++ vs) t = entriesOn us t ++ entriesOn vs t := by
  simp [entriesOn]

theorem entriesOn_of_not_mem {us : List Turn} (h : t ∉ us.map Turn.party) :
    entriesOn us t = [] := by
  have hnone : us.filter (fun u => decide (u.party = t)) = [] := by
    rw [List.filter_eq_nil_iff]
    intro u hu
    rw [decide_eq_true_eq]
    rintro rfl
    exact h (List.mem_map_of_mem hu)
  rw [entriesOn, hnone, List.flatMap_nil]

theorem parties_of_turns (hturns : s.turns = before ++ u :: after) :
    s.parties = before.map Turn.party ++ u.party :: after.map Turn.party := by
  rw [parties, hturns, List.map_append, List.map_cons]

/-- The other turns are those of other threads. -/
theorem nodup_others (hturns : s.turns = before ++ u :: after) (hn : s.parties.Nodup) :
    u.party ∉ (before ++ after).map Turn.party ∧ ((before ++ after).map Turn.party).Nodup := by
  rw [parties_of_turns hturns, List.perm_middle.nodup_iff, List.nodup_cons] at hn
  rwa [List.map_append]

/-- A thread has but one turn. -/
theorem entriesOn_of_nodup (hturns : s.turns = before ++ u :: after) (hn : s.parties.Nodup) :
    entriesOn before u.party = [] ∧ entriesOn after u.party = [] := by
  have hothers := (nodup_others hturns hn).1
  rw [List.map_append, List.mem_append, not_or] at hothers
  exact ⟨entriesOn_of_not_mem hothers.1, entriesOn_of_not_mem hothers.2⟩

@[simp] theorem endedOn_append (log events : List (Party × Event)) (t : Party) :
    endedOn (log ++ events) t = endedOn log t ++ endedOn events t := by
  simp [endedOn]

@[simp] theorem endedOn_single (t t' : Party) (ev : Event) :
    endedOn [(t, ev)] t' = if t = t' then [ev.entry] else [] := by
  by_cases h : t = t' <;> simp [endedOn, h]

/-- Courses only grow. -/
theorem course_change (h : Change s b s') (hn : s.parties.Nodup) (hab : s'.isAborted = false)
    (t : Party) : (s.course t).Sublist (s'.course t) := by
  cases h with
  | submit | leave => exact .refl _
  | reset | close | take =>
      simp only [course, Handoff.reset, Handoff.close, Handoff.take, entriesOn_append]
      exact (List.sublist_append_left _ _).append_left _
  | @work before after u fate e rest m hturns hdue hm =>
      subst hm
      obtain ⟨-, hevents, hdue'⟩ := Cascade.step_cons (m := u.cascade s.heap) hdue hab
      have hevents : (u.cascade s.heap).step.events = [⟨e, fate⟩] := hevents
      simp only [course, hturns, hevents, List.map_singleton, entriesOn_append, endedOn_append,
        endedOn_single, entriesOn_cons]
      by_cases ht : u.party = t
      · -- The entry passes from the turn to what has ended, and what it frees comes in between.
        obtain ⟨hbefore, hafter⟩ := entriesOn_of_nodup hturns hn
        subst ht
        have hgrown : (rest.map Prod.snd).Sublist ((u.cascade s.heap).step.due.map Prod.snd) := by
          rw [← Cascade.dueEntries, hdue']
          exact List.sublist_append_right _ _
        simpa [hbefore, hafter, Turn.entries, hdue] using hgrown
      · simp [ht]
  | finish hturns => simp [course, hturns, Turn.entries]
  | retire hturns hdue => simp [course, hturns, Turn.entries, hdue]
  | lose hturns =>
      simp only [course, hturns, entriesOn_append, entriesOn_cons, Turn.entries, List.map_nil,
        ite_self, List.nil_append]
      exact ((List.sublist_append_right _ _).append_left _).append_left _

/-! ## Workers and turns -/

/-- No thread has two turns, and a worker has one while it is busy. -/
structure Staffed (s : Handoff) : Prop where
  parties : s.parties.Nodup
  occupied : ∀ i, .worker i ∈ s.parties → ∃ w, s.pool.workers[i]? = some w ∧ w.isIdle = false
  busy : ∀ i e, s.pool.workers[i]? = some (.busy e) → .worker i ∈ s.parties
  cleared : s.pool.Cleared

namespace Staffed

theorem not_mem_of_idle (h : s.Staffed) {i : Nat} (hidle : s.pool.workers[i]? = some .idle) :
    .worker i ∉ s.parties := by
  intro hmem
  obtain ⟨w, hw, hnot⟩ := h.occupied i hmem
  cases hidle.symm.trans hw
  contradiction

/-- A thread that is no worker begins something, or workers have not changed. -/
theorem outside (h : s.Staffed) (hworkers : s'.pool.workers = s.pool.workers)
    (hsame : ∀ i, .worker i ∈ s'.parties ↔ .worker i ∈ s.parties) (hn : s'.parties.Nodup)
    (hcleared : s'.pool.Cleared) : s'.Staffed where
  parties := hn
  occupied i hi := by
    rw [hworkers]
    exact h.occupied i ((hsame i).mp hi)
  busy i e hi := by
    rw [hworkers] at hi
    exact (hsame i).mpr (h.busy i e hi)
  cleared := hcleared

/-- A worker changes to doing something else. -/
theorem worker (h : s.Staffed) {i : Nat} {v w : Worker Entry} (hv : s.pool.workers[i]? = some v)
    (hworkers : s'.pool.workers = s.pool.workers.set i w)
    (hself : .worker i ∈ s'.parties → w.isIdle = false)
    (hbusy : ∀ e, w = .busy e → .worker i ∈ s'.parties)
    (hothers : ∀ j, i ≠ j → (.worker j ∈ s'.parties ↔ .worker j ∈ s.parties))
    (hn : s'.parties.Nodup) (hcleared : s'.pool.Cleared) : s'.Staffed := by
  obtain ⟨hlt, -⟩ := List.getElem?_eq_some_iff.mp hv
  refine ⟨hn, fun j hj => ?_, fun j e hj => ?_, hcleared⟩
  · rw [hworkers]
    by_cases hij : i = j
    · subst hij
      exact ⟨w, List.getElem?_set_self hlt, hself hj⟩
    · rw [List.getElem?_set_ne hij]
      exact h.occupied j ((hothers j hij).mp hj)
  · rw [hworkers] at hj
    by_cases hij : i = j
    · subst hij
      rw [List.getElem?_set_self hlt] at hj
      exact hbusy e (Option.some.inj hj)
    · rw [List.getElem?_set_ne hij] at hj
      exact (hothers j hij).mpr (h.busy j e hj)

end Staffed

theorem nodup_concat (hn : s.parties.Nodup) (ht : t ∉ s.parties) : (s.parties ++ [t]).Nodup :=
  (List.perm_append_singleton t s.parties).nodup_iff.mpr (List.nodup_cons.mpr ⟨ht, hn⟩)

/-- Each move keeps the invariant of turns. -/
theorem Staffed.change (h : s.Staffed) (hchange : Change s b s') : s'.Staffed := by
  have hparties := h.parties
  cases hchange with
  | @submit c _ hopen =>
      have hstaffed : s.pool.isDeserted = false := by
        simp only [Pool.accepts, Bool.and_eq_true, Bool.not_eq_true'] at hopen
        exact hopen.2
      refine h.outside ?_ (fun _ => .rfl) hparties (Pool.cleared_of_staffed ?_)
      · simp [Handoff.submit, Pool.submit, hopen, Pool.note]
      · simpa [Handoff.submit, Pool.submit, hopen, Pool.note, Pool.isDeserted] using hstaffed
  | reset hfree _ =>
      refine h.outside rfl (fun i => ?_) ?_ h.cleared
      · simp [Handoff.parties, Handoff.reset]
      · simpa [Handoff.parties, Handoff.reset] using nodup_concat hparties hfree
  | close hfree =>
      refine h.outside ?_ (fun i => ?_) ?_ (Pool.cleared_discardAbandoned _)
      · simp [Handoff.close, Pool.close]
      · simp [Handoff.parties, Handoff.close, Party.owner]
      · simpa [Handoff.parties, Handoff.close] using nodup_concat hparties hfree
  | @take i e rest hidle hq =>
      refine h.worker hidle rfl (fun _ => rfl) (fun _ _ => ?_) (fun j hij => ?_) ?_
        (Pool.cleared_act (i := i) (Pool.act_take_eq_some_iff.mpr ⟨e, rest, hidle, hq, rfl⟩))
      · simp [Handoff.parties, Handoff.take]
      · simp [Handoff.parties, Handoff.take, Ne.symm hij]
      · simpa [Handoff.parties, Handoff.take] using nodup_concat hparties (h.not_mem_of_idle hidle)
  | work hturns =>
      rw [parties_of_turns hturns] at hparties
      refine h.outside rfl (fun i => ?_) ?_ h.cleared
      · simp [Handoff.parties, hturns]
      · simpa [Handoff.parties] using hparties
  | @finish before after i failure e hturns hbusy =>
      obtain ⟨hgone, hn⟩ := nodup_others hturns hparties
      refine h.worker hbusy rfl (fun hi => absurd hi hgone) (by simp) (fun j hij => ?_) hn
        (Pool.cleared_act (i := i) (Pool.act_finish_eq_some_iff.mpr ⟨e, hbusy, rfl⟩))
      simp [Handoff.parties, hturns, Ne.symm hij]
  | @retire before after u hturns hdue hgone =>
      obtain ⟨hself, hn⟩ := nodup_others hturns hparties
      refine ⟨hn, fun i hi => h.occupied i ?_, fun i e hi => ?_, h.cleared⟩
      · rw [parties_of_turns hturns]
        exact ((List.sublist_cons_self _ _).append_left _).subset (List.map_append ▸ hi)
      · have hmem := h.busy i e hi
        have hne : .worker i ≠ u.party := by
          intro heq
          cases hi.symm.trans (hgone i heq.symm)
        simpa [Handoff.parties, hturns, hne] using hmem
  | @lose before after i label e pool hturns hbusy hpool =>
      rw [parties_of_turns hturns] at hparties
      refine h.worker (w := .gone) hbusy (by simp [hpool]) (fun _ => rfl) (by simp) (fun j _ => ?_)
        ?_ ?_
      · simp [Handoff.parties, hturns]
      · simpa [Handoff.parties] using hparties
      · exact hpool ▸ Pool.cleared_discardAbandoned _
  | @leave i hidle hclosed hq =>
      have hself := h.not_mem_of_idle hidle
      exact h.worker hidle rfl (fun hi => absurd hi hself) (by simp) (fun _ _ => .rfl) hparties
        (Pool.cleared_act (i := i) (Pool.act_leave_eq_some_iff.mpr ⟨hidle, hclosed, hq, rfl⟩))

/-! ## Reasons to drop an entry -/

/-- The tasks that wait are discarded, or they go on waiting. -/
theorem queue_eq_discarded {pool : Pool Entry}
    (h : pool.queue = s.pool.queue ∨ pool.queue = []) :
    s.pool.queue = s.discarded pool ++ pool.queue := by
  unfold discarded
  split
  · next hempty => rw [List.isEmpty_iff.mp hempty, List.append_nil]
  · next hnot => rw [List.nil_append, h.resolve_right fun hnil => hnot (List.isEmpty_iff.mpr hnil)]

theorem queue_close (s : Handoff) :
    s.pool.queue = s.discarded s.pool.close ++ s.pool.close.queue :=
  queue_eq_discarded (Pool.queue_discardAbandoned { s.pool with isOpen := false })

theorem queue_lose (s : Handoff) {pool : Pool Entry} {workers : List (Worker Entry)}
    {history : List (Pool.Event Entry)}
    (hpool : pool = Pool.discardAbandoned { s.pool with workers, history }) :
    s.pool.queue = s.discarded pool ++ pool.queue :=
  queue_eq_discarded (hpool ▸ Pool.queue_discardAbandoned { s.pool with workers, history })

/-- An action has failed on a thread. -/
def FailedOn (log : List (Party × Event)) (t : Party) : Prop := ∃ ev, (t, ev) ∈ log ∧ ev.Failed

/-- Entries are not dropped without a reason. Tasks, whose tickets are not below a bound, are
dropped where nobody is left to take them. -/
structure Orderly (bound : Nat) (s : Handoff) : Prop where
  tickets : bound ≤ s.nextTicket
  waiting : ∀ e ∈ s.pool.queue, bound ≤ e.ticket
  /-- What is due to be dropped is a task, or an action has failed on the thread. -/
  due : ∀ u ∈ s.turns, ∀ e, (.dropped, e) ∈ u.due → bound ≤ e.ticket ∨ FailedOn s.log u.party
  failed : ∀ u ∈ s.turns, u.failure ≠ none → FailedOn s.log u.party
  dropped : ∀ t e, (t, ⟨e, .dropped⟩) ∈ s.log → bound ≤ e.ticket ∨ FailedOn s.log t

theorem FailedOn.append {log : List (Party × Event)} (h : FailedOn log t)
    (events : List (Party × Event)) : FailedOn (log ++ events) t := by
  obtain ⟨ev, hev, hfailed⟩ := h
  exact ⟨ev, List.mem_append_left _ hev, hfailed⟩

namespace Orderly

variable {bound : Nat}

/-- Some turns begin, and others end. -/
theorem turns (h : s.Orderly bound) (htickets : s.nextTicket ≤ s'.nextTicket)
    (hlog : s'.log = s.log) (hwaiting : ∀ e ∈ s'.pool.queue, bound ≤ e.ticket)
    (hturns : ∀ u ∈ s'.turns, u ∈ s.turns ∨
      (u.failure ≠ none → FailedOn s.log u.party) ∧ ∀ e, (.dropped, e) ∈ u.due → bound ≤ e.ticket) :
    s'.Orderly bound where
  tickets := Nat.le_trans h.tickets htickets
  waiting := hwaiting
  due u hu e he := by
    rw [hlog]
    rcases hturns u hu with hold | ⟨-, hdue⟩
    · exact h.due u hold e he
    · exact .inl (hdue e he)
  failed u hu hne := by
    rw [hlog]
    rcases hturns u hu with hold | ⟨hnew, -⟩
    · exact h.failed u hold hne
    · exact hnew hne
  dropped := hlog ▸ h.dropped

/-- A thread ends an entry. -/
theorem work (h : s.Orderly bound) (hturns : s.turns = before ++ u :: after) {m : Cascade}
    (hm : (u.cascade s.heap).step = m) : Orderly bound { s with
      heap := m.heap
      turns := before ++ ⟨u.party, m.due, m.failure⟩ :: after
      log := s.log ++ m.events.map (u.party, ·)
      isAborted := m.isAborted } := by
  obtain ⟨hfailure, hdue, hevents⟩ := (u.cascade s.heap).drops_step
  rw [hm] at hfailure hdue hevents
  have hu : u ∈ s.turns := hturns ▸ List.mem_append_right _ List.mem_cons_self
  have hnew (hf : ∃ ev ∈ m.events, ev.Failed) :
      FailedOn (s.log ++ m.events.map (u.party, ·)) u.party := by
    obtain ⟨ev, hev, hfailed⟩ := hf
    exact ⟨ev, List.mem_append_right _ (List.mem_map_of_mem hev), hfailed⟩
  have hothers {v : Turn} (hv : v ∈ before ++ ⟨u.party, m.due, m.failure⟩ :: after) :
      v = ⟨u.party, m.due, m.failure⟩ ∨ v ∈ s.turns := by
    rw [hturns]
    simp only [List.mem_append, List.mem_cons] at hv ⊢
    tauto
  refine ⟨h.tickets, h.waiting, fun v hv e he => ?_, fun v hv hne => ?_, fun t e he => ?_⟩
  · rcases hothers hv with rfl | hold
    · rcases hdue e he with hold | hf
      · exact (h.due u hu e hold).imp_right fun hf => hf.append _
      · exact .inr (hnew hf)
    · exact (h.due v hold e he).imp_right fun hf => hf.append _
  · rcases hothers hv with rfl | hold
    · rcases hfailure hne with hold | hf
      · exact (h.failed u hu hold).append _
      · exact hnew hf
    · exact (h.failed v hold hne).append _
  · rcases List.mem_append.mp he with hold | he
    · exact (h.dropped t e hold).imp_right fun hf => hf.append _
    · obtain ⟨ev, hev, heq⟩ := List.mem_map.mp he
      cases heq
      rcases hevents e hev with hnone | hold
      · contradiction
      · exact (h.due u hu e hold).imp_right fun hf => hf.append _

/-- Each move keeps the reasons. -/
theorem change (h : s.Orderly bound) (hchange : Change s b s') : s'.Orderly bound := by
  cases hchange with
  | submit _ hopen =>
      refine h.turns (Nat.le_succ _) rfl (fun e he => ?_) fun u => .inl
      simp only [Handoff.submit, Pool.submit, hopen, if_true, Pool.note, List.mem_append,
        List.mem_singleton] at he
      rcases he with he | rfl
      · exact h.waiting e he
      · exact h.tickets
  | reset =>
      refine h.turns (Nat.le_refl _) rfl h.waiting fun u hu => ?_
      simp only [Handoff.reset, List.mem_append, List.mem_singleton] at hu
      refine hu.imp_right ?_
      rintro rfl
      simp
  | close =>
      have hq := s.queue_close
      refine h.turns (Nat.le_refl _) rfl (fun e he => ?_) fun u hu => ?_
      · exact h.waiting e (hq ▸ List.mem_append_right _ he)
      · simp only [Handoff.close, List.mem_append, List.mem_singleton] at hu
        refine hu.imp_right ?_
        rintro rfl
        refine ⟨fun hne => absurd rfl hne, fun e he => h.waiting e ?_⟩
        rw [hq]
        exact List.mem_append_left _ (by simpa using he)
  | take _ hq =>
      refine h.turns (Nat.le_refl _) rfl (fun e he => ?_) fun u hu => ?_
      · exact h.waiting e (hq ▸ List.mem_cons_of_mem _ he)
      · simp only [Handoff.take, List.mem_append, List.mem_singleton] at hu
        refine hu.imp_right ?_
        rintro rfl
        simp
  | work hturns _ hm => exact h.work hturns hm
  | finish hturns | retire hturns =>
      refine h.turns (Nat.le_refl _) rfl h.waiting fun u hu => .inl ?_
      rw [hturns]
      exact ((List.sublist_cons_self _ _).append_left _).subset hu
  | @lose before after i label e pool hturns hbusy hpool =>
      have hq := s.queue_lose hpool
      refine h.turns (Nat.le_refl _) rfl (fun e he => ?_) fun u hu => ?_
      · exact h.waiting e (hq ▸ List.mem_append_right _ he)
      · simp only [List.mem_append, List.mem_cons] at hu
        rw [hturns, List.mem_append, List.mem_cons]
        rcases hu with hu | rfl | hu
        · exact .inl (.inl hu)
        · refine .inr ⟨fun hne => ?_, fun e he => h.waiting e ?_⟩
          · exact h.failed ⟨.worker i, [], some label⟩
              (hturns ▸ List.mem_append_right _ List.mem_cons_self) hne
          · rw [hq]
            exact List.mem_append_left _ (by simpa using he)
        · exact .inl (.inr (.inr hu))
  | leave => exact h.turns (Nat.le_refl _) rfl h.waiting fun u => .inl

end Orderly

/-! ## Tasks -/

/-- Every accepted task gives up a reference. It waits, or it has come to a worker or to the owner.
-/
structure Tended (s : Handoff) : Prop where
  duty : ∀ e ∈ Pool.accepted s.pool.history, ∃ c, e.duty = .giveUp (some c)
  found : ∀ e ∈ Pool.accepted s.pool.history,
    e ∈ s.pool.queue ∨ ∃ t, t.isStranger = false ∧ e ∈ s.course t

namespace Tended

/-- Some of the tasks that wait come to a thread. -/
theorem pass (h : s.Tended) (hcourse : ∀ t, (s.course t).Sublist (s'.course t))
    (haccepted : Pool.accepted s'.pool.history = Pool.accepted s.pool.history)
    (ht : t.isStranger = false) (es : Chain) (hes : ∀ e ∈ es, e ∈ entriesOn s'.turns t)
    (hq : s.pool.queue = es ++ s'.pool.queue) : s'.Tended where
  duty := haccepted ▸ h.duty
  found e he := by
    rcases h.found e (haccepted ▸ he) with hwaits | ⟨t', ht', hmem⟩
    · rw [hq, List.mem_append] at hwaits
      exact hwaits.symm.imp_right fun hmem => ⟨t, ht, List.mem_append_right _ (hes e hmem)⟩
    · exact .inr ⟨t', ht', (hcourse t').subset hmem⟩

/-- No task comes to a thread. -/
theorem keep (h : s.Tended) (hcourse : ∀ t, (s.course t).Sublist (s'.course t))
    (haccepted : Pool.accepted s'.pool.history = Pool.accepted s.pool.history)
    (hq : s.pool.queue = s'.pool.queue) : s'.Tended :=
  h.pass (t := .owner) hcourse haccepted rfl [] nofun hq

/-- Each move keeps track of the tasks. -/
theorem change (h : s.Tended) (hchange : Change s b s') (hn : s.parties.Nodup)
    (hab : s'.isAborted = false) : s'.Tended := by
  have hcourse := course_change hchange hn hab
  cases hchange with
  | @submit c _ hopen =>
      have hpool : (s.submit c).pool = { s.pool with
          queue := s.pool.queue ++ [⟨s.nextTicket, .giveUp (some c)⟩]
          history := s.pool.history ++ [.accepted ⟨s.nextTicket, .giveUp (some c)⟩] } := by
        simp [Handoff.submit, Pool.submit, hopen, Pool.note]
      have haccepted : Pool.accepted (s.submit c).pool.history =
          Pool.accepted s.pool.history ++ [⟨s.nextTicket, .giveUp (some c)⟩] := by
        rw [hpool]
        exact Pool.accepted_concat _ _
      refine ⟨fun e he => ?_, fun e he => ?_⟩
      · rw [haccepted] at he
        rcases List.mem_append.mp he with hold | hnew
        · exact h.duty e hold
        · exact ⟨c, by rw [List.mem_singleton.mp hnew]⟩
      · rw [haccepted] at he
        rw [hpool]
        rcases List.mem_append.mp he with hold | hnew
        · rcases h.found e hold with hwaits | ⟨t, ht, hmem⟩
          · exact .inl (List.mem_append_left _ hwaits)
          · exact .inr ⟨t, ht, (hcourse t).subset hmem⟩
        · exact .inl (List.mem_append_right _ hnew)
  | reset | work | retire | leave => exact h.keep hcourse rfl rfl
  | finish => exact h.keep hcourse (by simp [Pool.Event.accepted?]) rfl
  | close =>
      refine h.pass hcourse ?_ (t := .owner) rfl _ (fun e he => ?_) s.queue_close
      · simp [Handoff.close, Pool.close]
      · simpa [Handoff.close, Turn.entries, Function.comp_def] using .inr he
  | @take i e rest _ hq =>
      refine h.pass hcourse ?_ (t := .worker i) rfl [e] (fun e he => ?_) hq
      · simp [Handoff.take, Pool.Event.accepted?]
      · simpa [Handoff.take, Turn.entries] using .inr (List.mem_singleton.mp he)
  | @lose before after i label e pool hturns _ hpool =>
      refine h.pass hcourse ?_ (t := .worker i) rfl _ (fun e he => ?_) (s.queue_lose hpool)
      · simp [hpool, Pool.Event.accepted?]
      · simp [Turn.entries, Function.comp_def, he]

end Tended

end Handoff

end Lifespan.Cleanup
