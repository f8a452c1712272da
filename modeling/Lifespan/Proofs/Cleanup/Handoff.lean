import Lifespan.Proofs.Cleanup.References
import Lifespan.Proofs.Cleanup.Turns

/-!
# References in the hands of a pool

Whatever threads do with the references that are handed to a pool, and in whatever order, entries
and references add up at any time: what waits in the queue and what threads carry out is as good as
due. So a shared chain stays as it is while references to it remain, and where the last one is given
up, its entries come to the one thread that has done so.

When the owner of the pool is done with closing it, all tasks have ended, on the workers or on the
owner. Until then somebody can go on, and whatever goes on comes nearer to the end.
-/
namespace Lifespan.Cleanup

namespace Handoff

variable {s s' : Handoff} {t : Party} {e : Entry} {u : Turn} {b : Bool} {c : CellId} {es : Chain}
  {past : Log} {issued : List Entry}

/-! ## Entries and references -/

/-- The entries that wait in the queue, and those that are due on threads. -/
def underway (s : Handoff) : Chain := s.pool.queue ++ s.turns.flatMap Turn.entries

/-- The pending entries: those of objects, those underway, and those of shared chains. -/
def pending (s : Handoff) : Chain :=
  s.objects.flatMap Object.own ++ s.underway ++ s.heap.entries

/-- The number of references to a shared chain. Each one is a handle, or a pending entry owns it. -/
def references (s : Handoff) (c : CellId) : Nat :=
  s.objects.count (.handle (some c)) + s.pending.countP (Entry.owns c)

/-- How an entry has ended, and on which thread. -/
def endings (s : Handoff) (e : Entry) : List (Party × Event) :=
  s.log.filter fun x => decide (x.2.entry = e)

/-- Entries and references add up, after some events in the past. -/
structure Books (past : Log) (issued : List Entry) (s : Handoff) : Prop where
  tickets : issued.map Entry.ticket = List.range s.nextTicket
  ledger : Ledger s.heap (.chain s.underway :: s.objects)
    (past.map Event.entry ++ s.log.map fun x => x.2.entry) issued

/-- A moment at which all that waits or is due on threads is due. -/
def asMoment (past : Log) (s : Handoff) : Moment where
  objects := s.objects
  hand := none
  log := past ++ s.log.map Prod.snd
  cascade := { heap := s.heap, due := s.underway.map (.ran, ·) }

theorem dueEntries_asMoment (past : Log) (s : Handoff) :
    (s.asMoment past).cascade.dueEntries = s.underway := by
  simp [asMoment, Cascade.dueEntries, Function.comp_def]

theorem ended_asMoment (past : Log) (s : Handoff) :
    (s.asMoment past).ended.map Event.entry =
      past.map Event.entry ++ s.log.map fun x => x.2.entry := by
  simp [asMoment, Moment.ended, Function.comp_def]

namespace Books

/-- The books are those of a moment. -/
theorem moment (h : s.Books past issued) : (s.asMoment past).Books issued where
  fresh hne := absurd rfl hne
  ledger := by
    rw [dueEntries_asMoment, ended_asMoment]
    exact h.ledger

theorem nodup_issued (h : s.Books past issued) : issued.Nodup := by
  refine List.Nodup.of_map Entry.ticket ?_
  rw [h.tickets]
  exact List.nodup_range

/-- No entry ends twice. -/
theorem nodup_log (h : s.Books past issued) : (s.log.map fun x => x.2.entry).Nodup := by
  have hended := h.moment.nodup_ended h.nodup_issued
  rw [ended_asMoment] at hended
  exact (List.nodup_append.mp hended).2.1

/-- References are counted right. -/
theorem counted (h : s.Books past issued) (c : CellId) :
    s.heap.refCount (some c) = s.references c := by
  have hcounted := h.moment.counted c
  rwa [Moment.pending, dueEntries_asMoment] at hcounted

/-- What is in a shared chain has not come to any thread. -/
theorem not_mem_course (h : s.Books past issued) {shared : Shared}
    (hs : s.heap.get? c = some shared) (he : e ∈ shared.chain) (t : Party) : e ∉ s.course t := by
  obtain ⟨hdue, hended⟩ := h.moment.waits h.nodup_issued hs he
  rw [dueEntries_asMoment] at hdue
  rw [ended_asMoment] at hended
  intro hmem
  rcases List.mem_append.mp hmem with hlog | hturn
  · obtain ⟨x, hx, rfl⟩ := List.mem_map.mp hlog
    exact hended (List.mem_append_right _ (List.mem_map_of_mem (List.mem_filter.mp hx).1))
  · obtain ⟨u, hu, hentry⟩ := List.mem_flatMap.mp hturn
    exact hdue (List.mem_append_right _
      (List.mem_flatMap.mpr ⟨u, (List.mem_filter.mp hu).1, hentry⟩))

/-- Only what is underway changes its place. -/
theorem shift (h : s.Books past issued) (hheap : s'.heap = s.heap)
    (hobjects : s'.objects = s.objects) (hlog : s'.log = s.log)
    (hticket : s'.nextTicket = s.nextTicket) (hperm : s.underway.Perm s'.underway) :
    s'.Books past issued where
  tickets := hticket ▸ h.tickets
  ledger := by
    rw [hheap, hobjects, hlog]
    exact h.ledger.rearrange hperm

theorem submit (h : s.Books past issued) (hmem : .handle (some c) ∈ s.objects)
    (hopen : s.pool.accepts = true) :
    (s.submit c).Books past (issued ++ [⟨s.nextTicket, .giveUp (some c)⟩]) := by
  obtain ⟨shared, hs⟩ := h.ledger.exists_of_mem (List.mem_cons_of_mem _ hmem)
  refine ⟨?_, ?_⟩
  · rw [List.map_append, h.tickets]
    exact List.range_succ.symm
  · have l : Ledger _ (.chain [⟨s.nextTicket, .giveUp (some c)⟩] :: _) _ _ :=
      (h.ledger.retain hs 1).issue s.nextTicket
    refine (Ledger.append_cons_iff.mpr l).rearrange (List.perm_iff_count.mpr fun x => ?_)
    simp [underway, Handoff.submit, Pool.submit, hopen, Pool.note, List.count_cons]
    omega

theorem reset (h : s.Books past issued) {j k : Nat} {o : Object} (ho : s.objects[k]? = some o) :
    (s.reset j k o).Books past issued := by
  obtain ⟨hlt, rfl⟩ := List.getElem?_eq_some_iff.mp ho
  refine ⟨h.tickets, ?_⟩
  -- The object is taken out, what it frees is due, and an empty object takes its place.
  have htaken := (h.ledger.perm (((List.getElem_cons_eraseIdx_perm hlt).symm.cons _).trans
    (.swap ..))).freed
  have hdue := (Ledger.append_cons_iff.mpr htaken).emptied_cons s.objects[k]
  have hplaced := hdue.perm ((List.Perm.swap ..).trans
    ((List.set_perm_cons_eraseIdx hlt s.objects[k].emptied).symm.cons _))
  refine hplaced.rearrange (List.perm_iff_count.mpr fun x => ?_)
  simp [underway, Handoff.reset, Turn.entries, Function.comp_def]
  omega

theorem work (h : s.Books past issued) {before after : List Turn} {m : Cascade}
    (hturns : s.turns = before ++ u :: after) (hm : (u.cascade s.heap).step = m)
    (hab : m.isAborted = false) : Books past issued { s with
      heap := m.heap
      turns := before ++ ⟨u.party, m.due, m.failure⟩ :: after
      log := s.log ++ m.events.map (u.party, ·)
      isAborted := m.isAborted } := by
  let others := s.pool.queue ++ (before.flatMap Turn.entries ++ after.flatMap Turn.entries)
  have hsplit : s.underway.Perm (u.entries ++ others) := by
    refine List.perm_iff_count.mpr fun x => ?_
    simp [underway, hturns, others]
    omega
  have hbooks : (u.cascade s.heap).Books (.chain others :: s.objects)
      (past.map Event.entry ++ s.log.map fun x => x.2.entry) issued := by
    have l := Ledger.append_cons_iff.mp (h.ledger.rearrange hsplit)
    simpa [Cascade.Books, Cascade.dueEntries, Turn.cascade, Turn.entries] using l
  have l := Ledger.append_cons_iff.mpr (hm ▸ hbooks.step (hm ▸ hab))
  have hended : (s.log ++ m.events.map (u.party, ·)).map (fun x => x.2.entry) =
      s.log.map (fun x => x.2.entry) ++ m.events.map Event.entry := by
    simp [Function.comp_def]
  refine ⟨h.tickets, ?_⟩
  dsimp only
  rw [hended, ← List.append_assoc]
  refine l.rearrange (List.perm_iff_count.mpr fun x => ?_)
  simp [underway, others, Turn.entries, Cascade.dueEntries]
  omega

end Books

/-- Each move keeps the books, unless it aborts the program. -/
theorem books_change (h : s.Books past issued) (hchange : Change s b s')
    (hab : s'.isAborted = false) : ∃ made, s'.Books past (issued ++ made) := by
  have unmade (h' : s'.Books past issued) : ∃ made, s'.Books past (issued ++ made) :=
    ⟨[], by rwa [List.append_nil]⟩
  cases hchange with
  | submit hmem hopen => exact ⟨_, h.submit hmem hopen⟩
  | reset _ ho => exact unmade (h.reset ho)
  | work hturns _ hm => exact unmade (h.work hturns hm hab)
  | close =>
      refine unmade (h.shift rfl rfl rfl rfl (List.perm_iff_count.mpr fun x => ?_))
      rw [underway, s.queue_close]
      simp [underway, Handoff.close, Turn.entries, Function.comp_def]
      omega
  | take _ hq =>
      refine unmade (h.shift rfl rfl rfl rfl (List.perm_iff_count.mpr fun x => ?_))
      simp [underway, hq, Handoff.take, Turn.entries, List.count_cons]
      omega
  | finish hturns =>
      refine unmade (h.shift rfl rfl rfl rfl (.of_eq ?_))
      simp [underway, hturns, Turn.entries]
  | retire hturns hdue =>
      refine unmade (h.shift rfl rfl rfl rfl (.of_eq ?_))
      simp [underway, hturns, Turn.entries, hdue]
  | lose hturns _ hpool =>
      refine unmade (h.shift rfl rfl rfl rfl (List.perm_iff_count.mpr fun x => ?_))
      rw [underway, s.queue_lose hpool]
      simp [underway, hturns, Turn.entries, Function.comp_def]
      omega
  | leave => exact unmade (h.shift rfl rfl rfl rfl (.refl _))

/-! ## How entries end -/

/-- A member of a list is the only one with its image if these differ. -/
theorem filter_eq_singleton {α β : Type} [DecidableEq β] {f : α → β} {l : List α} {a : α}
    (hn : (l.map f).Nodup) (ha : a ∈ l) : l.filter (fun x => decide (f x = f a)) = [a] := by
  induction l with
  | nil => contradiction
  | cons x rest ih =>
      rw [List.map_cons, List.nodup_cons] at hn
      rcases List.mem_cons.mp ha with rfl | hmem
      · rw [List.filter_cons_of_pos (by simp), List.filter_eq_nil_iff.mpr]
        intro y hy
        rw [decide_eq_true_eq]
        exact fun heq => hn.1 (heq ▸ List.mem_map_of_mem hy)
      · have hne : f x ≠ f a := fun heq => hn.1 (heq ▸ List.mem_map_of_mem hmem)
        rw [List.filter_cons_of_neg (by simpa using hne), ih hn.2 hmem]

/-- What has ended on a thread has ended there once, and nowhere else. -/
theorem Books.endings_eq (h : s.Books past issued) (he : e ∈ endedOn s.log t) :
    ∃ fate, s.endings e = [(t, ⟨e, fate⟩)] := by
  obtain ⟨⟨t', ⟨e', fate⟩⟩, hx, rfl⟩ := List.mem_map.mp he
  obtain ⟨hmem, ht⟩ := List.mem_filter.mp hx
  obtain rfl : t' = t := by simpa using ht
  exact ⟨fate, filter_eq_singleton h.nodup_log hmem⟩

/-- What has not come to any thread has not ended. -/
theorem endings_eq_nil (h : ∀ t, e ∉ s.course t) : s.endings e = [] := by
  rw [endings, List.filter_eq_nil_iff]
  rintro ⟨t, ev⟩ hx
  rw [decide_eq_true_eq]
  rintro rfl
  exact h t (List.mem_append_left _ (List.mem_map.mpr ⟨(t, ev), by simpa using hx, rfl⟩))

/-- The course of a thread that has nothing to carry out is over. -/
theorem course_of_not_mem (h : t ∉ s.parties) : s.course t = endedOn s.log t := by
  rw [course, entriesOn_of_not_mem h, List.append_nil]

/-- What is due in a turn is part of the course of the thread. -/
theorem sublist_course_of_mem (hu : u ∈ s.turns) (hes : es.Sublist u.entries) :
    es.Sublist (s.course u.party) := by
  obtain ⟨before, after, hturns⟩ := List.append_of_mem hu
  rw [course, hturns, entriesOn_append, entriesOn_cons, if_pos rfl]
  refine List.Sublist.trans hes (List.Sublist.trans ?_ (List.sublist_append_right _ _))
  exact (List.sublist_append_left _ _).trans (List.sublist_append_right _ _)

/-! ## Shared chains -/

/-- A shared chain with certain entries is where it was, or it has been taken out, and one thread
has come by all its entries in their order. -/
def Settled (c : CellId) (es : Chain) (s : Handoff) : Prop :=
  (∃ shared, s.heap.get? c = some shared ∧ shared.chain = es) ∨
    c < s.heap.cells.length ∧ s.heap.get? c = none ∧ ∃ t, es.Sublist (s.course t)

namespace Settled

/-- A reference is given up, and what this takes out of the heap comes to a thread. -/
theorem release (h : s.Settled c es) (hcourse : ∀ t, (s.course t).Sublist (s'.course t))
    (handle : Handle) (hheap : s'.heap = (s.heap.release handle).2)
    (hfreed : (s.heap.release handle).1.Sublist (s'.course t)) : s'.Settled c es := by
  have hbefore := s.heap.before_release handle
  rw [← hheap] at hbefore
  rcases h with ⟨shared, hs, rfl⟩ | ⟨hlt, hnone, t', hes⟩
  · cases hs' : (s.heap.release handle).2.get? c with
    | none =>
        obtain ⟨rfl, hlast⟩ := (Heap.get?_release_eq_none_iff hs handle).mp hs'
        obtain ⟨hlt, -⟩ := List.getElem?_eq_some_iff.mp (Option.join_eq_some_iff.mp hs)
        rw [Heap.release_last hs hlast] at hfreed
        exact .inr ⟨Nat.lt_of_lt_of_le hlt hbefore.length_le, hheap ▸ hs', t, hfreed⟩
    | some shared' =>
        obtain ⟨shared'', hs'', hchain⟩ := Heap.chain_of_release hs'
        cases hs.symm.trans hs''
        exact .inl ⟨shared', hheap ▸ hs', hchain.symm⟩
  · exact .inr ⟨Nat.lt_of_lt_of_le hlt hbefore.length_le, hbefore.empty c hlt hnone, t',
      hes.trans (hcourse t')⟩

/-- More references are counted. -/
theorem retain (h : s.Settled c es) (hcourse : ∀ t, (s.course t).Sublist (s'.course t))
    {d : CellId} {n : Nat} (hheap : s'.heap = s.heap.retain (some d) n) : s'.Settled c es := by
  have hbefore := s.heap.before_retain (some d) n
  rw [← hheap] at hbefore
  rcases h with ⟨shared, hs, rfl⟩ | ⟨hlt, hnone, t', hes⟩
  · refine .inl ?_
    rw [hheap]
    cases hd : s.heap.get? d with
    | none => exact ⟨shared, by rwa [Heap.retain, hd], rfl⟩
    | some other =>
        rw [Heap.retain_eq hd, Heap.get?_set hd]
        by_cases hdc : d = c
        · subst hdc
          cases hd.symm.trans hs
          exact ⟨_, if_pos rfl, rfl⟩
        · exact ⟨shared, by rwa [if_neg hdc], rfl⟩
  · exact .inr ⟨Nat.lt_of_lt_of_le hlt hbefore.length_le, hbefore.empty c hlt hnone, t',
      hes.trans (hcourse t')⟩

/-- Each move takes a shared chain out as a whole, or leaves it as it is. -/
theorem change (h : s.Settled c es) (hchange : Change s b s') (hn : s.parties.Nodup)
    (hab : s'.isAborted = false) : s'.Settled c es := by
  have hcourse := course_change hchange hn hab
  cases hchange with
  | submit => exact h.retain hcourse rfl
  | @reset j k o hfree _ =>
      have hdue : (o.freed s.heap).1.Sublist ((s.reset j k o).course (.outside j)) := by
        refine sublist_course_of_mem (u := ⟨.outside j, (o.freed s.heap).1.map (.ran, ·), none⟩)
          (List.mem_append_right _ List.mem_cons_self) ?_
        simp [Turn.entries, Function.comp_def]
      refine h.release (t := .outside j) hcourse o.reference ?_ ?_
      · cases o <;> rfl
      · cases o with
        | handle handle => exact hdue
        | chain | pinnable => exact List.nil_sublist _
  | @work before after u fate e rest m hturns hdue hm =>
      subst hm
      obtain ⟨hheap, -, hdue'⟩ := Cascade.step_cons (m := u.cascade s.heap) hdue hab
      refine h.release (t := u.party) hcourse e.duty.handle hheap ?_
      refine sublist_course_of_mem (u := ⟨u.party, (u.cascade s.heap).step.due, _⟩)
        (List.mem_append_right _ List.mem_cons_self) ?_
      rw [Turn.entries, ← Cascade.dueEntries, hdue']
      exact List.sublist_append_left _ _
  | _ => exact h.release (t := .owner) hcourse none rfl (List.nil_sublist _)

end Settled

/-! ## Going on -/

/-- An upper bound for the number of moves that go on with what has been handed in or begun. -/
def effort (s : Handoff) : Nat :=
  3 * s.pool.effort + s.heap.weight + (s.turns.flatMap Turn.entries).length + s.turns.length

/-- Every move that goes on comes nearer to the end. -/
theorem effort_lt (h : Change s true s') : s'.effort < s.effort := by
  cases h with
  | @take i e rest hidle hq =>
      have hpool := Pool.effort_act_lt (i := i)
        (Pool.act_take_eq_some_iff.mpr ⟨e, rest, hidle, hq, rfl⟩)
      simp [effort, Handoff.take, Turn.entries]
      omega
  | @work before after u fate e rest m hturns hdue hm =>
      have hweight := (u.cascade s.heap).weight_step_lt (by simp [Turn.cascade, hdue])
      rw [hm] at hweight
      simp only [Cascade.weight, Turn.cascade] at hweight
      simp [effort, hturns, Turn.entries]
      omega
  | @finish before after i failure e hturns hbusy =>
      have hpool := Pool.effort_act_lt (i := i)
        (Pool.act_finish_eq_some_iff.mpr ⟨e, hbusy, rfl⟩)
      simp [effort, hturns, Turn.entries]
      omega
  | retire hturns =>
      simp [effort, hturns]
      omega
  | @lose before after i label e pool hturns hbusy hpool =>
      -- What is discarded comes to the worker, which makes up for what leaves the queue.
      have hq := congrArg List.length (s.queue_lose hpool)
      have hworkers : sum (pool.workers.map Worker.effort) + 2 =
          sum (s.pool.workers.map Worker.effort) := by
        rw [hpool, Pool.workers_discardAbandoned]
        exact sum_map_set Worker.effort hbusy .gone
      rw [List.length_append] at hq
      simp [effort, hturns, Turn.entries, Pool.effort]
      omega
  | @leave i hidle hclosed hq =>
      have hpool := Pool.effort_act_lt (i := i)
        (Pool.act_leave_eq_some_iff.mpr ⟨hidle, hclosed, hq, rfl⟩)
      simp [effort]
      omega

/-- After the pool has been closed somebody can go on until the owner is done. -/
theorem exists_goesOn (h : s.Staffed) (hab : s.isAborted = false) (hclosed : s.pool.isOpen = false)
    (hgoing : s.hasReturned = false) : ∃ m next, m.goesOn = true ∧ s.step m = some next := by
  by_cases hall : s.parties.all Party.isStranger = true
  · have hended : s.pool.hasEnded = false := by simpa [hasReturned, hall] using hgoing
    obtain ⟨i, a, pool, hnot, hact⟩ := Pool.act_of_closed hclosed hended
    cases a with
    | take =>
        obtain ⟨e, rest, hidle, hq, -⟩ := Pool.act_take_eq_some_iff.mp hact
        exact ⟨.take i, s.take i e pool, rfl, by simp [step, hab, hq, hact]⟩
    | finish =>
        obtain ⟨e, hbusy, -⟩ := Pool.act_finish_eq_some_iff.mp hact
        have := List.all_eq_true.mp hall _ (h.busy i e hbusy)
        contradiction
    | lose => contradiction
    | leave => exact ⟨.leave i, { s with pool }, rfl, by simp [step, hab, hact]⟩
  · obtain ⟨t, hmem, ht⟩ := List.all_eq_false.mp (Bool.eq_false_iff.mpr hall)
    obtain ⟨u, hu, rfl⟩ := List.mem_map.mp hmem
    obtain ⟨n, hn⟩ := List.mem_iff_getElem?.mp hu
    by_cases hdue : u.due = []
    · obtain ⟨party, due, failure⟩ := u
      obtain rfl : due = [] := hdue
      cases party with
      | outside j => exact ⟨.rest n, s.rest n s.pool, rfl, by simp [step, hab, hn]⟩
      | worker i =>
          obtain ⟨w, hw, hidle⟩ := h.occupied i hmem
          cases w with
          | idle => contradiction
          | gone => exact ⟨.rest n, s.rest n s.pool, rfl, by simp [step, hab, hn, hw]⟩
          | busy e =>
              have hact := Pool.act_finish_eq_some_iff.mpr ⟨e, hw, rfl⟩
              exact ⟨.rest n, s.rest n _, rfl, by simp [step, hab, hn, hw, hact]; rfl⟩
    · exact ⟨.work n, s.work n u, rfl, by simp [step, hab, hn, hdue]⟩

/-! ## Runs -/

theorem run_cons (s : Handoff) (m : Move) (rest : List Move) :
    s.run (m :: rest) = (s.step m).bind fun next => next.run rest := rfl

/-- A program that has been aborted stays so. -/
theorem isAborted_of_run {moves : List Move} (h : s.run moves = some s')
    (hab : s'.isAborted = false) : s.isAborted = false := by
  cases moves with
  | nil =>
      cases h
      exact hab
  | cons m rest =>
      rw [run_cons] at h
      obtain ⟨next, hnext, -⟩ := Option.bind_eq_some_iff.mp h
      exact (change_of_step hnext).1

/-- What holds of threads that have begun in a world. -/
structure Sound (w : World) (issued : List Entry) (s : Handoff) : Prop where
  staffed : s.Staffed
  orderly : s.Orderly w.nextTicket
  tended : s.Tended
  books : ∃ made, s.Books w.log (issued ++ made)
  settled : ∀ c shared, w.heap.get? c = some shared → s.Settled c shared.chain

namespace Sound

variable {w : World} {pool : Pool Entry} {count : Nat} {capacity : Option Nat}

/-- The invariant holds when threads begin. -/
theorem start (books : w.Books [] issued) (created : Pool.create? count capacity = .ok pool) :
    (Handoff.start w pool).Sound w issued := by
  obtain rfl := Pool.eq_of_create? created
  refine ⟨⟨List.nodup_nil, nofun, fun i e hi => ?_, fun _ => rfl⟩,
    ⟨Nat.le_refl _, nofun, nofun, nofun, nofun⟩, ⟨nofun, nofun⟩, ⟨[], ?_, ?_⟩, ?_⟩
  · simp [Handoff.start, List.getElem?_replicate] at hi
  · rw [List.append_nil]
    exact books.tickets
  · rw [List.append_nil]
    simpa [underway, Handoff.start, World.held] using Ledger.empty_cons_iff.mpr books.ledger
  · intro c shared hs
    exact .inl ⟨shared, hs, rfl⟩

/-- Each move keeps the invariant, unless it aborts the program. -/
theorem change (h : s.Sound w issued) (hchange : Change s b s') (hab : s'.isAborted = false) :
    s'.Sound w issued where
  staffed := h.staffed.change hchange
  orderly := h.orderly.change hchange
  tended := h.tended.change hchange h.staffed.parties hab
  books := by
    obtain ⟨made, hbooks⟩ := h.books
    obtain ⟨made', hbooks'⟩ := books_change hbooks hchange hab
    exact ⟨made ++ made', by rwa [← List.append_assoc]⟩
  settled c shared hs := (h.settled c shared hs).change hchange h.staffed.parties hab

/-- Moves in a row keep the invariant, unless they abort the program. -/
theorem run (h : s.Sound w issued) {moves : List Move} (hrun : s.run moves = some s')
    (hab : s'.isAborted = false) : s'.Sound w issued := by
  induction moves generalizing s with
  | nil =>
      cases hrun
      exact h
  | cons m rest ih =>
      rw [run_cons] at hrun
      obtain ⟨next, hnext, hrest⟩ := Option.bind_eq_some_iff.mp hrun
      exact ih (h.change (change_of_step hnext).2 (isAborted_of_run hrest hab)) hrest

/-- A task has ended once when the owner is done, on a worker or on the owner. -/
theorem endings_of_accepted (h : s.Sound w issued) (hreturned : s.hasReturned = true)
    (he : e ∈ Pool.accepted s.pool.history) :
    ∃ t fate, t.isStranger = false ∧ s.endings e = [(t, ⟨e, fate⟩)] := by
  obtain ⟨made, books⟩ := h.books
  obtain ⟨hended, hstrangers⟩ := Bool.and_eq_true_iff.mp hreturned
  rcases h.tended.found e he with hwaits | ⟨t, ht, hmem⟩
  · rw [Pool.queue_of_hasEnded h.staffed.cleared hended] at hwaits
    contradiction
  · have hfree : t ∉ s.parties := by
      intro hparty
      rw [List.all_eq_true.mp hstrangers t hparty] at ht
      contradiction
    rw [course_of_not_mem hfree] at hmem
    obtain ⟨fate, hendings⟩ := books.endings_eq hmem
    exact ⟨t, fate, ht, hendings⟩

/-- A shared chain to which references remain is as it was. -/
theorem kept_of_references (h : s.Sound w issued) {shared : Shared}
    (hs : w.heap.get? c = some shared) (hsome : s.references c ≠ 0) :
    s.heap.get? c = some ⟨s.references c, shared.chain⟩ ∧
      ∀ e ∈ shared.chain, s.endings e = [] := by
  obtain ⟨made, books⟩ := h.books
  have hcounted := books.counted c
  rcases h.settled c shared hs with ⟨shared', hs', hchain⟩ | ⟨-, hnone, -⟩
  · rw [Heap.refCount_of_get? hs'] at hcounted
    refine ⟨by rw [hs', ← hcounted, ← hchain], fun e he => endings_eq_nil ?_⟩
    exact books.not_mem_course hs' (hchain ▸ he)
  · rw [Heap.refCount_of_none hnone] at hcounted
    exact absurd hcounted.symm hsome

/-- A shared chain to which no references remain has been taken out, and one thread has come by it.
-/
theorem gone_of_references (h : s.Sound w issued) {shared : Shared}
    (hs : w.heap.get? c = some shared) (hnone : s.references c = 0) :
    s.heap.get? c = none ∧ ∃ t, shared.chain.Sublist (s.course t) := by
  obtain ⟨made, books⟩ := h.books
  have hcounted := books.counted c
  rcases h.settled c shared hs with ⟨shared', hs', -⟩ | ⟨-, hgone, hcourse⟩
  · have hpos := books.ledger.refs_pos c shared' hs'
    rw [Heap.refCount_of_get? hs'] at hcounted
    omega
  · exact ⟨hgone, hcourse⟩

end Sound

/-- What is in a shared chain has been made. -/
theorem ticket_lt {w : World} (books : w.Books [] issued) {shared : Shared}
    (hs : w.heap.get? c = some shared) (he : e ∈ shared.chain) : e.ticket < w.nextTicket := by
  have hcount := books.rest.count_add_count e
  have hpending : 0 < w.rest.pending.count e :=
    List.count_pos_iff.mpr (List.mem_append_right _ (Heap.mem_entries hs he))
  have hissued : e ∈ issued := List.count_pos_iff.mp (by omega)
  have hticket := List.mem_map_of_mem (f := Entry.ticket) hissued
  rw [books.tickets] at hticket
  exact List.mem_range.mp hticket

/-- Threads share the objects of a world that any history has led to, and hand clones of handles to
any number of workers. Whatever they do, and in whatever order, unless a failure aborts the program,
references are given up and shared chains are carried out as follows. -/
theorem handed_over_runs_once {history : List Command} {count : Nat} {capacity : Option Nat}
    {pool : Pool Entry} {moves : List Move}
    (intact : (World.steps {} history).isAborted = false)
    (created : Pool.create? count capacity = .ok pool)
    (reached : (start (World.steps {} history) pool).run moves = some s)
    (calm : s.isAborted = false) :
    -- The count of a shared chain is at any time the number of references that remain.
    (∀ c, s.heap.refCount (some c) = s.references c) ∧
    -- When the owner is done, each task has given up its reference, and has done so once.
    (s.hasReturned = true → s.pool.queue = [] ∧ ∀ e ∈ Pool.accepted s.pool.history,
      (∃ c, e.duty = .giveUp (some c)) ∧
      ∃ t fate, t.isStranger = false ∧ s.endings e = [(t, ⟨e, fate⟩)]) ∧
    (∀ c shared, (World.steps {} history).heap.get? c = some shared →
      -- While references to a chain remain, it is as it was, and nothing of it has ended.
      (s.references c ≠ 0 → s.heap.get? c = some ⟨s.references c, shared.chain⟩ ∧
        ∀ e ∈ shared.chain, s.endings e = []) ∧
      -- When none remains, one thread has come by the chain. It ends all entries, each one once and
      -- in their order, and drops none of them before an action fails. When the owner is done, it
      -- can be at it still only if it has no part in closing the pool.
      (s.references c = 0 → s.heap.get? c = none ∧ ∃ t, shared.chain.Sublist (s.course t) ∧
        (s.hasReturned = true → t ∈ s.parties → t.isStranger = true) ∧
        (t ∉ s.parties → shared.chain.Sublist (endedOn s.log t) ∧ ∀ e ∈ shared.chain,
          ∃ fate, s.endings e = [(t, ⟨e, fate⟩)] ∧ (fate = .dropped → FailedOn s.log t)))) ∧
    -- After the pool has been closed somebody can go on until the owner is done, and whoever goes
    -- on comes nearer to the end.
    (s.pool.isOpen = false → s.hasReturned = false →
      ∃ m next, m.goesOn = true ∧ s.step m = some next) ∧
    ∀ m next, m.goesOn = true → s.step m = some next → next.effort < s.effort := by
  have origin := World.books_steps history intact
  have sound := (Sound.start origin created).run reached calm
  obtain ⟨made, books⟩ := sound.books
  refine ⟨books.counted, fun hreturned => ⟨?_, fun e he => ⟨?_, ?_⟩⟩,
    fun c shared hs => ⟨fun hsome => ?_, fun hnone => ?_⟩, fun hclosed hgoing => ?_,
    fun m next hgoes hstep => ?_⟩
  · exact Pool.queue_of_hasEnded sound.staffed.cleared (Bool.and_eq_true_iff.mp hreturned).1
  · exact sound.tended.duty e he
  · exact sound.endings_of_accepted hreturned he
  · exact sound.kept_of_references hs hsome
  · obtain ⟨hgone, t, hcourse⟩ := sound.gone_of_references hs hnone
    refine ⟨hgone, t, hcourse, fun hreturned hparty => ?_, fun hfree => ?_⟩
    · exact List.all_eq_true.mp (Bool.and_eq_true_iff.mp hreturned).2 t hparty
    · rw [course_of_not_mem hfree] at hcourse
      refine ⟨hcourse, fun e he => ?_⟩
      obtain ⟨fate, hendings⟩ := books.endings_eq (hcourse.subset he)
      refine ⟨fate, hendings, ?_⟩
      rintro rfl
      have hlog : (t, ⟨e, .dropped⟩) ∈ s.endings e := hendings ▸ List.mem_singleton_self _
      refine (sound.orderly.dropped t e (List.mem_filter.mp hlog).1).resolve_left ?_
      exact Nat.not_le_of_lt (ticket_lt origin hs he)
  · exact exists_goesOn sound.staffed calm hclosed hgoing
  · exact effort_lt (hgoes ▸ (change_of_step hstep).2)

/-- Two entries. -/
def pair : Chain := [⟨0, .perform { label := "a" }⟩, ⟨1, .perform { label := "b" }⟩]

/-- A handle to a chain with these entries. -/
def lent : List Command :=
  [.createHandle "h" true, .register "h" { label := "a" }, .register "h" { label := "b" }]

/-- Clones of the handle are handed in. While two workers are at the tasks, the owner resets the
handle and closes the pool. -/
def returned : List Move :=
  [.submit 0, .submit 0, .take 0, .reset 0 0, .take 1, .rest 1, .close, .rest 2, .work 0, .rest 0,
    .work 0, .work 0, .leave 0, .work 0, .rest 0, .leave 1]

/-- The worker that gives up the last reference carries the chain out. -/
theorem handed_over_runs_once_returned : ∃ pool s,
    (World.steps {} lent).heap.get? 0 = some ⟨1, pair⟩ ∧ Pool.create? 2 none = .ok pool ∧
      (start (World.steps {} lent) pool).run returned = some s ∧ s.hasReturned = true ∧
      (Pool.accepted s.pool.history).length = 2 ∧ s.heap.refCount (some 0) = 0 ∧
      ∃ t, ∀ e ∈ pair, s.endings e = [(t, ⟨e, .ran⟩)] := by
  have hchain : (World.steps {} lent).heap.get? 0 = some ⟨1, pair⟩ := by decide +kernel
  have hfinal : ((start (World.steps {} lent) { workers := [.idle, .idle] }).run returned).map
      (fun s => (s.isAborted, s.hasReturned, (Pool.accepted s.pool.history).length,
        s.references 0, s.parties.isEmpty, s.log.all fun x => decide (x.2.fate = .ran))) =
      some (false, true, 2, 0, true, true) := by
    decide +kernel
  obtain ⟨s, hrun, hs⟩ := Option.map_eq_some_iff.mp hfinal
  simp only [Prod.mk.injEq, List.isEmpty_iff, List.all_eq_true, decide_eq_true_eq] at hs
  obtain ⟨calm, hreturned, htasks, hnone, hparties, hfates⟩ := hs
  obtain ⟨hcounted, -, hchains, -⟩ :=
    @handed_over_runs_once s lent 2 none _ returned (by decide +kernel) rfl hrun calm
  obtain ⟨-, t, -, -, hends⟩ := (hchains 0 _ hchain).2 hnone
  refine ⟨_, s, hchain, rfl, hrun, hreturned, htasks, (hcounted 0).trans hnone, t, fun e he => ?_⟩
  obtain ⟨fate, hendings, -⟩ := (hends (by simp [hparties])).2 e he
  have hlog : (t, ⟨e, fate⟩) ∈ s.endings e := hendings ▸ List.mem_singleton_self _
  have hfate : fate = .ran := hfates _ (List.mem_filter.mp hlog).1
  rw [hendings, hfate]

end Handoff

end Lifespan.Cleanup
