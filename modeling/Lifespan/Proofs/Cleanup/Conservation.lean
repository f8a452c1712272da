import Lifespan.Proofs.Cleanup.Books
import Mathlib.Data.List.Nodup

/-!
# Entries are conserved

Every entry that is ever made is pending at one position of one chain, or has been carried out once,
or has been dropped once. An entry is dropped only when no chain takes it, or after an action has
failed in the course of the same command.
-/
namespace Lifespan.Cleanup

/-- What is in a list of lists without duplicates is at one position. -/
theorem existsUnique_position {α : Type} {l : List (List α)} {x : α} (hn : l.flatten.Nodup)
    (hx : x ∈ l.flatten) : ∃! pos : Nat × Nat, l[pos.1]?.bind (·[pos.2]?) = some x := by
  obtain ⟨heach, hapart⟩ := List.nodup_flatten.mp hn
  obtain ⟨a, ha, hxa⟩ := List.mem_flatten.mp hx
  obtain ⟨i, hi⟩ := List.mem_iff_getElem?.mp ha
  obtain ⟨j, hj⟩ := List.mem_iff_getElem?.mp hxa
  refine ⟨(i, j), Option.bind_eq_some_iff.mpr ⟨a, hi, hj⟩, ?_⟩
  rintro ⟨i', j'⟩ hpos
  obtain ⟨b, hi', hj'⟩ := Option.bind_eq_some_iff.mp hpos
  have hii : i' = i := by
    by_contra hne
    have hpairs := List.pairwise_iff_getElem.mp hapart
    obtain ⟨hlt, rfl⟩ := List.getElem?_eq_some_iff.mp hi
    obtain ⟨hlt', rfl⟩ := List.getElem?_eq_some_iff.mp hi'
    have hxb := List.mem_of_getElem? hj'
    rcases Nat.lt_or_gt_of_ne hne with h | h
    · exact hpairs i' i hlt' hlt h hxb hxa
    · exact hpairs i i' hlt hlt' h hxa hxb
  subst hii
  rw [hi] at hi'
  cases hi'
  obtain ⟨hlt, _⟩ := List.getElem?_eq_some_iff.mp hj'
  have hjj : j' = j := (List.getElem?_inj hlt (heach a ha)).mp (hj'.trans hj.symm)
  rw [hjj]

namespace World

variable {w w' w'' : World} {hand hand' : List Object} {issued : List Entry} {e : Entry}
  {made more : List Registration} {launched : List Moment}

/-! ## Positions -/

/-- All chains: those of the objects themselves, and the shared ones. -/
def chains (w : World) : List Chain := w.held.map Object.own ++ w.heap.cells.map Heap.cellChain

/-- The entry at a position of a chain. -/
def entryAt? (w : World) (pos : Nat × Nat) : Option Entry := w.chains[pos.1]?.bind (·[pos.2]?)

theorem flatten_chains (w : World) : w.chains.flatten = w.pending := by
  rw [chains, pending, List.flatten_append]
  rfl

theorem entryAt?_ne (h : e ∉ w.pending) (pos : Nat × Nat) : w.entryAt? pos ≠ some e := by
  intro hpos
  obtain ⟨chain, hchain, he⟩ := Option.bind_eq_some_iff.mp hpos
  rw [← flatten_chains] at h
  exact h (List.mem_flatten.mpr ⟨chain, List.mem_of_getElem? hchain, List.mem_of_getElem? he⟩)

/-! ## Counting -/

/-- An entry ends by being carried out or by being dropped. -/
theorem count_map_entry (log : Log) (e : Entry) :
    (log.map Event.entry).count e = log.count ⟨e, .ran⟩ + log.count ⟨e, .dropped⟩ := by
  induction log with
  | nil => rfl
  | cons ev rest ih =>
      obtain ⟨f, fate⟩ := ev
      by_cases hf : f = e
      · cases fate <;> simp [ih, hf] <;> omega
      · simp [ih, hf]

namespace Books

variable (b : w.Books [] issued)
include b

/-- An entry that has been made is pending once, or has ended once. -/
theorem count_add_count (e : Entry) :
    w.pending.count e + (w.log.count ⟨e, .ran⟩ + w.log.count ⟨e, .dropped⟩) = issued.count e := by
  have h := b.ledger.entries (· == e)
  rw [← count_map_entry, pending, List.count_append]
  exact h

theorem map_ticket : issued.map Entry.ticket = List.range issued.length := by
  have hlength := congrArg List.length b.tickets
  rw [List.length_map, List.length_range] at hlength
  rw [hlength]
  exact b.tickets

/-- What is pending or has ended was made. -/
theorem mem_issued (h : (∃ pos, w.entryAt? pos = some e) ∨ e ∈ w.log.map Event.entry) :
    e ∈ issued := by
  have hcount := b.count_add_count e
  rw [← count_map_entry] at hcount
  have hissued : 0 < issued.count e := by
    rcases h with ⟨pos, hpos⟩ | hlog
    · have hpending : e ∈ w.pending := by
        by_contra hno
        exact entryAt?_ne hno pos hpos
      have := List.count_pos_iff.mpr hpending
      omega
    · have := List.count_pos_iff.mpr hlog
      omega
  exact List.count_pos_iff.mp hissued

theorem nodup_pending : w.pending.Nodup := by
  rw [List.nodup_iff_count_le_one]
  intro e
  have hissued := List.nodup_iff_count_le_one.mp b.nodup_issued e
  have := b.count_add_count e
  omega

/-- What is pending is at one position. -/
theorem existsUnique_entryAt? (h : e ∈ w.pending) :
    ∃! pos : Nat × Nat, w.entryAt? pos = some e := by
  have hn := b.nodup_pending
  rw [← flatten_chains] at hn h
  exact existsUnique_position hn h

/-- Exactly one of the three conditions of an entry that has been made. -/
theorem conditions (h : e ∈ issued) :
    (∃! pos : Nat × Nat, w.entryAt? pos = some e) ∧
        w.log.count ⟨e, .ran⟩ = 0 ∧ w.log.count ⟨e, .dropped⟩ = 0 ∨
      (∀ pos, w.entryAt? pos ≠ some e) ∧
        w.log.count ⟨e, .ran⟩ = 1 ∧ w.log.count ⟨e, .dropped⟩ = 0 ∨
      (∀ pos, w.entryAt? pos ≠ some e) ∧
        w.log.count ⟨e, .ran⟩ = 0 ∧ w.log.count ⟨e, .dropped⟩ = 1 := by
  have hcount := b.count_add_count e
  rw [List.count_eq_one_of_mem b.nodup_issued h] at hcount
  by_cases hpending : e ∈ w.pending
  · have hpos := List.count_pos_iff.mpr hpending
    exact Or.inl ⟨b.existsUnique_entryAt? hpending, by omega, by omega⟩
  · have hzero := List.count_eq_zero.mpr hpending
    have hnone := entryAt?_ne hpending
    rcases Nat.eq_zero_or_pos (w.log.count ⟨e, .ran⟩) with hran | hran
    · exact Or.inr (Or.inr ⟨hnone, hran, by omega⟩)
    · exact Or.inr (Or.inl ⟨hnone, by omega, by omega⟩)

end Books

/-! ## Dropping -/

/-- Every entry that is dropped on the way from one world to another was turned down, or an action
had failed on that way. -/
def Drops (w w' : World) (made : List Registration) : Prop :=
  ∀ (i : Nat) (e : Entry), w.log.length ≤ i → w'.log[i]? = some ⟨e, .dropped⟩ →
    ⟨e, false⟩ ∈ made ∨
      ∃ j ev, w.log.length ≤ j ∧ j < i ∧ w'.log[j]? = some ev ∧ ev.Failed

theorem drops_of_log_eq (h : w'.log = w.log) (made : List Registration) : w.Drops w' made := by
  intro i e hi he
  rw [h, List.getElem?_eq_none hi] at he
  contradiction

theorem drops_giveUp (w : World) (o : Object) (made : List Registration) :
    w.Drops (w.giveUp o).2 made := by
  intro i e hi he
  have horderly : (w.launch [] o).finish.Orderly := (Cascade.orderly_begin w.heap o).settle
  have hlog : (w.giveUp o).2.log = w.log ++ (w.launch [] o).finish.events := by
    rw [w.giveUp_eq [] o]
  rw [hlog, List.getElem?_append_right hi] at he
  obtain ⟨j, hj, ev, hev, hfailed⟩ := horderly.dropped _ e he
  refine Or.inr ⟨w.log.length + j, ev, by omega, by omega, ?_, hfailed⟩
  rw [hlog, List.getElem?_append_right (by omega), Nat.add_sub_cancel_left]
  exact hev

theorem drops_of_move (h : Move w hand made launched w' hand') : w.Drops w' made := by
  cases h with
  | regroup | insert | take | exchange | adjust | pin | allocate | retain =>
      exact drops_of_log_eq rfl _
  | enter duty => exact drops_of_log_eq (log_setTarget (w.issue duty).2 _ _) _
  | delegate => exact drops_of_log_eq ((log_setTarget _ _ _).trans (log_setTarget _ _ _)) _
  | vacate => exact drops_of_log_eq (log_setTarget _ _ _) _
  | pinFrom => exact drops_of_log_eq (log_setTarget (w.put _ _) _ _) _
  | refuse a =>
      intro i e hi he
      have hlog : ((w.issue (.perform a)).2.discard ⟨w.nextTicket, .perform a⟩).log =
          w.log ++ [⟨⟨w.nextTicket, .perform a⟩, .dropped⟩] := rfl
      rw [hlog, List.getElem?_append_right hi, List.getElem?_singleton] at he
      split at he
      · cases he
        exact Or.inl (List.mem_singleton_self _)
      · contradiction
  | giveUp o => exact w.drops_giveUp o _

theorem getElem?_log_of_before {i : Nat} {ev : Event} (h : w.Before w')
    (hi : w.log[i]? = some ev) : w'.log[i]? = some ev := by
  obtain ⟨more, hlog⟩ := h.log
  have hlt := (List.getElem?_eq_some_iff.mp hi).1
  rw [← hlog, List.getElem?_append_left hlt]
  exact hi

theorem Drops.append (h : w.Drops w' made) (h' : w'.Drops w'' more) (hbefore : w.Before w')
    (hbefore' : w'.Before w'') : w.Drops w'' (made ++ more) := by
  intro i e hi he
  have hle := hbefore.log.length_le
  rcases Nat.lt_or_ge i w'.log.length with hlt | hge
  · have he' : w'.log[i]? = some ⟨e, .dropped⟩ := by
      rw [List.getElem?_eq_getElem hlt, ← getElem?_log_of_before hbefore'
        (List.getElem?_eq_getElem hlt), he]
    rcases h i e hi he' with hmem | ⟨j, ev, hj, hji, hev, hfailed⟩
    · exact Or.inl (List.mem_append_left _ hmem)
    · exact Or.inr ⟨j, ev, hj, hji, getElem?_log_of_before hbefore' hev, hfailed⟩
  · rcases h' i e hge he with hmem | ⟨j, ev, hj, hrest⟩
    · exact Or.inl (List.mem_append_right _ hmem)
    · exact Or.inr ⟨j, ev, Nat.le_trans hle hj, hrest⟩

theorem drops_of_moves (h : Moves w hand made launched w' hand') : w.Drops w' made := by
  induction h with
  | nil => exact drops_of_log_eq rfl _
  | cons hmove hmoves ih => exact (drops_of_move hmove).append ih hmove.before hmoves.before

/-- An entry that no chain takes is dropped at once. -/
theorem mem_log_of_refused {r : Registration} (h : Moves w hand made launched w' hand')
    (hr : r ∈ made) (hrefused : r.isAccepted = false) : ⟨r.entry, .dropped⟩ ∈ w'.log := by
  induction h with
  | nil => contradiction
  | cons hmove hmoves ih =>
      rcases List.mem_append.mp hr with hr | hr
      · refine hmoves.before.log.subset ?_
        cases hmove with
        | regroup | insert | take | exchange | adjust | delegate | vacate | pinFrom | allocate
        | retain | giveUp => contradiction
        | enter | pin =>
            rw [List.mem_singleton.mp hr] at hrefused
            contradiction
        | refuse a =>
            rw [List.mem_singleton.mp hr]
            exact List.mem_append_right _ (List.mem_singleton_self _)
      · exact ih hr

/-- While a command is carried out an action fails, and after that an entry is dropped. -/
def DropsAfterFailure (w : World) (c : Command) (e : Entry) : Prop :=
  ∃ i j ev, w.log.length ≤ j ∧ j < i ∧ (w.step c).2.log[j]? = some ev ∧ ev.Failed ∧
    (w.step c).2.log[i]? = some ⟨e, .dropped⟩

/-! ## Histories -/

theorem mem_log_of_refused_steps {r : Registration} (history : List Command)
    (hr : r ∈ w.registrations history) (hrefused : r.isAccepted = false) :
    ⟨r.entry, .dropped⟩ ∈ (w.steps history).log := by
  induction history generalizing w with
  | nil => contradiction
  | cons c rest ih =>
      rcases List.mem_append.mp hr with hr | hr
      · exact (before_steps _ rest).log.subset (mem_log_of_refused (w.moves_step c) hr hrefused)
      · exact ih hr

/-- Why an entry has been dropped in the course of a history. -/
theorem dropped_cases (w : World) (history : List Command)
    (h : ⟨e, .dropped⟩ ∈ (w.steps history).log) :
    ⟨e, .dropped⟩ ∈ w.log ∨ ⟨e, false⟩ ∈ w.registrations history ∨
      ∃ before c after, history = before ++ c :: after ∧
        (w.steps before).DropsAfterFailure c e := by
  induction history generalizing w with
  | nil => exact Or.inl h
  | cons c rest ih =>
      rcases ih (w.step c).2 h with hlog | hmade | ⟨before, c', after, rfl, hdrops⟩
      · obtain ⟨i, hi⟩ := List.mem_iff_getElem?.mp hlog
        rcases Nat.lt_or_ge i w.log.length with hlt | hge
        · have hold := getElem?_log_of_before (w.before_step c) (List.getElem?_eq_getElem hlt)
          rw [hi] at hold
          exact Or.inl (Option.some.inj hold ▸ List.getElem_mem hlt)
        · rcases drops_of_moves (w.moves_step c) i e hge hi with hmade | ⟨j, ev, hj, hji, hev, hf⟩
          · exact Or.inr (Or.inl (List.mem_append_left _ hmade))
          · exact Or.inr (Or.inr ⟨[], c, rest, rfl, i, j, ev, hj, hji, hev, hf, hi⟩)
      · exact Or.inr (Or.inl (List.mem_append_right _ hmade))
      · exact Or.inr (Or.inr ⟨c :: before, c', after, rfl, hdrops⟩)

/-- An entry that has been dropped was turned down, or an action had failed. -/
theorem refused_or_dropsAfterFailure {history : List Command} {r : Registration}
    (hab : (steps {} history).isAborted = false) (hr : r ∈ registrations {} history)
    (h : ⟨r.entry, .dropped⟩ ∈ (steps {} history).log) :
    r.isAccepted = false ∨ ∃ before c after, history = before ++ c :: after ∧
      (steps {} before).DropsAfterFailure c r.entry := by
  rcases dropped_cases {} history h with hnil | hmade | hdrops
  · contradiction
  · -- The ticket tells which entry it was.
    have hsame := List.inj_on_of_nodup_map (books_steps history hab).nodup_issued hr hmade rfl
    exact Or.inl (congrArg Registration.isAccepted hsame)
  · exact Or.inr hdrops

/-- What has failed in the course of a command stays in the log. -/
theorem DropsAfterFailure.exists_failed {before : List Command} {c : Command}
    (h : (steps {} before).DropsAfterFailure c e) (after : List Command) :
    ∃ ev ∈ (steps {} (before ++ c :: after)).log, ev.Failed := by
  obtain ⟨i, j, ev, _, _, hev, hfailed, _⟩ := h
  refine ⟨ev, ?_, hfailed⟩
  rw [steps_append]
  exact (before_steps _ after).log.subset (List.mem_of_getElem? hev)

/-- After every history in which no action fails while the failure of another is being handled, all
entries that have been made bear different tickets, and each is pending at exactly one position of
exactly one chain, or has been carried out exactly once, or has been dropped exactly once, and
nothing else is pending or has ended. An entry that no chain took has been dropped; any other entry
that has been dropped was so after an action had failed, in the course of the same command. If no
action fails, every entry that was taken is pending or has been carried out once. -/
theorem registered_once (history : List Command) (hab : (steps {} history).isAborted = false) :
    let w := steps {} history
    let made := registrations {} history
    made.map (·.entry.ticket) = List.range made.length ∧
    (∀ r ∈ made,
      (∃! pos : Nat × Nat, w.entryAt? pos = some r.entry) ∧
          w.log.count ⟨r.entry, .ran⟩ = 0 ∧ w.log.count ⟨r.entry, .dropped⟩ = 0 ∨
        (∀ pos, w.entryAt? pos ≠ some r.entry) ∧
          w.log.count ⟨r.entry, .ran⟩ = 1 ∧ w.log.count ⟨r.entry, .dropped⟩ = 0 ∨
        (∀ pos, w.entryAt? pos ≠ some r.entry) ∧
          w.log.count ⟨r.entry, .ran⟩ = 0 ∧ w.log.count ⟨r.entry, .dropped⟩ = 1) ∧
    (∀ e, (∃ pos, w.entryAt? pos = some e) ∨ e ∈ w.log.map Event.entry →
      ∃ r ∈ made, r.entry = e) ∧
    (∀ r ∈ made, r.isAccepted = false → ⟨r.entry, .dropped⟩ ∈ w.log) ∧
    (∀ r ∈ made, ⟨r.entry, .dropped⟩ ∈ w.log → r.isAccepted = false ∨
      ∃ before c after, history = before ++ c :: after ∧
        (steps {} before).DropsAfterFailure c r.entry) ∧
    ((∀ ev ∈ w.log, ¬ ev.Failed) → ∀ r ∈ made, r.isAccepted = true →
      (∃! pos : Nat × Nat, w.entryAt? pos = some r.entry) ∨ w.log.count ⟨r.entry, .ran⟩ = 1) := by
  intro w made
  have books : w.Books [] (made.map Registration.entry) := books_steps history hab
  refine ⟨?_, ?_, ?_, ?_, ?_, ?_⟩
  · have htickets := books.map_ticket
    rw [List.map_map, List.length_map] at htickets
    exact htickets
  · intro r hr
    exact books.conditions (List.mem_map_of_mem hr)
  · intro e he
    exact List.mem_map.mp (books.mem_issued he)
  · intro r hr hrefused
    exact mem_log_of_refused_steps history hr hrefused
  · intro r hr hlog
    exact refused_or_dropsAfterFailure hab hr hlog
  · intro hcalm r hr haccepted
    rcases books.conditions (List.mem_map_of_mem hr) with ⟨hpos, _⟩ | ⟨_, hran, _⟩ | ⟨_, _, hdrop⟩
    · exact Or.inl hpos
    · exact Or.inr hran
    · exfalso
      have hlog : ⟨r.entry, .dropped⟩ ∈ w.log := List.count_pos_iff.mp (by omega)
      rcases refused_or_dropsAfterFailure hab hr hlog with
        hrefused | ⟨before, c, after, rfl, hdrops⟩
      · rw [hrefused] at haccepted
        contradiction
      · obtain ⟨ev, hev, hfailed⟩ := hdrops.exists_failed after
        exact hcalm ev hev hfailed

/-- A history in which a handle is shared, an action fails, and an object is part of an entry. -/
theorem registered_once_panicking :
    let history : List Command := [.createHandle "h" true, .share "h" "g",
      .register "h" { label := "refused" }, .createChain "a", .register "a" { label := "ran" },
      .register "a" { label := "failed", fails := true }, .register "a" { label := "dropped" },
      .reset "a", .createChain "b", .register "b" { label := "kept" }, .nest "b" "a"]
    let w := steps {} history
    let made := registrations {} history
    w.isAborted = false ∧ w.log.texts = ["!refused", "ran", "failed", "!dropped"] ∧
      made.map Registration.isAccepted = [false, true, true, true, true, true] ∧
      ∀ r ∈ made,
        (∃! pos : Nat × Nat, w.entryAt? pos = some r.entry) ∧
            w.log.count ⟨r.entry, .ran⟩ = 0 ∧ w.log.count ⟨r.entry, .dropped⟩ = 0 ∨
          (∀ pos, w.entryAt? pos ≠ some r.entry) ∧
            w.log.count ⟨r.entry, .ran⟩ = 1 ∧ w.log.count ⟨r.entry, .dropped⟩ = 0 ∨
          (∀ pos, w.entryAt? pos ≠ some r.entry) ∧
            w.log.count ⟨r.entry, .ran⟩ = 0 ∧ w.log.count ⟨r.entry, .dropped⟩ = 1 := by
  intro history w made
  have hab : w.isAborted = false := by
    simp only [w, history]
    decide +kernel
  have htexts : w.log.texts = ["!refused", "ran", "failed", "!dropped"] := by
    simp only [w, history]
    decide +kernel
  have htaken : made.map Registration.isAccepted = [false, true, true, true, true, true] := by
    simp only [made, history]
    decide +kernel
  obtain ⟨_, hthree, _⟩ := registered_once history hab
  exact ⟨hab, htexts, htaken, hthree⟩

end World

end Lifespan.Cleanup
