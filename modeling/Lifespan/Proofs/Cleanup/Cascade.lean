import Lifespan.Proofs.Cleanup.Ledger

/-!
# What a cascade keeps

Each step of a cascade ends the entry whose turn it is, and what that entry owned is given up in the
same step. So the ledger of a cascade is right at every step, until a second action fails and the
program is aborted. Entries are only dropped after an action has failed.

## Main definitions

* `Cascade.Ending`: what one step can do.
* `Cascade.Books`: the ledger of a cascade.
* `Cascade.Orderly`: entries are not dropped without a reason.

## Main results

* `Cascade.settle_induction`: what each step keeps, a whole cascade keeps.
* `Cascade.Books.step`, `Cascade.Orderly.step`: one step.
-/
namespace Lifespan.Cleanup

/-- Whether an event is the failure of an action. -/
def Event.Failed (ev : Event) : Prop :=
  ev.fate = .ran ∧ ∃ a : Action, ev.entry.duty = .perform a ∧ a.fails = true

namespace Cascade

variable {m m' : Cascade} {outer : List Object} {ended issued : List Entry}

/-! ## Steps -/

/-- What the step of a cascade can do. -/
inductive Ending (m : Cascade) : Cascade → Prop where
  | idle : m.due = [] → Ending m m
  | performed {fate : Fate} {e : Entry} {rest : List (Fate × Entry)} {a : Action} :
    m.due = (fate, e) :: rest → e.duty = .perform a → (fate = .ran → a.fails = false) →
      Ending m { m with due := rest, events := m.events ++ [⟨e, fate⟩] }
  /-- An action is the first to fail, and all other entries that are due are to be dropped. -/
  | failed {e : Entry} {rest : List (Fate × Entry)} {a : Action} :
    m.due = (.ran, e) :: rest → e.duty = .perform a → a.fails = true → m.failure = none →
      Ending m { m with
        due := rest.map fun d => (.dropped, d.2)
        events := m.events ++ [⟨e, .ran⟩]
        failure := some a.label }
  | aborted {e : Entry} {rest : List (Fate × Entry)} {a : Action} {label : String} :
    m.due = (.ran, e) :: rest → e.duty = .perform a → a.fails = true → m.failure = some label →
      Ending m { m with due := [], events := m.events ++ [⟨e, .ran⟩], isAborted := true }
  /-- A reference is given up, and the entries that this takes out of the heap are due next. -/
  | gaveUp {fate : Fate} {e : Entry} {rest : List (Fate × Entry)} {h : Handle} :
    m.due = (fate, e) :: rest → e.duty = .giveUp h →
      Ending m { m with
        heap := (m.heap.release h).2
        due := (m.heap.release h).1.map (.ran, ·) ++ rest
        events := m.events ++ [⟨e, fate⟩] }

theorem step_ending (m : Cascade) : m.Ending m.step := by
  unfold step
  split
  · next hdue => exact .idle hdue
  · next fate e rest hdue =>
    dsimp only
    split
    · next a hduty =>
      by_cases hfails : a.fails = true
      · rw [if_pos hfails]
        cases hfailure : m.failure with
        | none =>
            simp only [fail]
            exact .failed hdue hduty hfails hfailure
        | some label =>
            simp only [fail]
            have h := Ending.aborted hdue hduty hfails hfailure
            rw [hfailure] at h
            exact h
      · rw [if_neg hfails]
        exact .performed hdue hduty fun _ => Bool.eq_false_iff.mpr hfails
    · next a hduty => exact .performed hdue hduty fun h => Fate.noConfusion h
    · next h hduty => exact .gaveUp hdue hduty

/-- What each step keeps, a whole cascade keeps, and then no entry is due any more. -/
theorem settle_induction {P : Cascade → Prop} (hstep : ∀ m, P m → P m.step) (m : Cascade)
    (h : P m) : P m.settle ∧ m.settle.due = [] := by
  induction m using settle.induct with
  | case1 m hdue =>
      rw [settle, dif_pos hdue]
      exact ⟨h, hdue⟩
  | case2 m hdue ih =>
      rw [settle, dif_neg hdue]
      exact ih (hstep m h)

theorem due_settle (m : Cascade) : m.settle.due = [] :=
  (settle_induction (P := fun _ => True) (fun _ _ => trivial) m trivial).2

theorem settle_of_idle (h : m.due = []) : m.settle = m := by
  rw [settle, dif_pos h]

theorem settle_step (m : Cascade) : m.step.settle = m.settle := by
  by_cases hdue : m.due = []
  · rw [step, hdue]
  · rw [settle.eq_def m, dif_neg hdue]

/-- A program that has been aborted stays so. -/
theorem isAborted_of_step (h : m.step.isAborted = false) : m.isAborted = false := by
  have hending := m.step_ending
  generalize m.step = m' at h hending
  cases hending with
  | aborted => contradiction
  | idle | performed | failed | gaveUp => exact h

/-- A step changes the heap just by giving up a reference. -/
theorem releases_step (m : Cascade) : m.heap.Releases m.step.heap := by
  have hending := m.step_ending
  generalize m.step = m' at hending
  cases hending with
  | gaveUp => exact .single _ _
  | idle | performed | failed | aborted => exact .refl

theorem releases_settle (m : Cascade) : m.heap.Releases m.settle.heap :=
  (settle_induction (P := fun m' => m.heap.Releases m'.heap)
    (fun m' h => h.trans m'.releases_step) m .refl).1

/-! ## The ledger -/

/-- The entries that are due, without their fates. -/
def dueEntries (m : Cascade) : Chain := m.due.map Prod.snd

/-- The ledger of a cascade: outside the heap there are the entries that are due and other objects.
Some entries had ended before. -/
def Books (m : Cascade) (outer : List Object) (ended issued : List Entry) : Prop :=
  Ledger m.heap (.chain m.dueEntries :: outer) (ended ++ m.events.map Event.entry) issued

theorem dueEntries_cons {fate : Fate} {e : Entry} {rest : List (Fate × Entry)}
    (hdue : m.due = (fate, e) :: rest) : m.dueEntries = e :: rest.map Prod.snd := by
  rw [dueEntries, hdue, List.map_cons]

theorem dueEntries_start (heap : Heap) (chain : Chain) : (start heap chain).dueEntries = chain := by
  rw [dueEntries, start, List.map_map]
  exact List.map_id chain

/-- The books of a cascade that begins. -/
theorem books_start {heap : Heap} {chain : Chain}
    (l : Ledger heap (.chain chain :: outer) ended issued) :
    (start heap chain).Books outer ended issued := by
  rw [Books, dueEntries_start]
  simpa only [start, List.map_nil, List.append_nil] using l

/-- Each step keeps the ledger right, unless it aborts the program. -/
theorem Books.step (books : m.Books outer ended issued) (h : m.step.isAborted = false) :
    m.step.Books outer ended issued := by
  have hending := m.step_ending
  generalize m.step = m' at h hending
  cases hending with
  | idle => exact books
  | performed hdue hduty _ =>
      rw [Books, dueEntries_cons hdue] at books
      have l := books.finish
      rw [hduty, Duty.stake, Ledger.empty_cons_iff, List.append_assoc] at l
      simpa [Books, dueEntries] using l
  | failed hdue hduty _ _ =>
      rw [Books, dueEntries_cons hdue] at books
      have l := books.finish
      rw [hduty, Duty.stake, Ledger.empty_cons_iff, List.append_assoc] at l
      simpa [Books, dueEntries, Function.comp_def] using l
  | aborted => contradiction
  | gaveUp hdue hduty =>
      rw [Books, dueEntries_cons hdue] at books
      have l := books.finish
      rw [hduty, Duty.stake, List.append_assoc] at l
      have l := Ledger.append_cons_iff.mpr l.release
      simpa [Books, dueEntries, Function.comp_def] using l

theorem Books.settle (books : m.Books outer ended issued) (h : m.settle.isAborted = false) :
    m.settle.Books outer ended issued :=
  (settle_induction (P := fun m => m.isAborted = false → m.Books outer ended issued)
    (fun _ hm h => (hm (isAborted_of_step h)).step h) m fun _ => books).1 h

/-! ## Reasons to drop an entry -/

/-- No entry is dropped without an action having failed before. -/
structure Orderly (m : Cascade) : Prop where
  unfailed : m.failure = none → ∀ d ∈ m.due, d.1 = .ran
  failed : m.failure ≠ none → ∃ ev ∈ m.events, ev.Failed
  dropped : ∀ (i : Nat) (e : Entry), m.events[i]? = some ⟨e, .dropped⟩ →
    ∃ j < i, ∃ ev, m.events[j]? = some ev ∧ ev.Failed

theorem orderly_start (heap : Heap) (chain : Chain) : (start heap chain).Orderly where
  unfailed _ d hd := by
    obtain ⟨e, _, rfl⟩ := List.mem_map.mp hd
    rfl
  failed h := absurd rfl h
  dropped i e h := by simp [start] at h

/-- One more event that is not without reason. -/
theorem Orderly.dropped_append (orderly : m.Orderly) {ev : Event}
    (h : ev.fate = .dropped → m.failure ≠ none) (i : Nat) (e : Entry)
    (hi : (m.events ++ [ev])[i]? = some ⟨e, .dropped⟩) :
    ∃ j < i, ∃ f, (m.events ++ [ev])[j]? = some f ∧ f.Failed := by
  rcases Nat.lt_trichotomy i m.events.length with hlt | heq | hgt
  · rw [List.getElem?_append_left hlt] at hi
    obtain ⟨j, hj, f, hf, hfailed⟩ := orderly.dropped i e hi
    exact ⟨j, hj, f, by rwa [List.getElem?_append_left (Nat.lt_trans hj hlt)], hfailed⟩
  · rw [heq, List.getElem?_concat_length] at hi
    cases hi
    obtain ⟨f, hf, hfailed⟩ := orderly.failed (h rfl)
    obtain ⟨j, hj, rfl⟩ := List.getElem_of_mem hf
    refine ⟨j, heq ▸ hj, _, ?_, hfailed⟩
    rw [List.getElem?_append_left hj, List.getElem?_eq_getElem hj]
  · rw [List.getElem?_eq_none (by simp; omega)] at hi
    contradiction

theorem Orderly.step (orderly : m.Orderly) : m.step.Orderly := by
  have hending := m.step_ending
  generalize m.step = m' at hending
  cases hending with
  | idle => exact orderly
  | performed hdue _ _ =>
      refine ⟨fun h d hd => orderly.unfailed h d (hdue ▸ List.mem_cons_of_mem _ hd), fun h => ?_,
        orderly.dropped_append fun hfate hnone => ?_⟩
      · obtain ⟨ev, hev, hfailed⟩ := orderly.failed h
        exact ⟨ev, List.mem_append_left _ hev, hfailed⟩
      · have := orderly.unfailed hnone _ (hdue ▸ List.mem_cons_self)
        exact absurd (this.symm.trans hfate) Fate.noConfusion
  | failed _ hduty hfails _ =>
      refine ⟨fun h => ?_, fun _ => ?_, orderly.dropped_append fun h => Fate.noConfusion h⟩
      · contradiction
      · exact ⟨_, List.mem_append_right _ (List.mem_singleton_self _), rfl, _, hduty, hfails⟩
  | aborted _ hduty hfails _ =>
      refine ⟨fun _ d hd => ?_, fun _ => ?_, orderly.dropped_append fun h => Fate.noConfusion h⟩
      · exact absurd hd List.not_mem_nil
      · exact ⟨_, List.mem_append_right _ (List.mem_singleton_self _), rfl, _, hduty, hfails⟩
  | gaveUp hdue _ =>
      refine ⟨fun h d hd => ?_, fun h => ?_, orderly.dropped_append fun hfate hnone => ?_⟩
      · rcases List.mem_append.mp hd with hd | hd
        · obtain ⟨e, _, rfl⟩ := List.mem_map.mp hd
          rfl
        · exact orderly.unfailed h d (hdue ▸ List.mem_cons_of_mem _ hd)
      · obtain ⟨ev, hev, hfailed⟩ := orderly.failed h
        exact ⟨ev, List.mem_append_left _ hev, hfailed⟩
      · have := orderly.unfailed hnone _ (hdue ▸ List.mem_cons_self)
        exact absurd (this.symm.trans hfate) Fate.noConfusion

theorem Orderly.settle (orderly : m.Orderly) : m.settle.Orderly :=
  (settle_induction (fun _ h => h.step) m orderly).1

end Cascade

end Lifespan.Cleanup
