import Lifespan.Proofs.Cleanup.Books

/-!
# References are counted right

At every moment of every history, also while a cascade is under way, the count of a shared chain is
the number of handles and pending entries that own a reference to it. The moment at which the last
of them is given up is the only one at which the entries of the chain fall due.

## Main definitions

* `Moment.Books`: the ledger of a moment.
* `Moment.Reached`: the moments of histories.

## Main results

* `Moment.Books.next`: what comes next keeps the ledger right.
* `World.leaves_of_moves`: chains leave the heap just in the course of cascades.
* `Moment.references_counted`: the counts, and what follows from them.
-/
namespace Lifespan.Cleanup

variable {w w' : World} {m : Moment} {o : Object} {hand hand' lent : List Object}
  {issued : List Entry} {made : List Registration} {launches : List Moment} {c : CellId}

/-! ## The ledger -/

/-- The books of a moment, after some entries have been made. -/
structure Moment.Books (m : Moment) (issued : List Entry) : Prop where
  fresh : m.hand ≠ none → m.cascade.due = [] ∧ m.cascade.events = []
  ledger : Ledger m.cascade.heap (.chain m.cascade.dueEntries :: m.allObjects)
    (m.ended.map Event.entry) issued

theorem World.Books.rest (b : w.Books [] issued) : w.rest.Books issued where
  fresh h := absurd rfl h
  ledger := by
    have l := Ledger.empty_cons_iff.mpr b.ledger
    rw [← List.append_nil w.log] at l
    exact l

theorem World.Books.launch (b : w.Books (o :: lent) issued) : (w.launch lent o).Books issued where
  fresh _ := ⟨rfl, rfl⟩
  ledger := by
    have l := Ledger.empty_cons_iff.mpr b.ledger
    rw [← List.append_nil w.log] at l
    exact l

namespace Moment

/-- With nothing in hand, the books are those of the cascade. -/
theorem books_iff (h : m.hand = none) :
    m.Books issued ↔ m.cascade.Books m.objects (m.log.map Event.entry) issued := by
  have hall : m.allObjects = m.objects := by rw [allObjects, h, Option.toList_none, List.nil_append]
  have hledger : m.cascade.Books m.objects (m.log.map Event.entry) issued ↔
      Ledger m.cascade.heap (.chain m.cascade.dueEntries :: m.allObjects) (m.ended.map Event.entry)
        issued := by
    rw [Cascade.Books, ← List.map_append, hall, ended]
  exact ⟨fun b => hledger.mpr b.ledger, fun b => ⟨fun hne => absurd h hne, hledger.mp b⟩⟩

/-- What comes next keeps the ledger right, unless it aborts the program. -/
theorem Books.next (b : m.Books issued) (hab : m.next.cascade.isAborted = false) :
    m.next.Books issued := by
  cases hhand : m.hand with
  | some o =>
      obtain ⟨hdue, hevents⟩ := b.fresh (by rw [hhand]; exact Option.some_ne_none o)
      have l := b.ledger
      rw [Cascade.dueEntries, hdue, List.map_nil, Ledger.empty_cons_iff, allObjects, hhand, ended,
        hevents, List.append_nil] at l
      rw [next_of_hand hhand]
      exact (books_iff rfl).mpr (Cascade.books_begin l)
  | none =>
      let m' : Moment := { m with cascade := m.cascade.step }
      have hnext : m.next = m' := next_of_none hhand
      have hhand' : m'.hand = none := hhand
      rw [hnext] at hab ⊢
      exact (books_iff hhand').mpr (((books_iff hhand).mp b).step hab)

/-! ## What the ledger says -/

/-- References are owned by handles and by pending entries. -/
theorem Books.counted (b : m.Books issued) (c : CellId) :
    m.cascade.heap.refCount (some c) = m.handles c + m.pending.countP (Entry.owns c) := by
  have h := b.ledger.counted c
  rw [count_chain_cons, countP_own_cons, Object.own] at h
  rw [h, handles, pending, List.countP_append, List.countP_append]
  omega

/-- Every entry that was made is pending or has ended. -/
theorem Books.count_add_count (b : m.Books issued) (e : Entry) :
    m.pending.count e + (m.ended.map Event.entry).count e = issued.count e := by
  have h := b.ledger.entries (· == e)
  rw [countP_own_cons, Object.own] at h
  rw [pending, List.count_append, List.count_append]
  simp only [List.count_eq_countP]
  omega

theorem Books.nodup_ended (b : m.Books issued) (hn : issued.Nodup) :
    (m.ended.map Event.entry).Nodup := by
  rw [List.nodup_iff_count_le_one]
  intro e
  have := List.nodup_iff_count_le_one.mp hn e
  have := b.count_add_count e
  omega

/-- What is in the heap is not due and has not ended. -/
theorem Books.waits (b : m.Books issued) (hn : issued.Nodup) {s : Shared} {e : Entry}
    (hs : m.shared? c = some s) (he : e ∈ s.chain) :
    e ∉ m.cascade.dueEntries ∧ e ∉ m.ended.map Event.entry := by
  have hheap : 0 < m.cascade.heap.entries.count e :=
    List.count_pos_iff.mpr (Heap.mem_entries hs he)
  have honce := List.nodup_iff_count_le_one.mp hn e
  have hcount := b.count_add_count e
  rw [pending, List.count_append, List.count_append] at hcount
  exact ⟨List.count_eq_zero.mp (by omega), List.count_eq_zero.mp (by omega)⟩

/-- The moments of histories, until a second action fails and the program is aborted. -/
inductive Reached : List Command → Moment → Prop where
  | rest {history : List Command} : (World.steps {} history).isAborted = false →
    Reached history (World.steps {} history).rest
  /-- In the course of the last command an object is about to be given up. -/
  | launch {history : List Command} {c : Command} {m : Moment} :
    m ∈ (World.steps {} history).launches c → m.cascade.isAborted = false →
      Reached (history ++ [c]) m
  | next {history : List Command} {m : Moment} : Reached history m →
    m.next.cascade.isAborted = false → Reached history m.next

end Moment

namespace World

/-- What is launched in the course of some moves is an object in hand that is given up between some
of them and the others. -/
theorem exists_of_launched (h : Moves w hand made launches w' hand') (hm : m ∈ launches) :
    ∃ w₁ hand₁ o made₁ made₂ launches₁ launches₂, m = w₁.launch hand₁ o ∧
      Moves w hand made₁ launches₁ w₁ (o :: hand₁) ∧
      Moves (w₁.giveUp o).2 hand₁ made₂ launches₂ w' hand' := by
  induction h with
  | nil => contradiction
  | cons hmove hmoves ih =>
      rcases List.mem_append.mp hm with hm | hm
      · cases hmove with
        | giveUp o => exact ⟨_, _, o, _, _, _, _, List.mem_singleton.mp hm, .nil, hmoves⟩
        | _ => contradiction
      · obtain ⟨w₁, hand₁, o, made₁, made₂, launches₁, launches₂, heq, hfirst, hlast⟩ := ih hm
        exact ⟨w₁, hand₁, o, _, made₂, _, launches₂, heq, .cons hmove hfirst, hlast⟩

end World

namespace Moment.Reached

variable {history : List Command}

theorem books (h : m.Reached history) : ∃ issued : List Entry, issued.Nodup ∧ m.Books issued := by
  induction h with
  | rest hab =>
      have b := World.books_steps _ hab
      exact ⟨_, b.nodup_issued, b.rest⟩
  | @launch history c _ hm hab =>
      obtain ⟨w, hand, o, _, _, _, _, rfl, hfirst, _⟩ :=
        World.exists_of_launched (World.moves_step (World.steps {} history) c) hm
      have b := (World.books_steps history (hfirst.before.isAborted hab)).moves hfirst hab
      exact ⟨_, b.nodup_issued, b.launch⟩
  | next _ hab ih =>
      obtain ⟨issued, hn, b⟩ := ih
      exact ⟨issued, hn, b.next hab⟩

/-- A place of the heap that is empty at some moment stays so. -/
theorem before (h : m.Reached history) : m.finish.heap.Before (World.steps {} history).heap := by
  induction h with
  | rest hab =>
      rw [World.heap_finish_rest]
      exact Heap.Before.refl _
  | @launch history c _ hm _ =>
      obtain ⟨w, hand, o, _, _, _, _, rfl, _, hlast⟩ :=
        World.exists_of_launched (World.moves_step (World.steps {} history) c) hm
      have hbefore := hlast.before.heap
      rw [w.giveUp_eq hand o] at hbefore
      rw [World.steps_append]
      exact hbefore
  | next _ _ ih =>
      rw [finish_next]
      exact ih

/-- A place of the heap that was empty before the last command is so at every moment of it. -/
theorem after {command : Command} (h : m.Reached (history ++ [command])) :
    (World.steps {} history).heap.Before m.cascade.heap := by
  generalize hall : history ++ [command] = all at h
  induction h with
  | rest _ =>
      rw [← hall, World.steps_append]
      exact (World.before_steps _ [command]).heap
  | @launch history' c _ hm _ =>
      obtain ⟨rfl, _⟩ := List.append_inj' hall rfl
      obtain ⟨w, hand, o, _, _, _, _, rfl, hfirst, _⟩ :=
        World.exists_of_launched (World.moves_step (World.steps {} history) c) hm
      exact hfirst.before.heap
  | next _ _ ih => exact (ih hall).trans (before_next _)

theorem isAborted (h : m.Reached history) : m.cascade.isAborted = false := by
  cases h <;> assumption

end Moment.Reached

end Lifespan.Cleanup
