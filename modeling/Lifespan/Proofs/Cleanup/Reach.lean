import Lifespan.Proofs.Cleanup.Cycles
import Mathlib.Order.WellFoundedSet

/-!
# Nothing is left behind

As references make no cycle, going back from a shared chain to another one that refers to it comes
to an end, at a chain that an object or an entry that is due refers to. So all that is in the heap
can be reached from what lies outside it, and is gone when all of that is.
-/
namespace Lifespan.Cleanup

/-! ## What can be reached -/

/-- An object owns a reference to a shared chain, as a handle or through one of its entries. -/
def Object.Owns (o : Object) (c : CellId) : Prop := o = .handle (some c) ∨ ∃ e ∈ o.own, e.owns c

namespace Moment

variable {m : Moment} {issued : List Entry} {history : List Command} {c d : CellId} {s : Shared}

/-- Something outside the heap owns a reference to a shared chain: an object, or an entry that is
due. -/
def Owns (m : Moment) (c : CellId) : Prop :=
  (∃ o ∈ m.allObjects, o.Owns c) ∨ ∃ e ∈ m.cascade.dueEntries, e.owns c

/-- Something owns a reference to each shared chain. -/
theorem Books.exists_owns_or_refers (b : m.Books issued) (hs : m.shared? c = some s) :
    m.Owns c ∨ ∃ d, m.cascade.heap.Refers d c := by
  have hpos := b.ledger.refs_pos c s hs
  have hcounted := b.counted c
  rw [Heap.refCount_of_get? hs, pending, List.countP_append, List.countP_append] at hcounted
  by_contra hno
  rw [not_or, Owns, not_or] at hno
  obtain ⟨⟨hobjects, hdue⟩, hheap⟩ := hno
  have h₁ : m.handles c = 0 := List.count_eq_zero.mpr fun hmem => hobjects ⟨_, hmem, Or.inl rfl⟩
  have h₂ : (m.allObjects.flatMap Object.own).countP (Entry.owns c) = 0 := by
    refine List.countP_eq_zero.mpr fun e he hec => ?_
    obtain ⟨o, ho, he⟩ := List.mem_flatMap.mp he
    exact hobjects ⟨o, ho, Or.inr ⟨e, he, hec⟩⟩
  have h₃ : m.cascade.dueEntries.countP (Entry.owns c) = 0 :=
    List.countP_eq_zero.mpr fun e he hec => hdue ⟨e, he, hec⟩
  have h₄ : m.cascade.heap.entries.countP (Entry.owns c) = 0 := by
    refine List.countP_eq_zero.mpr fun e he hec => ?_
    obtain ⟨cell, hcell, he⟩ := List.mem_flatMap.mp he
    obtain ⟨d, hd⟩ := List.mem_iff_getElem?.mp hcell
    cases cell with
    | none => contradiction
    | some t => exact hheap ⟨d, t, Option.join_eq_some_iff.mpr hd, e, he, hec⟩
  omega

/-- Without cycles every shared chain can be reached from outside the heap: going back from one
chain to another that refers to it comes to an end. -/
theorem Books.exists_owner (b : m.Books issued) (hac : m.cascade.heap.Acyclic)
    (hs : m.shared? c = some s) :
    ∃ r, m.Owns r ∧ Relation.ReflTransGen m.cascade.heap.Refers r c := by
  have hfinite : {c | ∃ s, m.shared? c = some s}.Finite := by
    refine (Set.finite_lt_nat m.cascade.heap.cells.length).subset fun c hc => ?_
    obtain ⟨s, hs⟩ := hc
    exact (List.getElem?_eq_some_iff.mp (Option.join_eq_some_iff.mp hs)).1
  have : IsStrictOrder CellId (Relation.TransGen m.cascade.heap.Refers) :=
    { irrefl := hac, trans := fun _ _ _ => Relation.TransGen.trans }
  have hwf := hfinite.wellFoundedOn (r := Relation.TransGen m.cascade.heap.Refers)
  refine hwf.induction (P := fun c => ∃ r, m.Owns r ∧ Relation.ReflTransGen _ r c) ⟨s, hs⟩ ?_
  intro c ⟨s, hs⟩ ih
  rcases b.exists_owns_or_refers hs with howns | ⟨d, hdc⟩
  · exact ⟨c, howns, .refl⟩
  · have ⟨t, ht, _⟩ := hdc
    obtain ⟨r, hr, hrd⟩ := ih d ⟨t, ht⟩ (.single hdc)
    exact ⟨r, hr, hrd.tail hdc⟩

theorem Reached.exists_owner (h : m.Reached history) (hs : m.shared? c = some s) :
    ∃ r, m.Owns r ∧ Relation.ReflTransGen m.cascade.heap.Refers r c := by
  obtain ⟨_, _, b⟩ := h.books
  exact b.exists_owner h.acyclic hs

end Moment

/-! ## Dropping all objects -/

namespace World

/-- Between commands every shared chain can be reached from an object. -/
theorem exists_owner {history : List Command} (hab : (steps {} history).isAborted = false)
    {c : CellId} {s : Shared} (hs : (steps {} history).heap.get? c = some s) :
    ∃ o ∈ (steps {} history).held, ∃ r, o.Owns r ∧
      Relation.ReflTransGen (steps {} history).heap.Refers r c := by
  obtain ⟨r, ⟨o, ho, howns⟩ | ⟨_, hdue, _⟩, hrc⟩ := (Moment.Reached.rest hab).exists_owner hs
  · exact ⟨o, ho, r, howns, hrc⟩
  · contradiction

/-- Without objects nothing is left. -/
theorem empty_of_objects {history : List Command} (hab : (steps {} history).isAborted = false)
    (h : (steps {} history).objects = []) :
    (∀ c, (steps {} history).heap.get? c = none) ∧ (steps {} history).pending = [] := by
  have hheld : (steps {} history).held = [] := by rw [held, h, List.map_nil]
  have hgone : ∀ c, (steps {} history).heap.get? c = none := by
    intro c
    cases hs : (steps {} history).heap.get? c with
    | none => rfl
    | some s =>
        obtain ⟨o, ho, _⟩ := exists_owner hab hs
        rw [hheld] at ho
        contradiction
  refine ⟨hgone, ?_⟩
  rw [pending, hheld, List.flatMap_nil, List.nil_append, List.eq_nil_iff_forall_not_mem]
  intro e he
  obtain ⟨cell, hcell, he⟩ := List.mem_flatMap.mp he
  obtain ⟨c, hc⟩ := List.mem_iff_getElem?.mp hcell
  cases cell with
  | none => contradiction
  | some s =>
      have hs := hgone c
      rw [Heap.get?, hc] at hs
      contradiction

/-- Dropping objects is a history. -/
theorem dropAll_eq (w : World) (ids : List String) :
    (w.dropAll ids).2 = w.steps (ids.map .drop) := by
  induction ids generalizing w with
  | nil => rfl
  | cons id rest ih =>
      have hsteps : w.steps ((id :: rest).map .drop) = (w.drop id).2.steps (rest.map .drop) := rfl
      rw [hsteps, ← ih]
      simp only [dropAll]
      split
      · next heq => rw [heq]
      · next heq => rw [heq]

/-- An object that is left after some have been dropped was there before, and was not dropped. -/
theorem mem_objects_dropAll (w : World) (ids : List String) {x : String × Object}
    (hx : x ∈ (w.steps (ids.map .drop)).objects) : x ∈ w.objects ∧ x.1 ∉ ids := by
  induction ids generalizing w with
  | nil => exact ⟨hx, List.not_mem_nil⟩
  | cons id rest ih =>
      obtain ⟨hdrop, hrest⟩ := ih (w.drop id).2 hx
      have hmem : x ∈ w.objects ∧ x.1 ≠ id := by
        simp only [drop] at hdrop
        split at hdrop
        · next hfind =>
          refine ⟨hdrop, fun hid => ?_⟩
          have := List.lookup_eq_none_iff.mp hfind x hdrop
          simp [hid] at this
        · next o _ =>
          have hobjects : ((w.erase id).giveUp o).2.objects = (w.erase id).objects := by
            cases o <;> rfl
          rw [hobjects] at hdrop
          simpa [erase] using hdrop
      exact ⟨hmem.1, fun h => (List.mem_cons.mp h).elim hmem.2 hrest⟩

end World

/-- At every moment of every history until the program is aborted, references make no cycle, and
every shared chain can be reached from an object or from an entry that is due; between commands,
from an object. So when all objects that are left have been dropped, in whichever order, no shared
chain is left and no entry is pending, unless that aborts the program. -/
theorem World.references_acyclic (history : List Command)
    (hab : (steps {} history).isAborted = false) :
    let w := steps {} history
    (∀ m, Moment.Reached history m → m.cascade.heap.Acyclic ∧
      ∀ c s, m.shared? c = some s →
        ∃ r, m.Owns r ∧ Relation.ReflTransGen m.cascade.heap.Refers r c) ∧
    w.heap.Acyclic ∧
    (∀ c s, w.heap.get? c = some s →
      ∃ o ∈ w.held, ∃ r, o.Owns r ∧ Relation.ReflTransGen w.heap.Refers r c) ∧
    ∀ ids : List String, ids.Perm w.names → (w.dropAll ids).2.isAborted = false →
      (w.dropAll ids).2.objects = [] ∧ (∀ c, (w.dropAll ids).2.heap.get? c = none) ∧
        (w.dropAll ids).2.pending = [] := by
  intro w
  refine ⟨fun m h => ⟨h.acyclic, fun c s => h.exists_owner⟩, acyclic_steps history hab,
    fun c s => exists_owner hab, fun ids hids habAll => ?_⟩
  rw [w.dropAll_eq ids] at habAll ⊢
  have hobjects : (w.steps (ids.map .drop)).objects = [] := by
    refine List.eq_nil_iff_forall_not_mem.mpr fun x hx => ?_
    obtain ⟨hmem, hid⟩ := w.mem_objects_dropAll ids hx
    exact hid (hids.mem_iff.mpr (List.mem_map_of_mem hmem))
  refine ⟨hobjects, ?_⟩
  -- The objects are dropped by a history too, so what holds after histories holds now.
  rw [← World.steps_append] at habAll hobjects ⊢
  exact empty_of_objects habAll hobjects

/-- A chain that an object in an entry of another one refers to, and two attempts to close the
cycle, which are refused. Its action fails when the objects are dropped. -/
theorem World.references_acyclic_nested :
    let history : List Command := [.createHandle "h" true, .createHandle "g" true,
      .register "g" { label := "shared", fails := true }, .createChain "a",
      .register "a" { label := "own" }, .registerCopy "g" "a", .nest "a" "h",
      .registerCopy "h" "g", .share "h" "k", .moveInto "k" "g", .drop "g"]
    let w := steps {} history
    let ids := ["k", "h"]
    w.isAborted = false ∧
      w.heap.get? 1 = some ⟨1, [⟨0, .perform { label := "shared", fails := true }⟩]⟩ ∧
      w.heap.Acyclic ∧
      (∃ o ∈ w.held, ∃ r, o.Owns r ∧ Relation.ReflTransGen w.heap.Refers r 1) ∧
      ids.Perm w.names ∧ (w.dropAll ids).1 = [.cleanup "shared"] ∧
      (w.dropAll ids).2.isAborted = false ∧ (∀ c, (w.dropAll ids).2.heap.get? c = none) ∧
      (w.dropAll ids).2.pending = [] := by
  intro history w ids
  have hab : w.isAborted = false := by
    simp only [w, history]
    decide +kernel
  have hshared : w.heap.get? 1 =
      some ⟨1, [⟨0, .perform { label := "shared", fails := true }⟩]⟩ := by
    simp only [w, history]
    decide +kernel
  have hnames : w.names = ["h", "k"] := by
    simp only [w, history]
    decide +kernel
  have hids : ids.Perm w.names := by
    rw [hnames]
    exact List.Perm.swap "h" "k" []
  have hfaults : (w.dropAll ids).1 = [.cleanup "shared"] := by
    simp only [w, history, ids]
    decide +kernel
  have habAll : (w.dropAll ids).2.isAborted = false := by
    simp only [w, history, ids]
    decide +kernel
  obtain ⟨_, hacyclic, howner, hdropped⟩ := references_acyclic history hab
  obtain ⟨_, hgone, hpending⟩ := hdropped ids hids habAll
  exact ⟨hab, hshared, hacyclic, howner 1 _ hshared, hids, hfaults, habAll, hgone, hpending⟩

end Lifespan.Cleanup
