import Lifespan.Cleanup.Heap

/-!
# Cascades

Carrying out the entries of a chain may give up the last reference to another chain, whose entries
then come first, and so on to any depth. A cascade holds all entries that are still due, in the
order in which their turn comes, each with the fate that awaits it.

When an action fails, every entry that is due at that moment is dropped instead of being carried
out. Dropping an entry that holds a reference still gives the reference up, and a chain that is set
free in this way is carried out as usual. A second failure while the first is being handled aborts
the whole program.
-/

namespace Lifespan.Cleanup

/-- Entries that are due, and the heap that they refer to. -/
structure Cascade where
  heap : Heap
  /-- The entries that are due, each with the fate that awaits it. -/
  due : List (Fate × Entry)
  events : Log := []
  failure : Option String := none
  isAborted : Bool := false
deriving Repr

namespace Cascade

/-- The cascade that begins with the entries of a chain. -/
def start (heap : Heap) (chain : Chain) : Cascade :=
  { heap, due := chain.map (Fate.ran, ·) }

/-- The number of entries that have not ended. -/
def weight (c : Cascade) : Nat := c.due.length + c.heap.weight

/-- What becomes of a cascade when the action with a label fails and `rest` is still due. -/
def fail (c : Cascade) (label : String) (rest : List (Fate × Entry)) : Cascade :=
  match c.failure with
  | some _ => { c with due := [], isAborted := true }
  | none =>
    { c with due := rest.map fun e => (Fate.dropped, e.2), failure := some label }

/-- Ends the entry whose turn it is. -/
def step (c : Cascade) : Cascade :=
  match c.due with
  | [] => c
  | (fate, e) :: rest =>
    let c := { c with due := rest, events := c.events ++ [⟨e, fate⟩] }
    match e.duty, fate with
    | .perform a, .ran => if a.fails then c.fail a.label rest else c
    | .perform _, .dropped => c
    | .giveUp h, _ =>
      let (freed, heap) := c.heap.release h
      { c with heap, due := freed.map (Fate.ran, ·) ++ rest }

theorem weight_fail_le (c : Cascade) (label : String) (rest : List (Fate × Entry)) :
    (c.fail label rest).weight ≤ rest.length + c.heap.weight := by
  unfold fail
  split <;> simp [weight]

/-- Each step ends an entry. -/
theorem weight_step_lt (c : Cascade) (h : c.due ≠ []) : c.step.weight < c.weight := by
  unfold step
  split
  · contradiction
  · next fate e rest hd =>
    have hw : c.weight = rest.length + 1 + c.heap.weight := by simp [weight, hd]
    rw [hw]
    dsimp only
    split
    · split
      · exact Nat.lt_of_le_of_lt (weight_fail_le _ _ _) (by simp only; omega)
      · simp only [weight]; omega
    · simp only [weight]; omega
    · next handle _ =>
      have := c.heap.length_release_add_weight handle
      simp only [weight, List.length_append, List.length_map]
      omega

/-- The state when no entry is due any more. -/
def settle (c : Cascade) : Cascade :=
  if _h : c.due = [] then c else c.step.settle
termination_by c.weight
decreasing_by exact c.weight_step_lt ‹_›

end Cascade

end Lifespan.Cleanup
