import Lifespan.Proofs.Cleanup.Cascade
import Lifespan.Proofs.Cleanup.Moves

/-!
# What a history cannot undo

Whatever a command does, the log only grows, places of the heap that have been emptied are not used
again, and a program that has been aborted stays so.
-/
namespace Lifespan.Cleanup.World

variable {w w' w'' : World}

/-- What cannot be undone. -/
structure Before (w w' : World) : Prop where
  heap : w.heap.Before w'.heap
  log : w.log <+: w'.log
  isAborted : w'.isAborted = false → w.isAborted = false

theorem Before.refl (w : World) : w.Before w := ⟨.refl _, List.prefix_refl _, id⟩

theorem Before.trans (h : w.Before w') (h' : w'.Before w'') : w.Before w'' :=
  ⟨h.heap.trans h'.heap, h.log.trans h'.log, fun hab => h.isAborted (h'.isAborted hab)⟩

/-! ## Parts of moves -/

theorem before_withHeap {heap : Heap} (h : w.heap.Before heap) : w.Before { w with heap } :=
  ⟨h, List.prefix_refl _, id⟩

theorem before_insert (w : World) (id : String) (o : Object) : w.Before (w.insert id o) :=
  ⟨.refl _, List.prefix_refl _, fun h => h⟩

theorem before_put (w : World) (id : String) (o : Object) : w.Before (w.put id o) :=
  ⟨.refl _, List.prefix_refl _, fun h => h⟩

theorem before_erase (w : World) (id : String) : w.Before (w.erase id) :=
  ⟨.refl _, List.prefix_refl _, fun h => h⟩

theorem before_issue (w : World) (duty : Duty) : w.Before (w.issue duty).2 :=
  ⟨.refl _, List.prefix_refl _, fun h => h⟩

theorem before_discard (w : World) (e : Entry) : w.Before (w.discard e) :=
  ⟨.refl _, List.prefix_append _ _, fun h => h⟩

theorem before_setTarget (w : World) (id : String) (entries : Chain) :
    w.Before (w.setTarget id entries) := by
  simp only [setTarget]
  split
  · exact .refl w
  · exact w.before_put _ _
  · exact before_withHeap (Heap.before_setChain _ _ _)
  · exact w.before_put _ _

theorem before_enter (w : World) (id : String) (entries : Chain) (duty : Duty) :
    w.Before (w.enter id entries duty) :=
  (w.before_issue duty).trans (before_setTarget _ id _)

theorem before_giveUp (w : World) (o : Object) : w.Before (w.giveUp o).2 := by
  rw [w.giveUp_eq [] o]
  exact ⟨(w.launch [] o).releases_finish.before, List.prefix_append _ _,
    fun h => (Bool.or_eq_false_iff.mp h).1⟩

/-! ## Commands -/

theorem Move.before {hand hand' : List Object} {made : List Registration} {launched : List Moment}
    (h : Move w hand made launched w' hand') : w.Before w' := by
  cases h with
  | regroup => exact .refl w
  | insert => exact w.before_insert _ _
  | take => exact w.before_erase _
  | exchange => exact w.before_put _ _
  | adjust => exact w.before_put _ _
  | enter => exact w.before_enter _ _ _
  | pin => exact (w.before_issue _).trans (before_put _ _ _)
  | refuse => exact (w.before_issue _).trans (before_discard _ _)
  | delegate => exact (w.before_setTarget _ _).trans (before_setTarget _ _ _)
  | vacate => exact w.before_setTarget _ _
  | pinFrom => exact (w.before_put _ _).trans (before_setTarget _ _ _)
  | allocate => exact before_withHeap (w.heap.before_allocate _)
  | retain => exact before_withHeap (w.heap.before_retain _ _)
  | giveUp => exact w.before_giveUp _

theorem Moves.before {hand hand' : List Object} {made : List Registration} {launched : List Moment}
    (h : Moves w hand made launched w' hand') : w.Before w' := by
  induction h with
  | nil => exact .refl _
  | cons hmove _ ih => exact hmove.before.trans ih

/-- Every command leads onwards. -/
theorem before_step (w : World) (c : Command) : w.Before (w.step c).2 := (w.moves_step c).before

theorem steps_append (w : World) (before after : List Command) :
    w.steps (before ++ after) = (w.steps before).steps after :=
  List.foldl_append ..

/-- Every history leads onwards. -/
theorem before_steps (w : World) (history : List Command) : w.Before (w.steps history) := by
  induction history generalizing w with
  | nil => exact .refl w
  | cons c rest ih => exact (w.before_step c).trans (ih (w.step c).2)

end Lifespan.Cleanup.World
