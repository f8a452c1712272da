import Lifespan.Proofs.Cleanup.Exclusive
import Lifespan.Proofs.Cleanup.Order
import Lifespan.Proofs.Cleanup.Pooled

/-!
# A copy that takes the place of its handle

The reference of a handle gets into an entry of another chain in two ways. Either it goes over, or
the entry is given a reference of its own and the handle is reset. Both lead to the same world. The
second way counts one more reference before it counts one less, so the reset never finds that it
gives up the last one, and carries out nothing. What the entry is added to is not the chain that
the handle refers to, because a shared chain takes entries only while it has one reference.
-/

namespace Lifespan.Cleanup

namespace World

variable {w : World} {id target : String} {o : Object} {h : Handle} {c : CellId} {es : Chain}
  {issued : List Entry}

/-! ## Changes that do not meet -/

/-- What is there may be put there again. -/
theorem put_self (hn : w.names.Nodup) (ho : w.find? id = some o) : w.put id o = w := by
  obtain ⟨before, after, heq, hbefore, hafter⟩ := exists_split hn ho
  have hobjects : (w.put id o).objects = w.objects :=
    (objects_put heq hbefore hafter o).trans heq.symm
  calc w.put id o = { w with objects := (w.put id o).objects } := rfl
    _ = w := by rw [hobjects]

theorem put_comm (w : World) (hne : id ≠ target) (o o' : Object) :
    (w.put id o).put target o' = (w.put target o').put id o := by
  simp only [put, List.map_map]
  congr 1
  refine List.map_congr_left fun x _ => ?_
  by_cases hid : x.1 = id
  · have htarget : ¬ x.1 = target := fun h => hne (hid.symm.trans h)
    simp [hid, hne]
  · by_cases htarget : x.1 = target
    · simp [htarget, Ne.symm hne]
    · simp [hid, htarget]

/-- Different objects can be changed in any order. -/
theorem setTarget_put (w : World) (hne : id ≠ target) (o : Object) (es : Chain) :
    (w.put id o).setTarget target es = (w.setTarget target es).put id o := by
  simp only [setTarget, find?_put_ne w o (Ne.symm hne)]
  split
  · rfl
  · exact put_comm w hne _ _
  · rfl
  · exact put_comm w hne _ _

/-- A shared chain can be changed before a target chain or after it, if it is not that one. -/
theorem setTarget_withHeap_set (ho : w.find? target = some o) (hne : o ≠ .handle (some c))
    (t : Option Shared) (es : Chain) :
    { w with heap := w.heap.set c t }.setTarget target es =
      { w.setTarget target es with heap := (w.setTarget target es).heap.set c t } := by
  have ho' : { w with heap := w.heap.set c t }.find? target = some o := ho
  simp only [setTarget, ho, ho']
  cases o with
  | chain entries => rfl
  | pinnable p => rfl
  | handle h =>
      cases h with
      | none => rfl
      | some d =>
          have hcd : c ≠ d := fun heq => hne (heq ▸ rfl)
          simp only [Heap.setChain, Heap.get?_set_of_ne _ hcd]
          cases w.heap.get? d with
          | none => rfl
          | some s => simp only [Heap.set_comm _ hcd]

/-! ## Two ways to hand a reference over -/

theorem find?_enter_ne (w : World) (hne : id ≠ target) (es : Chain) (duty : Duty) :
    (w.enter target es duty).find? id = w.find? id :=
  find?_setTarget_ne (w.issue duty).2 hne _

theorem log_enter (w : World) (target : String) (es : Chain) (duty : Duty) :
    (w.enter target es duty).log = w.log :=
  log_setTarget (w.issue duty).2 target _

theorem isAborted_enter (w : World) (target : String) (es : Chain) (duty : Duty) :
    (w.enter target es duty).isAborted = w.isAborted :=
  isAborted_setTarget (w.issue duty).2 target _

theorem enter_put (w : World) (hne : id ≠ target) (o : Object) (es : Chain) (duty : Duty) :
    (w.put id o).enter target es duty = (w.enter target es duty).put id o :=
  setTarget_put (w.issue duty).2 hne o _

theorem step_registerCopy_of_some (hne : id ≠ target)
    (ho : w.find? id = some (.handle (some c))) (ht : w.target? target = some es) :
    w.step (.registerCopy id target) =
      ({ w with heap := w.heap.retain (some c) 1 }.enter target es (.giveUp (some c))).done := by
  rw [step, registerCopy, if_neg hne, ho, ht]

theorem step_moveInto_of_some (hne : id ≠ target) (ho : w.find? id = some (.handle (some c)))
    (ht : w.target? target = some es) : w.step (.moveInto id target) =
      ((w.enter target es (.giveUp (some c))).put id (.handle none)).done := by
  rw [step, moveInto, if_neg hne, ho, ht, ← enter_put w hne]

/-- An empty handle has nothing to hand over. -/
theorem step_of_none (hne : id ≠ target) (ho : w.find? id = some (.handle none))
    (ht : w.target? target = some es) :
    w.step (.registerCopy id target) = w.done ∧ w.step (.moveInto id target) = w.done := by
  constructor
  · rw [step, registerCopy, if_neg hne, ho, ht]
  · rw [step, moveInto, if_neg hne, ho, ht]

theorem registerCopy_quiet (hne : id ≠ target) (ho : w.find? id = some (.handle h))
    (ht : w.target? target = some es) :
    let copied := w.step (.registerCopy id target)
    copied.1 = .ok .done ∧ copied.2.log = w.log := by
  cases h with
  | none =>
      rw [(step_of_none hne ho ht).1]
      exact ⟨rfl, rfl⟩
  | some c =>
      rw [step_registerCopy_of_some hne ho ht]
      exact ⟨rfl, log_enter _ target es _⟩

theorem moveInto_quiet (hne : id ≠ target) (ho : w.find? id = some (.handle h))
    (ht : w.target? target = some es) :
    let moved := w.step (.moveInto id target)
    moved.1 = .ok .done ∧ moved.2.log = w.log ∧ moved.2.isAborted = w.isAborted ∧
      moved.2.find? id = some (.handle none) := by
  cases h with
  | none =>
      rw [(step_of_none hne ho ht).2]
      exact ⟨rfl, rfl, rfl, ho⟩
  | some c =>
      rw [step_moveInto_of_some hne ho ht]
      exact ⟨rfl, log_enter w target es _, isAborted_enter w target es _,
        find?_put_self ((find?_enter_ne w hne es _).trans ho) _⟩

/-- The entry that gives the reference up becomes the last one of the target chain. -/
theorem target?_moveInto (hne : id ≠ target) (ho : w.find? id = some (.handle (some c)))
    (ht : w.target? target = some es) : (w.step (.moveInto id target)).2.target? target =
      some (es ++ [⟨w.nextTicket, .giveUp (some c)⟩]) := by
  rw [step_moveInto_of_some hne ho ht]
  exact target?_put_ne (target?_setTarget (w := (w.issue (.giveUp (some c))).2) ht _) hne _

namespace Books

/-- A new entry can be added before a reference of another handle is counted, or after it. -/
theorem enter_retain (b : w.Books [] issued) (hne : id ≠ target)
    (ho : w.find? id = some (.handle (some c))) (ht : w.target? target = some es) (duty : Duty) :
    ∃ s, 0 < s.refs ∧ w.heap.get? c = some s ∧ (w.enter target es duty).heap.get? c = some s ∧
      { w with heap := w.heap.retain (some c) 1 }.enter target es duty =
        { w.enter target es duty with
          heap := (w.enter target es duty).heap.retain (some c) 1 } := by
  obtain ⟨s, hs⟩ := b.ledger.exists_of_mem (mem_held_of_find? ho)
  obtain ⟨o, htarget, hes⟩ := Option.bind_eq_some_iff.mp ht
  have hother := b.ne_handle hne ho htarget hes
  have hs' : (w.enter target es duty).heap.get? c = some s :=
    (get?_setTarget_of_ne (w := (w.issue duty).2) htarget hother _).trans hs
  refine ⟨s, b.ledger.refs_pos c s hs, hs, hs', ?_⟩
  rw [Heap.retain_eq hs, Heap.retain_eq hs']
  exact setTarget_withHeap_set (w := (w.issue duty).2) htarget hother _ _

/-- A handle that is reset after its reference has been copied into an entry gives up the reference
that was counted for the copy, and the entry keeps the other one. -/
theorem reset_registerCopy (b : w.Books [] issued) (hne : id ≠ target)
    (ho : w.find? id = some (.handle h)) (ht : w.target? target = some es) :
    (w.step (.registerCopy id target)).2.step (.reset id) = w.step (.moveInto id target) := by
  cases h with
  | none =>
      obtain ⟨hcopied, hmoved⟩ := step_of_none hne ho ht
      rw [hcopied, hmoved, done, step, reset, ho]
      simp only [release, Heap.release, run_nil, put_self b.names ho]
  | some c =>
      obtain ⟨s, hpos, -, hs, hcopied⟩ := b.enter_retain hne ho ht (.giveUp (some c))
      have hfind : (w.enter target es (.giveUp (some c))).find? id = some (.handle (some c)) :=
        (find?_enter_ne w hne es _).trans ho
      rw [step_registerCopy_of_some hne ho ht, step_moveInto_of_some hne ho ht, done, hcopied]
      generalize w.enter target es (.giveUp (some c)) = w' at hs hfind
      have hfind' : { w' with heap := w'.heap.retain (some c) 1 }.find? id =
          some (.handle (some c)) := hfind
      have hrelease : (w'.heap.retain (some c) 1).release (some c) = ([], w'.heap) := by
        rw [Heap.release_retain hs hpos 0, Heap.retain_zero hs]
      rw [step, reset, hfind']
      simp only [release, put, hrelease, run_nil, done]

/-- A copy in an entry counts as one more reference. -/
theorem refCount_registerCopy (b : w.Books [] issued) (hne : id ≠ target)
    (ho : w.find? id = some (.handle (some c))) (ht : w.target? target = some es) :
    0 < w.heap.refCount (some c) ∧
      (w.step (.registerCopy id target)).2.heap.refCount (some c) =
        w.heap.refCount (some c) + 1 := by
  obtain ⟨s, hpos, hs, hs', hcopied⟩ := b.enter_retain hne ho ht (.giveUp (some c))
  rw [Heap.refCount_of_get? hs, step_registerCopy_of_some hne ho ht, hcopied]
  refine ⟨hpos, Heap.refCount_of_get? (s := { s with refs := s.refs + 1 }) ?_⟩
  rw [done, Heap.retain_eq hs', Heap.get?_set hs', if_pos rfl]

/-- A reference that goes over to an entry counts as it did. -/
theorem refCount_moveInto (b : w.Books [] issued) (hne : id ≠ target)
    (ho : w.find? id = some (.handle (some c))) (ht : w.target? target = some es) (d : CellId) :
    (w.step (.moveInto id target)).2.heap.refCount (some d) = w.heap.refCount (some d) := by
  rw [step_moveInto_of_some hne ho ht]
  have hentries := entriesAt?_of_target? ht
  have hswap : (w.issue (.giveUp (some c))).2.Swapped (w.enter target es (.giveUp (some c))) es _ :=
    swapped_setTarget (w := (w.issue _).2) b.names hentries _
  exact congrArg (Option.getD · 0) (hswap.refs d)

end Books

/-- After every history that has not been aborted, let a handle refer to a shared chain or to
nothing, and let another object have a target chain. If the reference of the handle is copied into a
new entry of the target chain and the handle is reset, then nothing is carried out, and the world is
the one to which moving the reference into a new entry leads. So whatever is done next ends the same
entries in the same order. The handle is empty then. If it has referred to a shared chain, the
target chain has one more entry, the last one, which owns a reference; in between one more reference
was counted, but in the end the counts of all shared chains are what they were, and right. If the
handle has been empty, neither way changes anything. -/
theorem copy_then_reset_eq_move {history : List Command}
    (hab : (steps {} history).isAborted = false) (hne : id ≠ target)
    (ho : (steps {} history).find? id = some (.handle h))
    (ht : (steps {} history).target? target = some es) :
    let w := steps {} history
    let copied := w.step (.registerCopy id target)
    let released := copied.2.step (.reset id)
    let moved := w.step (.moveInto id target)
    (copied.1 = .ok .done ∧ released.1 = .ok .done ∧ moved.1 = .ok .done) ∧
    (copied.2.log = w.log ∧ released.2.log = w.log ∧ moved.2.log = w.log) ∧
    released.2 = moved.2 ∧ moved.2.isAborted = false ∧
    (∀ later, steps {} (history ++ .registerCopy id target :: .reset id :: later) =
      steps {} (history ++ .moveInto id target :: later)) ∧
    moved.2.find? id = some (.handle none) ∧
    (∀ c, h = some c →
      moved.2.target? target = some (es ++ [⟨w.nextTicket, .giveUp (some c)⟩]) ∧
      0 < w.heap.refCount (some c) ∧
      copied.2.heap.refCount (some c) = w.heap.refCount (some c) + 1 ∧
      ∀ d, moved.2.heap.refCount (some d) = w.heap.refCount (some d) ∧
        moved.2.heap.refCount (some d) = moved.2.references d) ∧
    (h = none → copied.2 = w ∧ released.2 = w ∧ moved.2 = w) := by
  intro w copied released moved
  have b : w.Books [] _ := books_steps history hab
  have hreleased : released = moved := b.reset_registerCopy hne ho ht
  obtain ⟨hcopiedReply, hcopiedLog⟩ := registerCopy_quiet hne ho ht
  obtain ⟨hmovedReply, hmovedLog, hmovedAborted, hempty⟩ := moveInto_quiet hne ho ht
  have hmovedAborted : moved.2.isAborted = false := hmovedAborted.trans hab
  rw [hreleased]
  refine ⟨⟨hcopiedReply, hmovedReply, hmovedReply⟩, ⟨hcopiedLog, hmovedLog, hmovedLog⟩, rfl,
    hmovedAborted, fun later => ?_, hempty, ?_, ?_⟩
  · rw [steps_append, steps_append]
    exact congrArg (fun r : Reaction => r.2.steps later) hreleased
  · rintro c rfl
    obtain ⟨hpos, hmore⟩ := b.refCount_registerCopy hne ho ht
    have hsteps : steps {} (history ++ [.moveInto id target]) = moved.2 := steps_append _ _ _
    have b' : moved.2.Books [] _ := hsteps ▸ books_steps _ (hsteps ▸ hmovedAborted)
    exact ⟨target?_moveInto hne ho ht, hpos, hmore,
      fun d => ⟨b.refCount_moveInto hne ho ht d, b'.refCount_eq d⟩⟩
  · rintro rfl
    obtain ⟨hcopied, hmoved⟩ := step_of_none hne ho ht
    exact ⟨congrArg Prod.snd hcopied, congrArg Prod.snd hmoved, congrArg Prod.snd hmoved⟩

/-- The only reference to a chain is handed over to the chain of another handle. Neither way carries
out the chain, and both do when the other handle is reset. -/
theorem copy_then_reset_eq_move_between_handles :
    let history : List Command := [.createHandle "h" true, .register "h" { label := "shared" },
      .createHandle "t" true, .register "t" { label := "own" }]
    let w := steps {} history
    let copied := w.step (.registerCopy "h" "t")
    let released := copied.2.step (.reset "h")
    let moved := w.step (.moveInto "h" "t")
    w.isAborted = false ∧ w.find? "h" = some (.handle (some 0)) ∧
      w.target? "t" = some [⟨1, .perform { label := "own" }⟩] ∧
      w.heap.refCount (some 0) = 1 ∧ copied.2.heap.refCount (some 0) = 2 ∧
      released.2 = moved.2 ∧ moved.2.log = [] ∧ moved.2.find? "h" = some (.handle none) ∧
      moved.2.target? "t" =
        some [⟨1, .perform { label := "own" }⟩, ⟨2, .giveUp (some 0)⟩] ∧
      moved.2.heap.refCount (some 0) = 1 ∧
      (steps {} (history ++ [.registerCopy "h" "t", .reset "h", .reset "t"])).log.texts =
        ["own", "shared"] := by
  intro history w copied released moved
  have hab : w.isAborted = false := by
    simp only [w, history]
    decide +kernel
  have ho : w.find? "h" = some (.handle (some 0)) := by
    simp only [w, history]
    decide +kernel
  have ht : w.target? "t" = some [⟨1, .perform { label := "own" }⟩] := by
    simp only [w, history]
    decide +kernel
  have hcount : w.heap.refCount (some 0) = 1 := by
    simp only [w, history]
    decide +kernel
  have hticket : w.nextTicket = 2 := by
    simp only [w, history]
    decide +kernel
  have hlog : w.log = [] := by
    simp only [w, history]
    decide +kernel
  have hreset : (steps {} (history ++ [.moveInto "h" "t", .reset "t"])).log.texts =
      ["own", "shared"] := by
    simp only [history]
    decide +kernel
  obtain ⟨-, ⟨-, -, hmovedLog⟩, heq, -, hlater, hempty, hshared, -⟩ :=
    copy_then_reset_eq_move hab (by decide) ho ht
  obtain ⟨htaken, -, hmore, hcounts⟩ := hshared 0 rfl
  refine ⟨hab, ho, ht, hcount, hmore.trans (congrArg (· + 1) hcount), heq, hmovedLog.trans hlog,
    hempty, ?_, (hcounts 0).1.trans hcount, ?_⟩
  · rw [hticket] at htaken
    exact htaken
  · rw [hlater [.reset "t"]]
    exact hreset

end World

end Lifespan.Cleanup
