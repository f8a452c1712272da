import Lifespan.Proofs.Cleanup.Deeds
import Lifespan.Proofs.Cleanup.Spent

/-!
# Pinnable slices among other objects

What a pinnable slice in a world shows, and what its buffer holds, is settled by the commands that
were carried out on it, whatever else was done to the world in between. A slice keeps its diary when
it gets another name. Commands that add entries to its cleanups or move them are no deeds: they
concern neither what is shown nor the buffer.
-/
namespace Lifespan.Cleanup

/-- A pinnable slice without its cleanups. -/
def Pinnable.bare (p : Pinnable) : Pinnable := { p with cleanups := [] }

/-- The pinnable slice that an object is, without its cleanups. -/
def Object.bare? : Object → Option Pinnable
  | .pinnable p => some p.bare
  | _ => none

/-- What a command does to the slice with a name, if it is carried out. -/
def Command.deed? : Command → Option (String × Deed)
  | .pinSlice id s _ | .pinSliceFrom id s _ => some (id, .pin s)
  | .pinSelf id s => some (id, .copy s)
  | .repinSelf id => some (id, .showBuffer)
  | .edit id e => some (id, .edit e)
  | .dropFront id n => some (id, .dropFront n)
  | .dropBack id n => some (id, .dropBack n)
  | .reset id => some (id, .reset)
  | _ => none

/-- What was done to the slice with each name, after a command that is carried out. A new slice has
a new diary, and a slice takes its diary with it when it gets another name. -/
def Command.note (diary : String → Deeds) : Command → String → Deeds
  | .createPinnable id => Function.update diary id []
  | .rename id new => Function.update diary new (diary id)
  | c =>
    match c.deed? with
    | some (id, d) => Function.update diary id (d :: diary id)
    | none => diary

/-- Whether a command is carried out, going by its reply. -/
def isCarriedOut : Except Fault Reply → Bool
  | .ok .done | .ok (.buffer _) => true
  | _ => false

namespace Pinnable

variable {p q : Pinnable} {d : Deed}

@[simp] theorem slice_bare (p : Pinnable) : p.bare.slice = p.slice := rfl

/-- Cleanups play no part in what is shown. -/
theorem perform_bare (p : Pinnable) (d : Deed) : p.bare.perform d = (p.perform d).map bare := by
  obtain ⟨view, buffer, cleanups⟩ := p
  cases d with
  | pin _ | copy _ | showBuffer => cases view <;> rfl
  | dropFront _ | dropBack _ =>
      cases view <;> simp only [perform, dropFront, dropBack] <;> rw [slice_bare] <;> split <;> rfl
  | edit _ | reset => rfl

end Pinnable

namespace World

variable {w w' w'' : World} {id id' : String} {o : Object} {p q : Pinnable} {c : Command}

/-- The pinnable slice with a name, without its cleanups. -/
def bare? (w : World) (id : String) : Option Pinnable := (w.find? id).bind Object.bare?

/-- The slices of a world were slices of another one, and are as they were. -/
def Spares (w w' : World) : Prop := ∀ id q, w'.bare? id = some q → w.bare? id = some q

theorem Spares.refl (w : World) : w.Spares w := fun _ _ h => h

theorem Spares.trans (h : w.Spares w') (h' : w'.Spares w'') : w.Spares w'' :=
  fun id q hq => h id q (h' id q hq)

theorem bare?_of_find? (ho : w.find? id = some o) : w.bare? id = o.bare? := by
  rw [bare?, ho, Option.bind_some]

theorem bare?_eq_of_objects (h : w'.objects = w.objects) : w'.bare? = w.bare? := by
  funext id
  rw [bare?, bare?, find?, find?, h]

theorem spares_of_objects (h : w'.objects = w.objects) : w.Spares w' := by
  intro id q hq
  rwa [bare?_eq_of_objects h] at hq

theorem bare?_put_ne (w : World) (o : Object) (hne : id' ≠ id) :
    (w.put id o).bare? id' = w.bare? id' := by
  rw [bare?, bare?, find?_put_ne w o hne]

theorem bare?_put_self (ho : w.find? id = some o) (o' : Object) :
    (w.put id o').bare? id = o'.bare? :=
  bare?_of_find? (find?_put_self ho o')

theorem spares_put (ho : w.find? id = some o) {o' : Object} (hbare : o'.bare? = none) :
    w.Spares (w.put id o') := by
  intro id' q hq
  by_cases hid : id' = id
  · rw [hid, bare?_put_self ho, hbare] at hq
    contradiction
  · rwa [bare?_put_ne w o' hid] at hq

theorem spares_erase (w : World) (id : String) : w.Spares (w.erase id) := by
  intro id' q hq
  by_cases hid : id' = id
  · rw [hid, bare?, find?_erase_self] at hq
    contradiction
  · rwa [bare?, find?_erase_ne w hid] at hq

theorem bare?_insert_ne (w : World) (o : Object) (hne : id' ≠ id) :
    (w.insert id o).bare? id' = w.bare? id' := by
  rw [bare?, bare?, find?_insert, if_neg hne, Option.or_none]

theorem bare?_insert_self (hfree : w.isFree id) (o : Object) :
    (w.insert id o).bare? id = o.bare? := by
  rw [bare?, find?_insert, Option.isNone_iff_eq_none.mp hfree, if_pos rfl, Option.none_or,
    Option.bind_some]

theorem spares_insert (hfree : w.isFree id) (hbare : o.bare? = none) :
    w.Spares (w.insert id o) := by
  intro id' q hq
  by_cases hid : id' = id
  · rw [hid, bare?_insert_self hfree, hbare] at hq
    contradiction
  · rwa [bare?_insert_ne w o hid] at hq

/-- An object that is put in the place of one that is the same but for its cleanups. -/
theorem bare?_put_of_eq (ho : w.find? id = some o) {o' : Object} (heq : o'.bare? = o.bare?) :
    (w.put id o').bare? = w.bare? := by
  funext id'
  by_cases hid : id' = id
  · rw [hid, bare?_put_self ho, bare?_of_find? ho, heq]
  · exact bare?_put_ne w o' hid

/-- Entries are added to cleanups and moved without regard to what is shown. -/
theorem bare?_setTarget (w : World) (id : String) (es : Chain) :
    (w.setTarget id es).bare? = w.bare? := by
  simp only [setTarget]
  split
  · rfl
  · next ho => exact bare?_put_of_eq ho rfl
  · rfl
  · next ho => exact bare?_put_of_eq ho rfl

theorem spares_setTarget (w : World) (id : String) (es : Chain) : w.Spares (w.setTarget id es) := by
  intro id' q hq
  rwa [bare?_setTarget] at hq

theorem spares_enter (w : World) (id : String) (es : Chain) (duty : Duty) :
    w.Spares (w.enter id es duty) :=
  (spares_of_objects rfl).trans ((w.issue duty).2.spares_setTarget id _)

/-! ## Commands that are no deeds -/

theorem spares_create (hbare : o.bare? = none) : w.Spares (w.create id o).2 := by
  simp only [create]
  split
  · next hfree => exact spares_insert hfree hbare
  · exact .refl w

theorem spares_createHandle (w : World) (id : String) (isAllocated : Bool) :
    w.Spares (w.createHandle id isAllocated).2 := by
  simp only [createHandle]
  split
  · exact .refl w
  · next hfree =>
    have hfree : w.isFree id = true := by simpa using hfree
    split
    · let w' : World := { w with heap := (w.heap.allocate []).2 }
      have hfree' : w'.isFree id = true := hfree
      exact (spares_of_objects rfl).trans (spares_insert hfree' rfl)
    · exact spares_insert hfree rfl

theorem spares_register (w : World) (id : String) (a : Action) :
    w.Spares (w.register id a).2 := by
  simp only [register]
  split
  · exact .refl w
  · split
    · exact w.spares_enter id _ _
    · exact spares_of_objects rfl

theorem spares_record (w : World) (id label : String) : w.Spares (w.record id label).2 := by
  simp only [record]
  split
  · exact .refl w
  · exact w.spares_enter id _ _

theorem spares_delegate (w : World) (id target : String) :
    w.Spares (w.delegate id target).2 := by
  simp only [delegate]
  split
  · exact .refl w
  · split
    · exact (w.spares_setTarget target _).trans (spares_setTarget _ id _)
    · exact .refl w

theorem spares_flush (w : World) (id : String) : w.Spares (w.flush id).2 := by
  simp only [flush]
  split
  · exact .refl w
  · exact (w.spares_setTarget id []).trans (spares_of_objects (objects_run _ _))

theorem spares_drop (w : World) (id : String) : w.Spares (w.drop id).2 := by
  simp only [drop]
  split
  · exact .refl w
  · exact (w.spares_erase id).trans (spares_of_objects (objects_giveUp _ _))

theorem objects_enclose (w : World) (o : Object) : (w.enclose o).2.objects = w.objects := by
  cases o <;> rfl

theorem spares_nest (w : World) (id target : String) : w.Spares (w.nest id target).2 := by
  simp only [nest]
  split
  · exact .refl w
  · split
    · exact .refl w
    · exact .refl w
    · refine Spares.trans ?_ (spares_enter _ target _ _)
      exact (w.spares_erase id).trans (spares_of_objects (objects_enclose _ _))

theorem spares_share (w : World) (id new : String) : w.Spares (w.share id new).2 := by
  simp only [share]
  split
  · next h _ =>
    split
    · next hfree =>
      let w' : World := { w with heap := w.heap.retain h 1 }
      have hfree' : w'.isFree new = true := hfree
      exact (spares_of_objects rfl).trans (spares_insert hfree' rfl)
    · exact .refl w
  · exact .refl w

theorem spares_registerCopy (w : World) (id target : String) :
    w.Spares (w.registerCopy id target).2 := by
  simp only [registerCopy]
  split
  · exact .refl w
  · split
    · exact .refl w
    · exact .refl w
    · exact (spares_of_objects rfl).trans (spares_enter _ target _ _)
    · exact .refl w

theorem spares_moveInto (w : World) (id target : String) :
    w.Spares (w.moveInto id target).2 := by
  simp only [moveInto]
  split
  · exact .refl w
  · split
    · exact .refl w
    · exact .refl w
    · next ho _ => exact (spares_put ho rfl).trans (spares_enter _ target _ _)
    · exact .refl w

/-- A handle gives up its reference, and may then refer to something else. -/
theorem spares_release_put {h : Handle} (ho : w.find? id = some (.handle h)) :
    w.Spares ((w.put id (.handle none)).release h).2 ∧
      ((w.put id (.handle none)).release h).2.find? id = some (.handle none) := by
  refine ⟨(spares_put ho rfl).trans (spares_of_objects (objects_release _ _)), ?_⟩
  rw [find?, objects_release]
  exact find?_put_self ho _

theorem spares_allocate (w : World) (id : String) : w.Spares (w.allocate id).2 := by
  simp only [allocate]
  split
  · next h ho =>
    obtain ⟨hspares, ho'⟩ := spares_release_put ho
    generalize (w.put id (.handle none)).release h = reaction at *
    obtain ⟨_ | _, w'⟩ := reaction
    · exact hspares
    · let w'' : World := { w' with heap := (w'.heap.allocate []).2 }
      have ho'' : w''.find? id = some (.handle none) := ho'
      exact (hspares.trans (spares_of_objects rfl)).trans (spares_put ho'' rfl)
  · exact .refl w

theorem spares_releaseOnPool (w : World) (id : String) (copies workers : Nat) :
    w.Spares (w.releaseOnPool id copies workers).2 := by
  simp only [releaseOnPool]
  split
  · next h ho =>
    split
    · exact .refl w
    · let w' := { w with heap := w.heap.retain h copies }.releaseTimes h copies
      have hobjects : w'.objects = w.objects := objects_releaseTimes _ h copies
      have ho' : w'.find? id = some (.handle h) := by rw [find?, hobjects]; exact ho
      have hspares := (spares_of_objects hobjects).trans (spares_release_put ho').1
      rcases hrelease : (w'.put id (.handle none)).release h with ⟨r | r, w''⟩
      · simpa only [w', hrelease] using hspares
      · simpa only [w', hrelease] using hspares
  · exact .refl w

/-- Commands that are no deeds leave slices as they are, unless they make one or give it another
name. -/
theorem spares_step (hdeed : c.deed? = none) (hmakes : ∀ id, c ≠ .createPinnable id)
    (hmoves : ∀ id new, c ≠ .rename id new) : w.Spares (w.step c).2 := by
  cases c with
  | createChain id => exact spares_create rfl
  | createHandle id isAllocated => exact w.spares_createHandle id isAllocated
  | createPinnable id => exact absurd rfl (hmakes id)
  | register id a => exact w.spares_register id a
  | record id label => exact w.spares_record id label
  | delegate id target => exact w.spares_delegate id target
  | flush id => exact w.spares_flush id
  | drop id => exact w.spares_drop id
  | rename id new => exact absurd rfl (hmoves id new)
  | nest id target => exact w.spares_nest id target
  | allocate id => exact w.spares_allocate id
  | share id new => exact w.spares_share id new
  | registerCopy id target => exact w.spares_registerCopy id target
  | moveInto id target => exact w.spares_moveInto id target
  | releaseOnPool id copies workers => exact w.spares_releaseOnPool id copies workers
  | _ => contradiction

/-! ## Deeds -/

/-- What comes of a command that is a deed. -/
inductive Deals (w w' : World) (id : String) (d : Deed) (isDone : Bool) : Prop where
  | idle : w.Spares w' → (isDone = true → w'.bare? id = none) → Deals w w' id d isDone
  | done {p q : Pinnable} : isDone = true → w.find? id = some (.pinnable p) → p.perform d = .ok q →
    w'.bare? id = some q.bare → (∀ id', id' ≠ id → w'.bare? id' = w.bare? id') →
      Deals w w' id d isDone

theorem deals_adjust {d : Deed} {change : Pinnable → Except Fault Pinnable}
    (hchange : ∀ p, change p = p.perform d) :
    w.Deals (w.adjust id change).2 id d (isCarriedOut (w.adjust id change).1) := by
  simp only [adjust]
  split
  · next p ho =>
    split
    · next q hq =>
      exact .done rfl ho ((hchange p).symm.trans hq) (bare?_put_self ho _) fun _ => bare?_put_ne w _
    · exact .idle (.refl w) (by simp [isCarriedOut])
  · exact .idle (.refl w) (by simp [isCarriedOut, misnamed])

theorem deals_edit (w : World) (id : String) (e : BufferEdit) :
    w.Deals (w.edit id e).2 id (.edit e) (isCarriedOut (w.edit id e).1) := by
  simp only [edit]
  split
  · next ho => exact .done rfl ho rfl (bare?_put_self ho _) fun _ => bare?_put_ne w _
  · exact .idle (.refl w) (by simp [isCarriedOut, misnamed])

theorem deals_pinSlice (w : World) (id : String) (s : Slice) (a : Action) :
    w.Deals (w.pinSlice id s a).2 id (.pin s) (isCarriedOut (w.pinSlice id s a).1) := by
  simp only [pinSlice]
  split
  · next ho =>
    split
    · next q hq =>
      let w' := (w.issue (.perform a)).2
      have ho' : w'.find? id = _ := ho
      exact .done rfl ho hq (bare?_put_self ho' _) fun _ => bare?_put_ne w' _
    · exact .idle (spares_of_objects rfl) (by simp [isCarriedOut])
  · exact .idle (.refl w) (by simp [isCarriedOut, misnamed])

theorem deals_pinSliceFrom (w : World) (id source : String) (s : Slice) :
    w.Deals (w.pinSliceFrom id s source).2 id (.pin s)
      (isCarriedOut (w.pinSliceFrom id s source).1) := by
  simp only [pinSliceFrom]
  split
  · exact .idle (.refl w) (by simp [isCarriedOut, misnamed])
  · split
    · exact .idle (.refl w) (by simp [isCarriedOut, refused])
    · next p entries ho _ =>
      split
      · next q hq =>
        have hperform : p.perform (.pin s) = .ok q := by
          simp only [Pinnable.perform, Pinnable.pin] at hq ⊢
          split at hq
          · contradiction
          · next hpinned => rw [if_neg hpinned, hq]
        refine .done rfl ho hperform ?_ fun id' hne => ?_
        · simp only [done, bare?_setTarget, bare?_put_self ho]
          rfl
        · simp only [done, bare?_setTarget, bare?_put_ne w _ hne]
      · exact .idle (.refl w) (by simp [isCarriedOut])
    · exact .idle (.refl w) (by simp [isCarriedOut, misnamed])

/-- Giving something up concerns no slice. -/
theorem bare?_run (w : World) (es : Chain) : (w.run es).2.bare? = w.bare? :=
  bare?_eq_of_objects (w.objects_run es)

theorem reply_run (w : World) (es : Chain) : ∀ r, (w.run es).1 = .ok r → r = .done := by
  intro r hr
  simp only [run] at hr
  split at hr
  · contradiction
  · cases hr
    rfl

theorem deals_reset (w : World) (id : String) :
    w.Deals (w.reset id).2 id .reset (isCarriedOut (w.reset id).1) := by
  simp only [reset]
  split
  · exact .idle (.refl w) (by simp [isCarriedOut, misnamed])
  · next es ho =>
    refine .idle ((spares_put ho rfl).trans (spares_of_objects (objects_run _ _))) fun _ => ?_
    rw [bare?_run, bare?_put_self ho]
    rfl
  · next h ho =>
    obtain ⟨hspares, ho'⟩ := spares_release_put ho
    exact .idle hspares fun _ => bare?_of_find? ho'
  · next p ho =>
    have hfind : ((w.put id (.pinnable { p with cleanups := [] })).run p.cleanups).2.find? id =
        some (.pinnable { p with cleanups := [] }) := by
      rw [find?, objects_run]
      exact find?_put_self ho _
    have hsame : ((w.put id (.pinnable { p with cleanups := [] })).run p.cleanups).2.bare? =
        w.bare? := (bare?_run _ _).trans (bare?_put_of_eq ho rfl)
    have hreply := (w.put id (.pinnable { p with cleanups := [] })).reply_run p.cleanups
    generalize (w.put id (.pinnable { p with cleanups := [] })).run p.cleanups = reaction at *
    obtain ⟨_ | r, w'⟩ := reaction
    · refine .idle (fun id' q hq => ?_) (by simp [isCarriedOut])
      rwa [hsame] at hq
    · obtain rfl := hreply r rfl
      refine .done rfl ho rfl (bare?_put_self hfind _) fun id' hne => ?_
      rw [← hsame]
      exact bare?_put_ne w' _ hne

theorem deals_of_deed? {d : Deed} (hc : c.deed? = some (id, d)) :
    w.Deals (w.step c).2 id d (isCarriedOut (w.step c).1) := by
  cases c with
  | pinSlice id' s a =>
      cases hc
      exact w.deals_pinSlice id s a
  | pinSliceFrom id' s source =>
      cases hc
      exact w.deals_pinSliceFrom id source s
  | pinSelf id' s | repinSelf id' | dropFront id' n | dropBack id' n =>
      cases hc
      exact deals_adjust fun _ => rfl
  | edit id' e =>
      cases hc
      exact w.deals_edit id e
  | reset id' =>
      cases hc
      exact w.deals_reset id
  | _ => contradiction

/-! ## Diaries -/

/-- What was done to the slice with each name, after one more command. -/
def note (w : World) (diary : String → Deeds) (c : Command) : String → Deeds :=
  if isCarriedOut (w.step c).1 then c.note diary else diary

/-- What was done to the slice with each name, after a history. -/
def diary (w : World) (before : String → Deeds) : List Command → String → Deeds
  | [] => before
  | c :: rest => (w.step c).2.diary (w.note before c) rest

/-- All slices are as their diaries say. -/
def Tells (w : World) (diary : String → Deeds) : Prop :=
  ∀ id q, w.bare? id = some q → Cleanup.Tells (diary id) q

variable {diary : String → Deeds}

theorem note_of_done (hdone : isCarriedOut (w.step c).1 = true) : w.note diary c = c.note diary :=
  if_pos hdone

theorem note_of_not_done (hdone : ¬ isCarriedOut (w.step c).1 = true) : w.note diary c = diary :=
  if_neg hdone

theorem note_of_deed? {d : Deed} (hc : c.deed? = some (id, d)) :
    c.note diary = Function.update diary id (d :: diary id) := by
  cases c <;> cases hc <;> rfl

theorem note_of_deed?_eq_none (hc : c.deed? = none) (hmakes : ∀ id, c ≠ .createPinnable id)
    (hmoves : ∀ id new, c ≠ .rename id new) : w.note diary c = diary := by
  have hsame : c.note diary = diary := by
    cases c with
    | createPinnable id => exact absurd rfl (hmakes id)
    | rename id new => exact absurd rfl (hmoves id new)
    | _ => first | rfl | contradiction
  rw [note, hsame, ite_self]

theorem tells_of_deed? (h : w.Tells diary) {d : Deed} (hc : c.deed? = some (id, d)) :
    (w.step c).2.Tells (w.note diary c) := by
  intro id' q' hq'
  cases deals_of_deed? (w := w) hc with
  | idle hspares hnone =>
      have htells := h id' q' (hspares id' q' hq')
      by_cases hdone : isCarriedOut (w.step c).1 = true
      · have hne : id' ≠ id := by
          rintro rfl
          rw [hnone hdone] at hq'
          contradiction
        rwa [note_of_done hdone, note_of_deed? hc, Function.update_of_ne hne]
      · rwa [note_of_not_done hdone]
  | @done p q hdone ho hperform hself hother =>
      rw [note_of_done hdone, note_of_deed? hc]
      by_cases hid : id' = id
      · rw [hid, hself] at hq'
        cases hq'
        rw [hid, Function.update_self]
        refine (h id p.bare (bare?_of_find? ho)).perform ?_
        rw [Pinnable.perform_bare, hperform]
        rfl
      · rw [hother id' hid] at hq'
        rw [Function.update_of_ne hid]
        exact h id' q' hq'

theorem tells_createPinnable (h : w.Tells diary) (id : String) :
    (w.step (.createPinnable id)).2.Tells (w.note diary (.createPinnable id)) := by
  by_cases hfree : w.isFree id = true
  · have hstep : w.step (.createPinnable id) = (w.insert id (.pinnable {})).done := if_pos hfree
    have hdone : isCarriedOut (w.step (.createPinnable id)).1 = true := by
      rw [hstep]
      rfl
    rw [note_of_done hdone, hstep]
    intro id' q hq
    by_cases hid : id' = id
    · rw [hid, done, bare?_insert_self hfree] at hq
      cases hq
      rw [hid, Command.note, Function.update_self]
      exact .start
    · rw [done, bare?_insert_ne w _ hid] at hq
      rw [Command.note, Function.update_of_ne hid]
      exact h id' q hq
  · have hstep : w.step (.createPinnable id) = w.misnamed := if_neg hfree
    rw [note_of_not_done (by rw [hstep]; exact Bool.false_ne_true), hstep]
    exact h

theorem tells_rename (h : w.Tells diary) (id new : String) :
    (w.step (.rename id new)).2.Tells (w.note diary (.rename id new)) := by
  have hidle (hstep : w.step (.rename id new) = w.misnamed) :
      (w.step (.rename id new)).2.Tells (w.note diary (.rename id new)) := by
    rw [note_of_not_done (by rw [hstep]; exact Bool.false_ne_true), hstep]
    exact h
  cases ho : w.find? id with
  | none => exact hidle (by rw [step, rename, ho])
  | some o =>
      by_cases hfree : w.isFree new = true
      · have hstep : w.step (.rename id new) = ((w.erase id).insert new o).done := by
          rw [step, rename, ho]
          exact if_pos hfree
        have hdone : isCarriedOut (w.step (.rename id new)).1 = true := by
          rw [hstep]
          rfl
        rw [note_of_done hdone, hstep]
        intro id' q hq
        by_cases hid : id' = new
        · rw [hid, done, bare?_insert_self (isFree_erase hfree id)] at hq
          rw [hid, Command.note, Function.update_self]
          exact h id q ((bare?_of_find? ho).trans hq)
        · rw [done, bare?_insert_ne _ o hid] at hq
          rw [Command.note, Function.update_of_ne hid]
          exact h id' q (w.spares_erase id id' q hq)
      · refine hidle ?_
        rw [step, rename, ho]
        exact if_neg hfree

/-- Whatever is done, all slices stay as their diaries say. -/
theorem tells_step (h : w.Tells diary) (c : Command) : (w.step c).2.Tells (w.note diary c) := by
  cases hc : c.deed? with
  | some deed => exact tells_of_deed? h hc
  | none =>
      by_cases hmakes : ∃ id, c = .createPinnable id
      · obtain ⟨id, rfl⟩ := hmakes
        exact tells_createPinnable h id
      · by_cases hmoves : ∃ id new, c = .rename id new
        · obtain ⟨id, new, rfl⟩ := hmoves
          exact tells_rename h id new
        · simp only [not_exists] at hmakes hmoves
          rw [note_of_deed?_eq_none hc hmakes hmoves]
          intro id q hq
          exact h id q (spares_step hc hmakes hmoves id q hq)

theorem tells_steps (h : w.Tells diary) (history : List Command) :
    (w.steps history).Tells (w.diary diary history) := by
  induction history generalizing w diary with
  | nil => exact h
  | cons c rest ih => exact ih (tells_step h c)

/-! ## The rules of pinning -/

/-- A command faults just if a slice is pinned. Then no object changes and no shared chain. -/
def Guards (w : World) (p : Pinnable) (operation : PinOperation) (c : Command) : Prop :=
  (w.step c).1 = (if p.isPinned then .error (.pinned operation) else .ok .done) ∧
    (p.isPinned = true → (w.step c).2.objects = w.objects ∧ (w.step c).2.heap = w.heap)

theorem guards_pinSlice (ho : w.find? id = some (.pinnable p)) (s : Slice) (a : Action) :
    w.Guards p .pinSlice (.pinSlice id s a) := by
  simp only [Guards, step, pinSlice, ho, Pinnable.pin]
  cases p.isPinned
  · exact ⟨rfl, fun h => by contradiction⟩
  · exact ⟨rfl, fun _ => ⟨rfl, rfl⟩⟩

theorem guards_pinSliceFrom (ho : w.find? id = some (.pinnable p)) (s : Slice) {source : String}
    (hne : id ≠ source) (hsource : (w.target? source).isSome) :
    w.Guards p .pinSliceFrom (.pinSliceFrom id s source) := by
  obtain ⟨entries, hentries⟩ := Option.isSome_iff_exists.mp hsource
  simp only [Guards, step, pinSliceFrom, if_neg hne, ho, hentries, Pinnable.pin]
  cases p.isPinned
  · exact ⟨rfl, fun h => by contradiction⟩
  · exact ⟨rfl, fun _ => ⟨rfl, rfl⟩⟩

theorem guards_adjust (ho : w.find? id = some (.pinnable p)) {operation : PinOperation}
    {change : Pinnable → Except Fault Pinnable} {q : Pinnable}
    (hchange : change p = if p.isPinned then .error (.pinned operation) else .ok q)
    (hc : w.step c = w.adjust id change) : w.Guards p operation c := by
  simp only [Guards, hc, adjust, ho, hchange]
  cases p.isPinned
  · exact ⟨rfl, fun h => by contradiction⟩
  · exact ⟨rfl, fun _ => ⟨rfl, rfl⟩⟩

/-- A command that is no deed leaves a slice as it was, if the slice keeps its name. -/
theorem bare?_of_deed?_eq_none (hc : c.deed? = none) (ho : w.find? id = some o)
    (hq : (w.step c).2.bare? id = some q) : w.bare? id = some q := by
  have hne {new : String} (hfree : w.isFree new = true) : id ≠ new := by
    rintro rfl
    rw [isFree, ho] at hfree
    contradiction
  by_cases hmakes : ∃ new, c = .createPinnable new
  · obtain ⟨new, rfl⟩ := hmakes
    simp only [step, create] at hq
    split at hq
    · next hfree => rwa [done, bare?_insert_ne w _ (hne hfree)] at hq
    · exact hq
  · by_cases hmoves : ∃ old new, c = .rename old new
    · obtain ⟨old, new, rfl⟩ := hmoves
      simp only [step, rename] at hq
      split at hq
      · exact hq
      · split at hq
        · next hfree =>
          rw [done, bare?_insert_ne _ _ (hne hfree)] at hq
          exact w.spares_erase old id q hq
        · exact hq
    · simp only [not_exists] at hmakes hmoves
      exact spares_step hc hmakes hmoves id q hq

end World

/-- The buffer is changed by a copy, by what is done to it directly, and by trimming it. -/
theorem Pinnable.buffer_of_perform {p q : Pinnable} {d : Deed} (h : p.perform d = .ok q)
    (hne : q.buffer ≠ p.buffer) :
    (∃ s, d = .copy s ∧ p.isPinned = false) ∨ (∃ e, d = .edit e) ∨
      ∃ n, (d = .dropFront n ∨ d = .dropBack n) ∧ p.view = .buffer := by
  have htrim {s : Slice} (hq : p.Trimmed s q) : p.view = .buffer := by
    cases hq with
    | buffer hview => exact hview
    | nothing _ | foreign _ _ => contradiction
  cases d with
  | pin s =>
      simp only [perform, pin] at h
      split at h
      · contradiction
      · cases h
        contradiction
  | copy s =>
      simp only [perform, copy] at h
      split at h
      · contradiction
      · next hpinned => exact .inl ⟨s, rfl, by simpa using hpinned⟩
  | showBuffer =>
      simp only [perform, showBuffer] at h
      split at h
      · contradiction
      · cases h
        contradiction
  | edit e => exact .inr (.inl ⟨e, rfl⟩)
  | dropFront n => exact .inr (.inr ⟨n, .inl rfl, htrim (trimmed_of_dropFront h).2⟩)
  | dropBack n => exact .inr (.inr ⟨n, .inr rfl, htrim (trimmed_of_dropBack h).2⟩)
  | reset =>
      cases h
      contradiction

namespace World

variable {w : World} {id : String} {p q : Pinnable} {c : Command}

/-- Which commands change the buffer of a slice. -/
theorem buffer_of_step (ho : w.find? id = some (.pinnable p))
    (hq : (w.step c).2.find? id = some (.pinnable q)) (hne : q.buffer ≠ p.buffer) :
    (∃ s, c = .pinSelf id s ∧ p.isPinned = false) ∨ (∃ e, c = .edit id e) ∨
      ∃ n, (c = .dropFront id n ∨ c = .dropBack id n) ∧ p.view = .buffer := by
  have hbare : w.bare? id ≠ some q.bare := by
    rw [bare?_of_find? ho]
    intro hsame
    exact hne (congrArg Pinnable.buffer (Option.some.inj hsame)).symm
  have hbare' : (w.step c).2.bare? id = some q.bare := bare?_of_find? hq
  cases hc : c.deed? with
  | none => exact absurd (bare?_of_deed?_eq_none hc ho hbare') hbare
  | some deed =>
      obtain ⟨id', d⟩ := deed
      cases deals_of_deed? (w := w) hc with
      | idle hspares _ => exact absurd (hspares id _ hbare') hbare
      | @done p' q' _ ho' hperform hself hother =>
          by_cases hid : id = id'
          · subst hid
            obtain rfl : p = p' := by
              rw [ho] at ho'
              cases ho'
              rfl
            have hbuffer : q'.buffer = q.buffer := by
              rw [hself] at hbare'
              have hsame := congrArg Pinnable.buffer (Option.some.inj hbare')
              exact hsame
            rcases Pinnable.buffer_of_perform hperform (hbuffer ▸ hne) with
              ⟨s, rfl, hpinned⟩ | ⟨e, rfl⟩ | ⟨n, rfl | rfl, hview⟩
            all_goals cases c <;> cases hc
            · exact .inl ⟨s, rfl, hpinned⟩
            · exact .inr (.inl ⟨e, rfl⟩)
            · exact .inr (.inr ⟨n, .inl rfl, hview⟩)
            · exact .inr (.inr ⟨n, .inr rfl, hview⟩)
          · rw [hother id hid] at hbare'
            exact absurd hbare' hbare

/-- If no action fails, a reset leaves a slice that shows nothing, with the buffer that it had. -/
theorem reset_of_calm (ho : w.find? id = some (.pinnable p))
    (hcalm : (w.step (.reset id)).2.log.failures = 0) :
    (w.step (.reset id)).1 = .ok .done ∧ (w.step (.reset id)).2.find? id =
      some (.pinnable { p with view := .nothing, cleanups := [] }) := by
  have hlog : (w.step (.reset id)).2.log =
      ((w.put id (.pinnable { p with cleanups := [] })).giveUp (.chain p.cleanups)).2.log := by
    simp only [step, reset, ho, giveUp]
    split
    · next heq =>
      rw [heq]
      rfl
    · next heq => rw [heq]
  rw [hlog] at hcalm
  obtain ⟨events, hgiveUp, -⟩ := ends_of_giveUp hcalm
  rw [giveUp] at hgiveUp
  simp only [step, reset, ho]
  rw [hgiveUp]
  refine ⟨rfl, ?_⟩
  have hput := find?_put_self ho (.pinnable { p with cleanups := [] })
  exact find?_put_self hput _

theorem step_repinSelf (ho : w.find? id = some (.pinnable p)) (hpinned : p.isPinned = false) :
    w.step (.repinSelf id) = (w.put id (.pinnable { p with view := .buffer })).done := by
  simp only [step, adjust, ho, Pinnable.showBuffer, hpinned]
  rfl

/-- The rules of pinning, for a slice in the world after any history.

It is pinned from the time that foreign bytes were shown to it until it is reset, and then shows
these, less what has been trimmed since; otherwise it shows its buffer or nothing. The buffer holds
what was put there. While the slice is pinned, and only then, it cannot be made to show anything
else, and an attempt changes neither the slice nor the object that the cleanups were to come from.
Only copying, changing the buffer and trimming it when it is shown change the buffer; after a reset
it can be shown as it was. -/
theorem pinning_rules (history : List Command) {id : String} {p : Pinnable}
    (ho : (steps {} history).find? id = some (.pinnable p)) :
    let w := steps {} history
    let deeds := diary {} (fun _ => []) history id
    p.isPinned = deeds.isPinned ∧
    (∀ {later earlier : Deeds} {s : Slice}, deeds.recent = later ++ .pin s :: earlier →
      later.front + later.back ≤ s.length ∧
        p.slice = ⟨(s.bytes.take (s.length - later.back)).drop later.front⟩) ∧
    (p.isPinned = false → p.slice = ⟨if deeds.showsOwn then p.buffer else []⟩) ∧
    p.buffer = deeds.contents ∧
    (∀ s a, w.Guards p .pinSlice (.pinSlice id s a)) ∧
    (∀ s source, id ≠ source → (w.target? source).isSome →
      w.Guards p .pinSliceFrom (.pinSliceFrom id s source)) ∧
    (∀ s, w.Guards p .pinSelf (.pinSelf id s)) ∧ w.Guards p .repinSelf (.repinSelf id) ∧
    (∀ c q, (w.step c).2.find? id = some (.pinnable q) → q.buffer ≠ p.buffer →
      (∃ s, c = .pinSelf id s ∧ p.isPinned = false) ∨ (∃ e, c = .edit id e) ∨
        ∃ n, (c = .dropFront id n ∨ c = .dropBack id n) ∧ p.view = .buffer) ∧
    -- If no action fails, a reset is carried out, and the buffer can be shown again.
    ((w.step (.reset id)).2.log.failures = 0 →
      (w.step (.reset id)).1 = .ok .done ∧ ∃ q, (steps w [.reset id, .repinSelf id]).find? id =
        some (.pinnable q) ∧ q.slice = ⟨p.buffer⟩ ∧ q.buffer = p.buffer) := by
  intro w deeds
  have hstart : Tells {} fun _ => [] := by
    intro id q hq
    contradiction
  have htells : Cleanup.Tells deeds p.bare := tells_steps hstart history id _ (bare?_of_find? ho)
  refine ⟨htells.isPinned, ?_, ?_, htells.contents, guards_pinSlice ho,
    fun s source => guards_pinSliceFrom ho s, fun s => guards_adjust ho rfl rfl,
    guards_adjust ho rfl rfl, fun c q => buffer_of_step ho, ?_⟩
  · intro later earlier s hrecent
    obtain ⟨hle, hview⟩ := htells.foreign hrecent
    refine ⟨hle, ?_⟩
    rw [← Pinnable.slice_bare, Pinnable.slice, hview]
  · intro hpinned
    have hshows : p.view = .buffer ↔ deeds.showsOwn = true := htells.showsOwn
    cases hview : p.view with
    | nothing =>
        have hno : deeds.showsOwn = false := by simpa [hview] using hshows
        rw [Pinnable.slice, hview, hno]
        rfl
    | buffer =>
        rw [Pinnable.slice, hview, hshows.mp hview]
        rfl
    | foreign s =>
        rw [Pinnable.isPinned, hview] at hpinned
        contradiction
  · intro hcalm
    obtain ⟨hreply, ho'⟩ := reset_of_calm ho hcalm
    refine ⟨hreply, { p with view := .buffer, cleanups := [] }, ?_, rfl, rfl⟩
    have hshown := step_repinSelf ho' rfl
    have hsteps : steps w [.reset id, .repinSelf id] =
        ((w.step (.reset id)).2.step (.repinSelf id)).2 := rfl
    rw [hsteps, hshown]
    exact find?_put_self ho' _

/-- A slice that is pinned and trimmed until nothing is left of it is still pinned, under another
name as well; and what its buffer has come to hold meanwhile can be shown after a reset. -/
theorem pinning_rules_trimmed :
    let history : List Command := [.createPinnable "p", .createChain "c",
      .register "c" { label := "unpin" }, .pinSelf "p" ⟨[1, 2, 3, 4]⟩, .dropFront "p" 1,
      .pinSliceFrom "p" ⟨[7, 8, 9]⟩ "c", .dropBack "p" 1, .dropFront "p" 2,
      .pinSelf "p" ⟨[5]⟩, .edit "p" .reverse, .rename "p" "q"]
    let w := steps {} history
    let p : Pinnable := ⟨.foreign ⟨[]⟩, [4, 3, 2], [⟨0, .perform { label := "unpin" }⟩]⟩
    w.find? "q" = some (.pinnable p) ∧
      diary {} (fun _ => []) history "q" = [.edit .reverse, .dropFront 2, .dropBack 1,
        .pin ⟨[7, 8, 9]⟩, .dropFront 1, .copy ⟨[1, 2, 3, 4]⟩] ∧
      p.isPinned = true ∧ (w.step (.repinSelf "q")).1 = .error (.pinned .repinSelf) ∧
      ∃ q, (steps w [.reset "q", .repinSelf "q"]).find? "q" = some (.pinnable q) ∧
        q.slice = ⟨[4, 3, 2]⟩ := by
  intro history w p
  have ho : w.find? "q" = some (.pinnable p) := by
    simp only [w, history, p]
    decide +kernel
  have hdiary : diary {} (fun _ => []) history "q" = [.edit .reverse, .dropFront 2, .dropBack 1,
      .pin ⟨[7, 8, 9]⟩, .dropFront 1, .copy ⟨[1, 2, 3, 4]⟩] := by
    simp only [history]
    decide +kernel
  have hcalm : (w.step (.reset "q")).2.log.failures = 0 := by
    simp only [w, history]
    decide +kernel
  obtain ⟨hpinned, -, -, -, -, -, -, ⟨hrepin, -⟩, -, hreset⟩ := pinning_rules history ho
  obtain ⟨-, q, hq, hslice, -⟩ := hreset hcalm
  rw [hdiary] at hpinned
  exact ⟨ho, hdiary, hpinned, hrepin, q, hq, hslice⟩

end World

end Lifespan.Cleanup
