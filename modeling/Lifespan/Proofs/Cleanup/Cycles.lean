import Lifespan.Proofs.Cleanup.References
import Mathlib.Logic.Relation

/-!
# There are no cycles of references

An entry of a shared chain that owns a reference to another chain makes the one refer to the other.
References are lost when entries end, and they are gained by a chain to which entries are added. A
chain that takes entries has one handle that refers to it and nothing else does, so no chain refers
to it, and no cycle can be closed there.
-/
namespace Lifespan.Cleanup

/-! ## References between shared chains -/

namespace Heap

variable {h h' h'' : Heap} {c d x : CellId} {s : Shared} {t : Option Shared}

/-- An entry of one shared chain owns a reference to another. An object that was made part of an
entry is a shared chain too, so what it owns is referred to in two steps. -/
def Refers (h : Heap) (c d : CellId) : Prop :=
  ∃ s, h.get? c = some s ∧ ∃ e ∈ s.chain, e.owns d

/-- No chain refers to itself, in however many steps. -/
def Acyclic (h : Heap) : Prop := ∀ c, ¬ Relation.TransGen h.Refers c c

/-- From one heap to another references are lost, but none are gained. -/
def Loses (h h' : Heap) : Prop := ∀ c d, h'.Refers c d → h.Refers c d

theorem Loses.refl (h : Heap) : h.Loses h := fun _ _ hcd => hcd

theorem Loses.trans (hl : h.Loses h') (hl' : h'.Loses h'') : h.Loses h'' :=
  fun c d hcd => hl c d (hl' c d hcd)

/-- If references are gained by one chain only, and nothing refers to that chain, then no cycle is
closed. -/
theorem Acyclic.of_source (hac : h.Acyclic) (hgain : ∀ c d, h'.Refers c d → h.Refers c d ∨ c = x)
    (hsource : ∀ c, ¬ h'.Refers c x) : h'.Acyclic := by
  have hlast {c d : CellId} (hcd : Relation.TransGen h'.Refers c d) : d ≠ x := by
    rintro rfl
    obtain ⟨b, _, hbd⟩ := Relation.TransGen.tail'_iff.mp hcd
    exact hsource b hbd
  have hold {c d : CellId} (hcd : Relation.TransGen h'.Refers c d) (hc : c ≠ x) :
      Relation.TransGen h.Refers c d := by
    induction hcd with
    | single hcd => exact .single ((hgain _ _ hcd).resolve_right hc)
    | tail hcb hbd ih => exact .tail ih ((hgain _ _ hbd).resolve_right (hlast hcb))
  intro c hcc
  exact hac c (hold hcc (hlast hcc))

theorem Acyclic.of_loses (hac : h.Acyclic) (hl : h.Loses h') : h'.Acyclic :=
  fun c hcc => hac c (Relation.TransGen.mono hl c c hcc)

theorem acyclic_empty : Acyclic {} := by
  intro c hcc
  obtain ⟨_, ⟨s, hs, _⟩, _⟩ := Relation.TransGen.head'_iff.mp hcc
  simp [get?] at hs

/-- What refers to what after one place has changed. -/
theorem refers_set (hs : h.get? c = some s) :
    (h.set c t).Refers x d ↔
      (c = x ∧ ∃ s', t = some s' ∧ ∃ e ∈ s'.chain, e.owns d) ∨ c ≠ x ∧ h.Refers x d := by
  simp only [Refers, get?_set hs]
  by_cases hcx : c = x
  · simp [hcx]
  · simp [hcx]

theorem loses_set (hs : h.get? c = some s) (ht : ∀ s', t = some s' → s'.chain ⊆ s.chain) :
    h.Loses (h.set c t) := by
  intro x d hxd
  rcases (refers_set hs).mp hxd with ⟨rfl, s', hs', e, he, hd⟩ | ⟨_, hxd⟩
  · exact ⟨s, hs, e, ht s' hs' he, hd⟩
  · exact hxd

theorem loses_release (h : Heap) (handle : Handle) : h.Loses (h.release handle).2 := by
  simp only [release]
  split
  · exact .refl h
  · split
    · exact .refl h
    · next hs =>
      split
      · exact loses_set hs (by simp)
      · exact loses_set hs (by simp)

theorem Releases.loses (hr : h.Releases h') : h.Loses h' := by
  induction hr with
  | refl => exact .refl h
  | @release h' handle _ ih => exact ih.trans (h'.loses_release handle)

theorem loses_retain (h : Heap) (handle : Handle) (n : Nat) : h.Loses (h.retain handle n) := by
  simp only [retain]
  split
  · exact .refl h
  · split
    · exact .refl h
    · next hs => exact loses_set hs (by simp)

/-- A chain that has been emptied refers to nothing. -/
theorem loses_setChain_nil (h : Heap) (handle : Handle) : h.Loses (h.setChain handle []) := by
  simp only [setChain]
  split
  · exact .refl h
  · split
    · exact .refl h
    · next hs => exact loses_set hs (by simp)

/-- What refers to what after a chain has been put into the heap. -/
theorem refers_allocate {chain : Chain} (hxd : (h.allocate chain).2.Refers x d) :
    h.Refers x d ∨ x = h.cells.length ∧ ∃ e ∈ chain, e.owns d := by
  obtain ⟨s, hs, e, he, hd⟩ := hxd
  rw [get?_allocate] at hs
  split at hs
  · next hx =>
    cases hs
    exact Or.inr ⟨hx, e, he, hd⟩
  · exact Or.inl ⟨s, hs, e, he, hd⟩

theorem loses_allocate_nil (h : Heap) : h.Loses (h.allocate []).2 := by
  intro x d hxd
  rcases refers_allocate hxd with hxd | ⟨_, e, he, _⟩
  · exact hxd
  · contradiction

end Heap

/-! ## Giving up references -/

theorem Moment.loses_next (m : Moment) : m.cascade.heap.Loses m.next.cascade.heap := by
  rw [heap_next]
  exact Heap.loses_release _ _

namespace World

variable {w : World} {hand : List Object} {issued : List Entry} {id target : String} {o : Object}
  {es : Chain} {c : CellId}

theorem loses_giveUp (w : World) (o : Object) : w.heap.Loses (w.giveUp o).2.heap := by
  rw [w.giveUp_eq [] o]
  exact (w.launch [] o).releases_finish.loses

theorem loses_release (w : World) (h : Handle) : w.heap.Loses (w.release h).2.heap :=
  w.loses_giveUp (.handle h)

theorem loses_releaseTimes (w : World) (h : Handle) (n : Nat) :
    w.heap.Loses (w.releaseTimes h n).heap := by
  induction n generalizing w with
  | zero => exact .refl _
  | succ n ih => exact (w.loses_release h).trans (ih _)

theorem loses_setTarget_nil (w : World) (id : String) : w.heap.Loses (w.setTarget id []).heap := by
  simp only [setTarget]
  split
  · exact .refl _
  · exact .refl _
  · exact Heap.loses_setChain_nil _ _
  · exact .refl _

/-! ## Chains that take entries -/

theorem target?_put_ne (h : w.target? target = some es) (hne : id ≠ target) (o : Object) :
    (w.put id o).target? target = some es := by
  rw [target?, find?_put_ne w o (Ne.symm hne)]
  exact h

theorem target?_erase_ne (h : w.target? target = some es) (hne : id ≠ target) :
    (w.erase id).target? target = some es := by
  rw [target?, find?_erase_ne w (Ne.symm hne)]
  exact h

/-- A chain goes on taking entries when it stays as it is. -/
theorem target?_withHeap {heap : Heap} (h : w.target? id = some es)
    (hheap : ∀ c s, w.find? id = some (.handle (some c)) → w.heap.get? c = some s →
      heap.get? c = some s) : { w with heap }.target? id = some es := by
  obtain ⟨o, ho, hes⟩ := Option.bind_eq_some_iff.mp h
  refine Option.bind_eq_some_iff.mpr ⟨o, ho, ?_⟩
  cases o with
  | chain entries => exact hes
  | pinnable p => exact hes
  | handle handle =>
      obtain ⟨c, s, rfl, hs, hrefs, hchain⟩ := Heap.exclusive?_eq_some_iff.mp hes
      exact Heap.exclusive?_eq_some_iff.mpr ⟨c, s, rfl, hheap c s ho hs, hrefs, hchain⟩

theorem target?_enclose (h : w.target? id = some es) (o : Object) :
    (w.enclose o).2.target? id = some es := by
  have hallocate (chain : Chain) :
      { w with heap := (w.heap.allocate chain).2 }.target? id = some es := by
    refine target?_withHeap h fun c s _ hs => ?_
    have hne : c ≠ w.heap.cells.length := by
      rintro rfl
      rw [Heap.get?_length] at hs
      contradiction
    rw [Heap.get?_allocate, if_neg hne, hs]
  cases o with
  | chain entries => exact hallocate entries
  | handle _ => exact h
  | pinnable p => exact hallocate p.cleanups

/-- The entries of a target chain are pending. -/
theorem mem_pending_of_target? (h : w.target? id = some es) {e : Entry} (he : e ∈ es) :
    e ∈ w.pending := by
  obtain ⟨o, ho, hes⟩ := Option.bind_eq_some_iff.mp h
  have hheld := mem_held_of_find? ho
  rw [pending, List.mem_append]
  cases o with
  | chain entries =>
      cases hes
      exact Or.inl (List.mem_flatMap.mpr ⟨_, hheld, he⟩)
  | pinnable p =>
      cases hes
      exact Or.inl (List.mem_flatMap.mpr ⟨_, hheld, he⟩)
  | handle handle =>
      obtain ⟨c, s, rfl, hs, _, rfl⟩ := Heap.exclusive?_eq_some_iff.mp hes
      exact Or.inr (Heap.mem_entries hs he)

/-- Adding entries to a chain to which nothing refers closes no cycle. -/
theorem acyclic_setTarget (hac : w.heap.Acyclic) (es' : Chain)
    (hsource : ∀ c, w.find? id = some (.handle (some c)) →
      (∀ x, ¬ w.heap.Refers x c) ∧ ∀ e ∈ es', ¬ e.owns c) :
    (w.setTarget id es').heap.Acyclic := by
  simp only [setTarget]
  split
  · exact hac
  · exact hac
  · next h ho =>
    dsimp only [Heap.setChain]
    split
    · exact hac
    · next c =>
      obtain ⟨hunreferred, hes'⟩ := hsource c ho
      split
      · exact hac
      · next s hs =>
        refine hac.of_source (x := c) (fun x d hxd => ?_) fun x hx => ?_
        · rcases (Heap.refers_set hs).mp hxd with ⟨rfl, _⟩ | ⟨_, hxd⟩
          · exact Or.inr rfl
          · exact Or.inl hxd
        · rcases (Heap.refers_set hs).mp hx with ⟨_, s', hs', e, he, hc⟩ | ⟨_, hx⟩
          · cases hs'
            exact hes' e he hc
          · exact hunreferred x hx
  · exact hac

namespace Books

/-- Nothing but its handle refers to a chain that takes entries. -/
theorem unowned_of_target? (b : w.Books hand issued) (h : w.target? id = some es)
    (ho : w.find? id = some (.handle (some c))) :
    (∀ e ∈ w.pending, ¬ e.owns c) ∧ .handle (some c) ∉ hand := by
  obtain ⟨o, ho', hes⟩ := Option.bind_eq_some_iff.mp h
  obtain rfl := Option.some.inj (ho.symm.trans ho')
  obtain ⟨_, s, hc, hs, hrefs, _⟩ := Heap.exclusive?_eq_some_iff.mp hes
  cases hc
  have hcounted := b.ledger.counted c
  have hheld := List.count_pos_iff.mpr (mem_held_of_find? ho)
  rw [Heap.refCount_of_get? hs, hrefs, List.count_append, List.flatMap_append,
    List.countP_append] at hcounted
  refine ⟨fun e he hc => ?_, fun hmem => ?_⟩
  · have hpos : 0 < w.pending.countP (Entry.owns c) := List.countP_pos_iff.mpr ⟨e, he, hc⟩
    rw [pending, List.countP_append] at hpos
    omega
  · have hpos := List.count_pos_iff.mpr hmem
    omega

theorem acyclic_enter {duty : Duty} (b : w.Books (duty.stake :: hand) issued)
    (hac : w.heap.Acyclic) (h : w.target? id = some es) :
    (w.enter id es duty).heap.Acyclic := by
  refine acyclic_setTarget (w := (w.issue duty).2) hac _ fun c hc => ?_
  obtain ⟨hunowned, hhand⟩ := b.unowned_of_target? h hc
  refine ⟨?_, fun e he => ?_⟩
  · rintro x ⟨s, hs, e, he, hec⟩
    exact hunowned e (List.mem_append_right _ (Heap.mem_entries hs he)) hec
  · rcases List.mem_append.mp he with he | he
    · exact hunowned e (mem_pending_of_target? h he)
    · rw [List.mem_singleton.mp he, Entry.owns_iff]
      exact fun hstake => hhand (hstake ▸ List.mem_cons_self)

theorem acyclic_delegate {moved : Chain} (b : w.Books hand issued) (hac : w.heap.Acyclic)
    (hmoved : w.target? id = some moved) (hes : w.target? target = some es) :
    ((w.setTarget target (es ++ moved)).setTarget id []).heap.Acyclic := by
  have htarget : (w.setTarget target (es ++ moved)).heap.Acyclic := by
    refine acyclic_setTarget hac _ fun c hc => ?_
    obtain ⟨hunowned, _⟩ := b.unowned_of_target? hes hc
    refine ⟨?_, fun e he => ?_⟩
    · rintro x ⟨s, hs, e, he, hec⟩
      exact hunowned e (List.mem_append_right _ (Heap.mem_entries hs he)) hec
    · rcases List.mem_append.mp he with he | he
      · exact hunowned e (mem_pending_of_target? hes he)
      · exact hunowned e (mem_pending_of_target? hmoved he)
  exact htarget.of_loses (loses_setTarget_nil _ _)

/-- A chain that is put into the heap refers to others, but nothing refers to it yet. -/
theorem acyclic_allocate (b : w.Books (.chain es :: hand) issued) (hac : w.heap.Acyclic) :
    (w.heap.allocate es).2.Acyclic := by
  refine hac.of_source (x := w.heap.cells.length) (fun c d hcd => ?_) fun c hc => ?_
  · exact (Heap.refers_allocate hcd).imp_right And.left
  · have hcounted := b.ledger.counted w.heap.cells.length
    rw [Heap.refCount_of_none w.heap.get?_length, List.cons_append, countP_own_cons,
      Object.own] at hcounted
    rcases Heap.refers_allocate hc with ⟨s, hs, e, he, hec⟩ | ⟨_, e, he, hec⟩
    · have hpos : 0 < w.heap.entries.countP (Entry.owns w.heap.cells.length) :=
        List.countP_pos_iff.mpr ⟨e, Heap.mem_entries hs he, hec⟩
      omega
    · have hpos : 0 < es.countP (Entry.owns w.heap.cells.length) :=
        List.countP_pos_iff.mpr ⟨e, he, hec⟩
      omega

theorem acyclic_enclose (b : w.Books (o :: hand) issued) (hac : w.heap.Acyclic) :
    (w.enclose o).2.heap.Acyclic := by
  cases o with
  | chain entries => exact b.acyclic_allocate hac
  | handle _ => exact hac
  | pinnable p => exact acyclic_allocate ⟨b.names, b.tickets, b.ledger.cleanups⟩ hac

/-! ## Commands -/

/-- A new action behind the entries at an object. -/
theorem acyclic_enter_perform (b : w.Books [] issued) (hac : w.heap.Acyclic)
    (h : w.target? id = some es) (a : Action) : (w.enter id es (.perform a)).heap.Acyclic := by
  have hbare : w.Books [(Duty.perform a).stake] issued :=
    ⟨b.names, b.tickets, Ledger.empty_cons_iff.mpr b.ledger⟩
  exact hbare.acyclic_enter hac h

theorem acyclic_register (b : w.Books [] issued) (hac : w.heap.Acyclic) (id : String)
    (a : Action) : (w.register id a).2.heap.Acyclic := by
  simp only [register]
  split
  · exact hac
  · next o ho =>
    split
    · next entries hes =>
      have h : w.target? id = some entries := by rw [target?, ho, Option.bind_some, hes]
      exact b.acyclic_enter_perform hac h a
    · exact hac

theorem acyclic_record (b : w.Books [] issued) (hac : w.heap.Acyclic) (id label : String) :
    (w.record id label).2.heap.Acyclic := by
  simp only [record]
  split
  · exact hac
  · next entries hes => exact b.acyclic_enter_perform hac hes _

theorem acyclic_nest (b : w.Books [] issued) (hac : w.heap.Acyclic)
    (hab : w.isAborted = false) (id target : String) : (w.nest id target).2.heap.Acyclic := by
  simp only [nest]
  split
  · exact hac
  · next hne =>
    split
    · exact hac
    · exact hac
    · next o entries ho hes =>
      have b₁ := b.move (Move.take ho) hab
      have b₂ := b₁.moves (moves_enclose _ o []) ?_
      · exact b₂.acyclic_enter (b₁.acyclic_enclose hac)
          (target?_enclose (target?_erase_ne hes hne) o)
      · cases o <;> exact hab

theorem acyclic_registerCopy (b : w.Books [] issued) (hac : w.heap.Acyclic)
    (id target : String) : (w.registerCopy id target).2.heap.Acyclic := by
  simp only [registerCopy]
  split
  · exact hac
  · next hne =>
    split
    · exact hac
    · exact hac
    · next c entries ho hes =>
      refine acyclic_enter (b.retain 1 ho) (hac.of_loses (Heap.loses_retain _ _ _)) ?_
      -- The target chain is not the one that has another reference now.
      refine target?_withHeap hes fun d s hd hs => ?_
      have hrefs : s.refs = 1 := by
        obtain ⟨o, ho', ht⟩ := Option.bind_eq_some_iff.mp hes
        obtain rfl := Option.some.inj (hd.symm.trans ho')
        obtain ⟨_, t, hdt, ht, hrefs, _⟩ := Heap.exclusive?_eq_some_iff.mp ht
        cases hdt
        obtain rfl := Option.some.inj (hs.symm.trans ht)
        exact hrefs
      have hcd := b.ne_of_exclusive? hne ho hd hs hrefs
      dsimp only [Heap.retain]
      split
      · exact hs
      · next hc => rw [Heap.get?_set hc, if_neg hcd, hs]
    · exact hac

theorem acyclic_moveInto (b : w.Books [] issued) (hac : w.heap.Acyclic)
    (hab : w.isAborted = false) (id target : String) :
    (w.moveInto id target).2.heap.Acyclic := by
  simp only [moveInto]
  split
  · exact hac
  · next hne =>
    split
    · exact hac
    · exact hac
    · next c entries ho hes =>
      have hnone := b.move (move_cons_of_bare (o := .handle none) rfl fun _ => by simp) hab
      have b₁ := hnone.move (Move.exchange (.handle none) ho) hab
      exact b₁.acyclic_enter hac (target?_put_ne hes hne _)
    · exact hac

theorem acyclic_delegate_step (b : w.Books [] issued) (hac : w.heap.Acyclic)
    (id target : String) : (w.delegate id target).2.heap.Acyclic := by
  simp only [World.delegate, Chain.delegate_eq]
  split
  · exact hac
  · split
    · next hmoved hes => exact b.acyclic_delegate hac hmoved hes
    · exact hac

end Books

/-- Commands that add no entry to a shared chain gain no reference. -/
theorem loses_reset (w : World) (id : String) : w.heap.Loses (w.reset id).2.heap := by
  simp only [reset]
  split
  · exact .refl _
  · exact loses_giveUp (w.put id _) (.chain _)
  · exact loses_giveUp (w.put id _) (.handle _)
  · next p _ =>
    have h := loses_giveUp (w.put id (.pinnable { p with cleanups := [] })) (.pinnable p)
    simp only [giveUp] at h
    split
    · next heq =>
      rw [heq] at h
      exact h
    · next heq =>
      rw [heq] at h
      exact h

theorem loses_flush (w : World) (id : String) : w.heap.Loses (w.flush id).2.heap := by
  simp only [flush]
  split
  · exact .refl _
  · next es _ =>
    exact (w.loses_setTarget_nil id).trans (loses_giveUp (w.setTarget id []) (.chain es))

theorem loses_drop (w : World) (id : String) : w.heap.Loses (w.drop id).2.heap := by
  simp only [drop]
  split
  · exact .refl _
  · next o _ => exact loses_giveUp (w.erase id) o

theorem loses_allocate (w : World) (id : String) : w.heap.Loses (w.allocate id).2.heap := by
  simp only [allocate]
  split
  · next h _ =>
    have h := loses_release (w.put id (.handle none)) h
    split
    · next heq =>
      rw [heq] at h
      exact h.trans (Heap.loses_allocate_nil _)
    · next heq =>
      rw [heq] at h
      exact h
  · exact .refl _

theorem loses_releaseOnPool (w : World) (id : String) (copies workers : Nat) :
    w.heap.Loses (w.releaseOnPool id copies workers).2.heap := by
  simp only [releaseOnPool]
  split
  · next h _ =>
    split
    · exact .refl _
    · let w₁ : World := { w with heap := w.heap.retain h copies }
      have h₁ : w.heap.Loses w₁.heap := Heap.loses_retain _ _ _
      have h₂ := h₁.trans (w₁.loses_releaseTimes h copies)
      have h₃ := h₂.trans (loses_release ((w₁.releaseTimes h copies).put id (.handle none)) h)
      split
      · next heq =>
        rw [heq] at h₃
        exact h₃
      · next heq =>
        rw [heq] at h₃
        exact h₃
  · exact .refl _

theorem loses_createHandle (w : World) (id : String) (isAllocated : Bool) :
    w.heap.Loses (w.createHandle id isAllocated).2.heap := by
  simp only [createHandle]
  split
  · exact .refl _
  · split
    · exact Heap.loses_allocate_nil _
    · exact .refl _

theorem loses_share (w : World) (id new : String) : w.heap.Loses (w.share id new).2.heap := by
  simp only [share]
  split
  · split
    · exact Heap.loses_retain _ _ _
    · exact .refl _
  · exact .refl _

theorem loses_pinSliceFrom (w : World) (id : String) (s : Slice) (source : String) :
    w.heap.Loses (w.pinSliceFrom id s source).2.heap := by
  simp only [pinSliceFrom, Chain.delegate_eq]
  split
  · exact .refl _
  · split
    · exact .refl _
    · split
      · exact loses_setTarget_nil _ _
      · exact .refl _
    · exact .refl _

theorem heap_create (w : World) (id : String) (o : Object) : (w.create id o).2.heap = w.heap := by
  simp only [create]
  split <;> rfl

theorem heap_rename (w : World) (id new : String) : (w.rename id new).2.heap = w.heap := by
  simp only [rename]
  split
  · rfl
  · split <;> rfl

theorem heap_adjust (w : World) (id : String) (change : Pinnable → Except Fault Pinnable) :
    (w.adjust id change).2.heap = w.heap := by
  simp only [adjust]
  split
  · split <;> rfl
  · rfl

theorem heap_pinSlice (w : World) (id : String) (s : Slice) (a : Action) :
    (w.pinSlice id s a).2.heap = w.heap := by
  simp only [pinSlice]
  split
  · split <;> rfl
  · rfl

theorem heap_edit (w : World) (id : String) (e : BufferEdit) : (w.edit id e).2.heap = w.heap := by
  simp only [edit]
  split <;> rfl

/-- No command closes a cycle. -/
theorem Books.acyclic_step (b : w.Books [] issued) (hac : w.heap.Acyclic)
    (hab : w.isAborted = false) (c : Command) : (w.step c).2.heap.Acyclic := by
  cases c with
  | createChain id | createPinnable id =>
      rw [step, heap_create]
      exact hac
  | createHandle id isAllocated => exact hac.of_loses (w.loses_createHandle id isAllocated)
  | register id a => exact b.acyclic_register hac id a
  | record id label => exact b.acyclic_record hac id label
  | delegate id target => exact b.acyclic_delegate_step hac id target
  | reset id => exact hac.of_loses (w.loses_reset id)
  | flush id => exact hac.of_loses (w.loses_flush id)
  | drop id => exact hac.of_loses (w.loses_drop id)
  | rename id new =>
      rw [step, heap_rename]
      exact hac
  | nest id target => exact b.acyclic_nest hac hab id target
  | allocate id => exact hac.of_loses (w.loses_allocate id)
  | share id new => exact hac.of_loses (w.loses_share id new)
  | registerCopy id target => exact b.acyclic_registerCopy hac id target
  | moveInto id target => exact b.acyclic_moveInto hac hab id target
  | releaseOnPool id copies workers =>
      exact hac.of_loses (w.loses_releaseOnPool id copies workers)
  | pinSlice id s a =>
      rw [step, heap_pinSlice]
      exact hac
  | pinSliceFrom id s source => exact hac.of_loses (w.loses_pinSliceFrom id s source)
  | pinSelf id _ | repinSelf id | dropFront id _ | dropBack id _ =>
      rw [step, heap_adjust]
      exact hac
  | edit id e =>
      rw [step, heap_edit]
      exact hac

/-- No history closes a cycle. -/
theorem acyclic_steps (history : List Command) (hab : (steps {} history).isAborted = false) :
    (steps {} history).heap.Acyclic := by
  induction history using List.reverseRecOn with
  | nil => exact Heap.acyclic_empty
  | append_singleton before c ih =>
      rw [steps_append] at hab ⊢
      have hab := (before_steps _ [c]).isAborted hab
      exact (books_steps before hab).acyclic_step (ih hab) hab c

/-! ## Moments -/

theorem loses_lentLaunches {m : Moment} (h : Handle) {n : Nat} (hm : m ∈ w.lentLaunches h n) :
    w.heap.Loses m.cascade.heap := by
  induction n generalizing w with
  | zero => contradiction
  | succ n ih =>
      rcases List.mem_cons.mp hm with rfl | hm
      · exact .refl _
      · exact (w.loses_release h).trans (ih hm)

/-- In the course of a command that gives something up no reference is gained. -/
theorem loses_launches {m : Moment} {c : Command} (hm : m ∈ w.launches c) :
    w.heap.Loses m.cascade.heap := by
  cases c with
  | reset id | drop id | allocate id =>
      simp only [launches] at hm
      split at hm
      · rw [List.mem_singleton.mp hm]
        exact .refl _
      · contradiction
  | flush id =>
      simp only [launches] at hm
      split at hm
      · rw [List.mem_singleton.mp hm]
        exact w.loses_setTarget_nil id
      · contradiction
  | releaseOnPool id copies workers =>
      simp only [launches] at hm
      split at hm
      · next h _ =>
        split at hm
        · contradiction
        · let w₁ : World := { w with heap := w.heap.retain h copies }
          have h₁ : w.heap.Loses w₁.heap := Heap.loses_retain _ _ _
          rcases List.mem_append.mp hm with hm | hm
          · exact h₁.trans (loses_lentLaunches h hm)
          · rw [List.mem_singleton.mp hm]
            exact h₁.trans (w₁.loses_releaseTimes h copies)
      · contradiction
  | _ => contradiction

end World

/-- No moment of a history has a cycle. -/
theorem Moment.Reached.acyclic {m : Moment} {history : List Command} (h : m.Reached history) :
    m.cascade.heap.Acyclic := by
  induction h with
  | rest hab => exact World.acyclic_steps _ hab
  | @launch history c _ hm hab =>
      obtain ⟨w, hand, o, _, _, _, _, rfl, hfirst, _⟩ :=
        World.exists_of_launched (World.moves_step (World.steps {} history) c) hm
      exact (World.acyclic_steps history (hfirst.before.isAborted hab)).of_loses
        (World.loses_launches hm)
  | next _ _ ih => exact ih.of_loses (loses_next _)

end Lifespan.Cleanup
