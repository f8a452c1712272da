import Lifespan.Cleanup.Command
import Lifespan.Proofs.Cleanup.Ledger

/-!
# Objects by name

As long as names differ, an object is at one place in the list of objects, so putting another one in
its place, taking it away and adding a new one change the objects of a world by just that one. In
the same way, the entries at an object are one chain, wherever they are kept.
-/
namespace Lifespan.Cleanup

/-- The entries at an object, also if the chain is shared. -/
def Object.entriesIn? (heap : Heap) : Object → Option Chain
  | .chain entries => some entries
  | .handle h => (h.bind heap.get?).map Shared.chain
  | .pinnable p => some p.cleanups

/-- A target chain holds the entries at its object. -/
theorem Object.entriesIn?_of_target? {heap : Heap} {o : Object} {es : Chain}
    (h : o.target? heap = some es) : o.entriesIn? heap = some es := by
  cases o with
  | chain entries => exact h
  | pinnable p => exact h
  | handle handle =>
      obtain ⟨c, s, rfl, hs, _, rfl⟩ := Heap.exclusive?_eq_some_iff.mp h
      exact congrArg (Option.map Shared.chain) hs

namespace World

variable {w w' w'' : World} {id id' : String} {o o' : Object} {es es' : Chain}

/-- The objects without their names. -/
def held (w : World) : List Object := w.objects.map Prod.snd

/-- The names of the objects. -/
def names (w : World) : List String := w.objects.map Prod.fst

/-- The pending entries: those of the objects themselves, and those of the shared chains. -/
def pending (w : World) : Chain := w.held.flatMap Object.own ++ w.heap.entries

/-- The entries at the object with a name, also if the chain is shared. -/
def entriesAt? (w : World) (id : String) : Option Chain :=
  (w.find? id).bind (·.entriesIn? w.heap)

theorem entriesAt?_of_target? (h : w.target? id = some es) : w.entriesAt? id = some es := by
  obtain ⟨o, ho, htarget⟩ := Option.bind_eq_some_iff.mp h
  exact Option.bind_eq_some_iff.mpr ⟨o, ho, Object.entriesIn?_of_target? htarget⟩

/-! ## One object in the place of another -/

/-- An object is at one place. -/
theorem exists_split (hn : w.names.Nodup) (h : w.find? id = some o) :
    ∃ before after, w.objects = before ++ (id, o) :: after ∧ (∀ x ∈ before, x.1 ≠ id) ∧
      ∀ x ∈ after, x.1 ≠ id := by
  obtain ⟨before, after, heq, hbefore⟩ := List.lookup_eq_some_iff.mp h
  refine ⟨before, after, heq, ?_, ?_⟩
  · intro x hx
    exact fun heq => by simpa [heq] using hbefore x hx
  · intro x hx hid
    rw [names, heq, List.map_append, List.map_cons] at hn
    have hafter := (List.nodup_append.mp hn).2.1
    exact (List.nodup_cons.mp hafter).1 (List.mem_map.mpr ⟨x, hx, hid⟩)

theorem objects_put {before after : List (String × Object)}
    (heq : w.objects = before ++ (id, o) :: after) (hbefore : ∀ x ∈ before, x.1 ≠ id)
    (hafter : ∀ x ∈ after, x.1 ≠ id) (o' : Object) :
    (w.put id o').objects = before ++ (id, o') :: after := by
  have hsame : ∀ l : List (String × Object), (∀ x ∈ l, x.1 ≠ id) →
      (l.map fun x => if x.1 = id then (id, o') else x) = l := by
    intro l hl
    exact (List.map_congr_left fun x hx => if_neg (hl x hx)).trans (List.map_id' l)
  simp only [put, heq, List.map_append, List.map_cons, if_true, hsame before hbefore,
    hsame after hafter]

theorem objects_erase {before after : List (String × Object)}
    (heq : w.objects = before ++ (id, o) :: after) (hbefore : ∀ x ∈ before, x.1 ≠ id)
    (hafter : ∀ x ∈ after, x.1 ≠ id) : (w.erase id).objects = before ++ after := by
  have hsame : ∀ l : List (String × Object), (∀ x ∈ l, x.1 ≠ id) →
      (l.filter fun x => decide (x.1 ≠ id)) = l := by
    intro l hl
    exact List.filter_eq_self.mpr fun x hx => decide_eq_true (hl x hx)
  have hself : ¬ decide (id ≠ id) = true := by simp
  simp only [erase, heq, List.filter_append, List.filter_cons, if_neg hself, hsame before hbefore,
    hsame after hafter]

theorem perm_put (hn : w.names.Nodup) (h : w.find? id = some o) (o' : Object) :
    (o :: (w.put id o').held).Perm (o' :: w.held) := by
  obtain ⟨before, after, heq, hbefore, hafter⟩ := exists_split hn h
  rw [held, held, objects_put heq hbefore hafter, heq]
  simp only [List.map_append, List.map_cons]
  exact ((List.perm_middle.cons o).trans (List.Perm.swap o' o _)).trans
    (List.perm_middle.symm.cons o')

theorem perm_erase (hn : w.names.Nodup) (h : w.find? id = some o) :
    (o :: (w.erase id).held).Perm w.held := by
  obtain ⟨before, after, heq, hbefore, hafter⟩ := exists_split hn h
  rw [held, held, objects_erase heq hbefore hafter, heq]
  simp only [List.map_append, List.map_cons]
  exact List.perm_middle.symm

@[simp] theorem held_insert (w : World) (id : String) (o : Object) :
    (w.insert id o).held = w.held ++ [o] := by
  simp [held, insert]

theorem names_put (hn : w.names.Nodup) (h : w.find? id = some o) (o' : Object) :
    (w.put id o').names = w.names := by
  obtain ⟨before, after, heq, hbefore, hafter⟩ := exists_split hn h
  rw [names, names, objects_put heq hbefore hafter, heq]
  simp only [List.map_append, List.map_cons]

theorem nodup_names_erase (hn : w.names.Nodup) (id : String) : (w.erase id).names.Nodup :=
  hn.sublist (List.filter_sublist.map _)

theorem nodup_names_insert (hn : w.names.Nodup) (h : w.isFree id) (o : Object) :
    (w.insert id o).names.Nodup := by
  rw [names, insert, List.map_append]
  refine List.nodup_append.mpr ⟨hn, by simp, ?_⟩
  rintro _ hmem _ hid rfl
  obtain ⟨x, hx, rfl⟩ := List.mem_map.mp hmem
  have := List.lookup_eq_none_iff.mp (Option.isNone_iff_eq_none.mp h) x hx
  simp_all

theorem find?_put_self (h : w.find? id = some o) (o' : Object) :
    (w.put id o').find? id = some o' := by
  simp only [find?, put] at *
  induction hl : w.objects generalizing w with
  | nil =>
      rw [hl] at h
      contradiction
  | cons x rest ih =>
      obtain ⟨k, v⟩ := x
      by_cases hk : k = id
      · simp [hk]
      · have hbeq : (id == k) = false := beq_eq_false_iff_ne.mpr (Ne.symm hk)
        rw [hl, List.lookup_cons, hbeq] at h
        have ih := ih (w := { w with objects := rest }) h rfl
        simpa only [List.map_cons, if_neg hk, List.lookup_cons, hbeq] using ih

theorem find?_put_ne (w : World) (o' : Object) (hne : id' ≠ id) :
    (w.put id o').find? id' = w.find? id' := by
  simp only [find?, put]
  induction w.objects with
  | nil => rfl
  | cons x rest ih =>
      obtain ⟨k, o⟩ := x
      rw [List.map_cons]
      by_cases hk : k = id
      · have hbeq : (id' == id) = false := beq_eq_false_iff_ne.mpr hne
        simp only [hk, if_true, List.lookup_cons, hbeq, ih]
      · simp only [if_neg hk, List.lookup_cons, ih]

theorem target?_of_find? (ho : w.find? id = some o) : w.target? id = o.target? w.heap := by
  rw [target?, ho, Option.bind_some]

/-- What has been put at an object with a target chain is its target chain. -/
theorem target?_setTarget (ht : w.target? id = some es) (es' : Chain) :
    (w.setTarget id es').target? id = some es' := by
  obtain ⟨o, ho, hes⟩ := Option.bind_eq_some_iff.mp ht
  simp only [setTarget, ho]
  cases o with
  | chain entries => exact target?_of_find? (find?_put_self ho _)
  | pinnable p => exact target?_of_find? (find?_put_self ho _)
  | handle h =>
      obtain ⟨d, s, rfl, hs, hrefs, -⟩ := Heap.exclusive?_eq_some_iff.mp hes
      have hs' : (w.heap.setChain (some d) es').get? d = some { s with chain := es' } := by
        rw [Heap.setChain_eq hs, Heap.get?_set hs, if_pos rfl]
      exact Option.bind_eq_some_iff.mpr
        ⟨_, ho, Heap.exclusive?_eq_some_iff.mpr ⟨d, _, rfl, hs', hrefs, rfl⟩⟩

theorem log_setTarget (w : World) (id : String) (entries : Chain) :
    (w.setTarget id entries).log = w.log := by
  simp only [setTarget]
  split <;> rfl

theorem isAborted_setTarget (w : World) (id : String) (entries : Chain) :
    (w.setTarget id entries).isAborted = w.isAborted := by
  simp only [setTarget]
  split <;> rfl

theorem find?_erase_ne (w : World) (hne : id' ≠ id) : (w.erase id).find? id' = w.find? id' := by
  simp only [find?, erase]
  induction w.objects with
  | nil => rfl
  | cons x rest ih =>
      obtain ⟨k, o⟩ := x
      by_cases hk : k = id
      · have hbeq : (id' == id) = false := beq_eq_false_iff_ne.mpr hne
        have hself : ¬ decide (id ≠ id) = true := by simp
        simp only [hk, List.filter_cons, if_neg hself, List.lookup_cons, hbeq, ih]
      · have hkeep : decide (k ≠ id) = true := decide_eq_true hk
        simp only [List.filter_cons, if_pos hkeep, List.lookup_cons, ih]

/-! ## One chain in the place of another -/

/-- One chain of entries has become another one, and nothing else has changed. -/
structure Swapped (w w' : World) (es es' : Chain) : Prop where
  names : w'.names = w.names
  pending : ∀ p, w'.pending.countP p + es.countP p = w.pending.countP p + es'.countP p
  handles : ∀ c, w'.held.count (.handle (some c)) = w.held.count (.handle (some c))
  refs : ∀ c, (w'.heap.get? c).map Shared.refs = (w.heap.get? c).map Shared.refs
  log : w'.log = w.log
  nextTicket : w'.nextTicket = w.nextTicket

/-- Two chains, one after the other. -/
theorem Swapped.append {fs fs' : Chain} (h : w.Swapped w' es es') (h' : w'.Swapped w'' fs fs') :
    w.Swapped w'' (es ++ fs) (es' ++ fs') where
  names := h'.names.trans h.names
  pending p := by
    have := h.pending p
    have := h'.pending p
    rw [List.countP_append, List.countP_append]
    omega
  handles c := (h'.handles c).trans (h.handles c)
  refs c := (h'.refs c).trans (h.refs c)
  log := h'.log.trans h.log
  nextTicket := h'.nextTicket.trans h.nextTicket

/-- An object that is no handle in the place of another such. -/
theorem swapped_put (hn : w.names.Nodup) (h : w.find? id = some o) (ho : o.isHandle = false)
    (ho' : o'.isHandle = false) : w.Swapped (w.put id o') o.own o'.own where
  names := names_put hn h o'
  pending p := by
    have hperm := ((perm_put hn h o').flatMap_right Object.own).countP_eq p
    rw [countP_own_cons, countP_own_cons] at hperm
    have hheap : (w.put id o').heap = w.heap := rfl
    rw [pending, pending, List.countP_append, List.countP_append, hheap]
    omega
  handles c := by
    have hperm := (perm_put hn h o').count_eq (.handle (some c))
    rw [count_handle_cons, count_handle_cons, if_neg (by rintro rfl; contradiction),
      if_neg (by rintro rfl; contradiction)] at hperm
    exact hperm
  refs c := rfl
  log := rfl
  nextTicket := rfl

/-- Other entries at an object. -/
theorem swapped_setTarget (hn : w.names.Nodup) (h : w.entriesAt? id = some es) (es' : Chain) :
    w.Swapped (w.setTarget id es') es es' := by
  obtain ⟨o, ho, hentries⟩ := Option.bind_eq_some_iff.mp h
  simp only [setTarget]
  rw [ho]
  cases o with
  | chain entries =>
      cases hentries
      exact swapped_put hn ho rfl rfl
  | pinnable p =>
      cases hentries
      exact swapped_put hn ho rfl rfl
  | handle handle =>
      obtain ⟨s, hbind, rfl⟩ := Option.map_eq_some_iff.mp hentries
      obtain ⟨c, rfl, hs⟩ := Option.bind_eq_some_iff.mp hbind
      dsimp only
      rw [Heap.setChain_eq hs]
      refine ⟨rfl, fun p => ?_, fun _ => rfl, fun d => ?_, rfl, rfl⟩
      · have hset := Heap.countP_entries_set hs (some { s with chain := es' }) p
        simp only [Heap.cellChain] at hset
        simp only [pending, held, List.countP_append]
        omega
      · dsimp only
        rw [Heap.get?_set hs]
        split
        · next hcd => rw [← hcd, hs, Option.map_some, Option.map_some]
        · rfl

end World

end Lifespan.Cleanup
