import Lifespan.Cleanup.Heap

/-!
# What is in a heap

The entries of a heap are those of its shared chains. Every operation on a heap changes one place of
it, or adds one. A place that has been emptied stays so: numbers of chains are never used again.
-/
namespace Lifespan.Cleanup.Heap

variable {h : Heap} {c d : CellId} {s : Shared} {t : Option Shared}

/-- The entries in a place of the heap. -/
def cellChain : Option Shared → Chain
  | none => []
  | some s => s.chain

/-- The entries of all shared chains. -/
def entries (h : Heap) : Chain := h.cells.flatMap cellChain

theorem mem_entries {e : Entry} (hs : h.get? c = some s) (he : e ∈ s.chain) : e ∈ h.entries :=
  List.mem_flatMap.mpr ⟨some s, List.mem_of_getElem? (Option.join_eq_some_iff.mp hs), he⟩

theorem get?_set (hs : h.get? c = some s) (t : Option Shared) (d : CellId) :
    (h.set c t).get? d = if c = d then t else h.get? d := by
  have hlt : c < h.cells.length := by
    obtain ⟨hlt, _⟩ := List.getElem?_eq_some_iff.mp (Option.join_eq_some_iff.mp hs)
    exact hlt
  simp only [get?, set]
  by_cases hcd : c = d
  · rw [if_pos hcd, ← hcd, List.getElem?_set_self hlt, Option.join_some]
  · rw [if_neg hcd, List.getElem?_set_ne hcd]

theorem get?_set_of_ne (h : Heap) (hne : c ≠ d) (t : Option Shared) :
    (h.set c t).get? d = h.get? d := by
  simp only [get?, set, List.getElem?_set_ne hne]

theorem set_comm (h : Heap) (hne : c ≠ d) (t u : Option Shared) :
    (h.set c t).set d u = (h.set d u).set c t := by
  simp only [set, List.set_comm _ _ hne]

theorem set_set (h : Heap) (c : CellId) (t u : Option Shared) :
    (h.set c t).set c u = h.set c u := by
  simp only [set, List.set_set]

/-- What is in a place may be put there again. -/
theorem set_get? (h : Heap) (c : CellId) : h.set c (h.get? c) = h := by
  cases h with
  | mk cells =>
      simp only [set, get?]
      by_cases hlt : c < cells.length
      · rw [List.getElem?_eq_getElem hlt, Option.join_some, List.set_getElem_self]
      · rw [List.set_eq_of_length_le (Nat.le_of_not_lt hlt)]

theorem get?_allocate (h : Heap) (chain : Chain) (d : CellId) :
    (h.allocate chain).2.get? d = if d = h.cells.length then some ⟨1, chain⟩ else h.get? d := by
  simp only [get?, allocate]
  by_cases hd : d = h.cells.length
  · rw [if_pos hd, hd, List.getElem?_concat_length, Option.join_some]
  · rw [if_neg hd]
    rcases Nat.lt_or_gt_of_ne hd with hlt | hgt
    · rw [List.getElem?_append_left hlt]
    · rw [List.getElem?_eq_none (by simp; omega), List.getElem?_eq_none (Nat.le_of_lt hgt)]

theorem get?_length (h : Heap) : h.get? h.cells.length = none := by
  rw [get?, List.getElem?_eq_none (Nat.le_refl _)]
  rfl

theorem refCount_eq (h : Heap) (c : CellId) :
    h.refCount (some c) = ((h.get? c).map Shared.refs).getD 0 := rfl

theorem refCount_of_get? (hs : h.get? c = some s) : h.refCount (some c) = s.refs := by
  rw [refCount_eq, hs]
  rfl

theorem refCount_of_none (hc : h.get? c = none) : h.refCount (some c) = 0 := by
  rw [refCount_eq, hc]
  rfl

theorem exists_of_refCount_pos (hpos : 0 < h.refCount (some c)) : ∃ s, h.get? c = some s := by
  cases hs : h.get? c with
  | none => simp [refCount_eq, hs] at hpos
  | some s => exact ⟨s, rfl⟩

theorem countP_entries (h : Heap) (p : Entry → Bool) :
    h.entries.countP p = sum (h.cells.map fun x => (cellChain x).countP p) := by
  simp only [entries]
  induction h.cells with
  | nil => rfl
  | cons x rest ih => rw [List.flatMap_cons, List.countP_append, ih, List.map_cons, sum_cons]

/-- The entries in the heap after one place has changed. -/
theorem countP_entries_set (hs : h.get? c = some s) (t : Option Shared) (p : Entry → Bool) :
    (h.set c t).entries.countP p + s.chain.countP p =
      h.entries.countP p + (cellChain t).countP p := by
  rw [countP_entries, countP_entries]
  exact sum_map_set (fun x => (cellChain x).countP p) (Option.join_eq_some_iff.mp hs) t

theorem countP_entries_allocate (h : Heap) (chain : Chain) (p : Entry → Bool) :
    (h.allocate chain).2.entries.countP p = h.entries.countP p + chain.countP p := by
  simp [entries, allocate, cellChain]

/-- Giving up the last reference takes the chain out. -/
theorem release_last (hs : h.get? c = some s) (hlast : s.refs ≤ 1) :
    h.release (some c) = (s.chain, h.set c none) := by
  simp only [release, hs, if_pos hlast]

/-- Giving up any other reference leaves the chain where it is. -/
theorem release_more (hs : h.get? c = some s) (hmore : ¬ s.refs ≤ 1) :
    h.release (some c) = ([], h.set c (some { s with refs := s.refs - 1 })) := by
  simp only [release, hs, if_neg hmore]

/-- What happens in one place does not depend on what is in another. -/
theorem release_set (h : Heap) {handle : Handle} (hne : handle ≠ some d) (t : Option Shared) :
    (h.set d t).release handle = ((h.release handle).1, (h.release handle).2.set d t) := by
  cases handle with
  | none => rfl
  | some c =>
      have hdc : d ≠ c := fun heq => hne (congrArg some heq.symm)
      simp only [release, get?_set_of_ne h hdc]
      cases h.get? c with
      | none => rfl
      | some s =>
          by_cases hlast : s.refs ≤ 1
          · simp only [if_pos hlast, set_comm h hdc]
          · simp only [if_neg hlast, set_comm h hdc]

theorem get?_release_of_ne (h : Heap) {handle : Handle} (hne : handle ≠ some d) :
    (h.release handle).2.get? d = h.get? d := by
  cases handle with
  | none => rfl
  | some c =>
      have hcd : c ≠ d := fun heq => hne (congrArg some heq)
      cases hs : h.get? c with
      | none => simp only [release, hs]
      | some s =>
          by_cases hlast : s.refs ≤ 1
          · rw [release_last hs hlast, get?_set_of_ne h hcd]
          · rw [release_more hs hlast, get?_set_of_ne h hcd]

/-- What giving up a reference takes out has been in the heap. -/
theorem exists_of_mem_release {handle : Handle} {e : Entry} (he : e ∈ (h.release handle).1) :
    ∃ c s, h.get? c = some s ∧ e ∈ s.chain := by
  cases handle with
  | none => simp [release] at he
  | some c =>
      cases hs : h.get? c with
      | none => simp [release, hs] at he
      | some s =>
          by_cases hlast : s.refs ≤ 1
          · rw [release_last hs hlast] at he
            exact ⟨c, s, hs, he⟩
          · simp [release_more hs hlast] at he

/-- A shared chain is taken out just by giving up the last reference to it. -/
theorem get?_release_eq_none_iff (hs : h.get? c = some s) (handle : Handle) :
    (h.release handle).2.get? c = none ↔ handle = some c ∧ s.refs ≤ 1 := by
  cases handle with
  | none => simp [release, hs]
  | some d =>
      by_cases hdc : d = c
      · subst hdc
        by_cases hlast : s.refs ≤ 1
        · simp [release_last hs hlast, get?_set hs, hlast]
        · simp [release_more hs hlast, get?_set hs, hlast]
      · cases ht : h.get? d with
        | none => simp [release, ht, hs, hdc]
        | some t =>
            by_cases hlast : t.refs ≤ 1
            · simp [release_last ht hlast, get?_set ht, hs, hdc]
            · simp [release_more ht hlast, get?_set ht, hs, hdc]

/-- Giving up a reference leaves the entries of a shared chain as they are, unless it takes the
chain out. -/
theorem chain_of_release {handle : Handle} {s' : Shared}
    (hs' : (h.release handle).2.get? c = some s') :
    ∃ s, h.get? c = some s ∧ s.chain = s'.chain := by
  cases handle with
  | none => exact ⟨s', hs', rfl⟩
  | some d =>
      cases ht : h.get? d with
      | none =>
          simp only [release, ht] at hs'
          exact ⟨s', hs', rfl⟩
      | some t =>
          by_cases hlast : t.refs ≤ 1
          · rw [release_last ht hlast, get?_set ht] at hs'
            split at hs'
            · contradiction
            · exact ⟨s', hs', rfl⟩
          · rw [release_more ht hlast, get?_set ht] at hs'
            split at hs'
            · next hdc =>
              cases hs'
              exact ⟨t, hdc ▸ ht, rfl⟩
            · exact ⟨s', hs', rfl⟩

theorem retain_eq (hs : h.get? c = some s) (n : Nat) :
    h.retain (some c) n = h.set c (some { s with refs := s.refs + n }) := by
  simp only [retain, hs]

theorem setChain_eq (hs : h.get? c = some s) (chain : Chain) :
    h.setChain (some c) chain = h.set c (some { s with chain }) := by
  simp only [setChain, hs]

/-- A chain is exclusive when a single reference to it is counted. -/
theorem exclusive?_eq_some_iff {handle : Handle} {chain : Chain} :
    h.exclusive? handle = some chain ↔
      ∃ c s, handle = some c ∧ h.get? c = some s ∧ s.refs = 1 ∧ s.chain = chain := by
  simp only [exclusive?]
  constructor
  · intro heq
    split at heq
    · next s hs =>
      obtain ⟨c, hc, hs⟩ := Option.bind_eq_some_iff.mp hs
      split at heq
      · next hrefs => exact ⟨c, s, hc, hs, hrefs, Option.some.inj heq⟩
      · contradiction
    · contradiction
  · rintro ⟨c, s, rfl, hs, hrefs, rfl⟩
    simp only [Option.bind_some, hs, if_pos hrefs]

/-! ## Places that have been emptied -/

/-- All places of one heap are there in another, and those that are empty in it are so in the other.
-/
structure Before (h h' : Heap) : Prop where
  length_le : h.cells.length ≤ h'.cells.length
  empty : ∀ c < h.cells.length, h.get? c = none → h'.get? c = none

theorem Before.refl (h : Heap) : h.Before h := ⟨Nat.le_refl _, fun _ _ hc => hc⟩

theorem Before.trans {h' h'' : Heap} (hb : h.Before h') (hb' : h'.Before h'') : h.Before h'' :=
  ⟨Nat.le_trans hb.length_le hb'.length_le, fun c hc hnone =>
    hb'.empty c (Nat.lt_of_lt_of_le hc hb.length_le) (hb.empty c hc hnone)⟩

theorem before_set (hs : h.get? c = some s) (t : Option Shared) : h.Before (h.set c t) where
  length_le := by simp [set]
  empty d _ hd := by
    rw [get?_set hs, if_neg, hd]
    rintro rfl
    rw [hs] at hd
    contradiction

theorem before_allocate (h : Heap) (chain : Chain) : h.Before (h.allocate chain).2 where
  length_le := by simp [allocate]
  empty d hlt hd := by rw [get?_allocate, if_neg (Nat.ne_of_lt hlt), hd]

theorem before_retain (h : Heap) (handle : Handle) (n : Nat) : h.Before (h.retain handle n) := by
  simp only [retain]
  split
  · exact Before.refl h
  · split
    · exact Before.refl h
    · next hs => exact before_set hs _

theorem before_release (h : Heap) (handle : Handle) : h.Before (h.release handle).2 := by
  simp only [release]
  split
  · exact Before.refl h
  · split
    · exact Before.refl h
    · next hs =>
      split
      · exact before_set hs _
      · exact before_set hs _

theorem before_setChain (h : Heap) (handle : Handle) (chain : Chain) :
    h.Before (h.setChain handle chain) := by
  simp only [setChain]
  split
  · exact Before.refl h
  · split
    · exact Before.refl h
    · next hs => exact before_set hs _

/-! ## Giving up references -/

/-- A heap becomes another one when references are given up, one after another. -/
inductive Releases (h : Heap) : Heap → Prop where
  | refl : Releases h h
  | release {h' : Heap} (handle : Handle) : Releases h h' → Releases h (h'.release handle).2

namespace Releases

variable {h' h'' : Heap} {s' : Shared}

theorem single (h : Heap) (handle : Handle) : h.Releases (h.release handle).2 :=
  .release handle .refl

theorem trans (hr : h.Releases h') (hr' : h'.Releases h'') : h.Releases h'' := by
  induction hr' with
  | refl => exact hr
  | release handle _ ih => exact ih.release handle

theorem before (hr : h.Releases h') : h.Before h' := by
  induction hr with
  | refl => exact .refl h
  | @release h' handle _ ih => exact ih.trans (h'.before_release handle)

/-- What is left has the entries that it had. -/
theorem chain (hr : h.Releases h') (hs' : h'.get? c = some s') :
    ∃ s, h.get? c = some s ∧ s.chain = s'.chain := by
  induction hr generalizing s' with
  | refl => exact ⟨s', hs', rfl⟩
  | release handle _ ih =>
      obtain ⟨t, ht, hchain⟩ := chain_of_release hs'
      obtain ⟨s, hs, hchain'⟩ := ih ht
      exact ⟨s, hs, hchain'.trans hchain⟩

end Releases

end Lifespan.Cleanup.Heap
