import Lifespan.Cleanup.World
import Lifespan.Proofs.Cleanup.Heap

/-!
# The ledger of entries and references

A ledger is kept of a heap, the objects that lie outside it, the entries that have ended and the
entries that were issued. It is right when every issued entry either belongs to an object, or is in
the heap, or has ended, and when the heap counts as many references to each of its chains as there
are handles and pending entries that own one. What an operation has taken out of one place and not
yet put into another counts as an object, so that each single move keeps the ledger right.
-/
namespace Lifespan.Cleanup

/-- Whether an entry owns a reference to a shared chain. -/
def Entry.owns (c : CellId) (e : Entry) : Bool := decide (e.duty = .giveUp (some c))

/-- What a duty holds until it is done: a reference, or nothing. -/
def Duty.stake : Duty → Object
  | .perform _ => .chain []
  | .giveUp h => .handle h

/-- The entries that belong to an object itself. -/
def Object.own : Object → Chain
  | .chain entries => entries
  | .handle _ => []
  | .pinnable p => p.cleanups

theorem Entry.owns_iff {c : CellId} {e : Entry} :
    e.owns c ↔ e.duty.stake = .handle (some c) := by
  obtain ⟨ticket, duty⟩ := e
  cases duty <;> simp [owns, Duty.stake]

theorem Duty.own_stake (d : Duty) : d.stake.own = [] := by
  cases d <;> rfl

theorem Object.own_emptied (o : Object) : o.emptied.own = [] := by
  cases o <;> rfl

theorem Object.emptied_ne (o : Object) (c : CellId) : o.emptied ≠ .handle (some c) := by
  cases o <;> simp [emptied]

/-! ## Lists of objects -/

theorem countP_own_cons (p : Entry → Bool) (o : Object) (os : List Object) :
    ((o :: os).flatMap Object.own).countP p =
      o.own.countP p + (os.flatMap Object.own).countP p := by
  rw [List.flatMap_cons, List.countP_append]

theorem count_handle_cons (c : CellId) (o : Object) (os : List Object) :
    (o :: os).count (.handle (some c)) =
      os.count (.handle (some c)) + if o = .handle (some c) then 1 else 0 := by
  simp only [List.count_cons, beq_iff_eq]

theorem count_chain_cons (c : CellId) (es : Chain) (os : List Object) :
    (.chain es :: os).count (.handle (some c)) = os.count (.handle (some c)) := by
  rw [count_handle_cons, if_neg Object.noConfusion, Nat.add_zero]

theorem countP_owns_cons (c : CellId) (e : Entry) (es : Chain) :
    (e :: es).countP (Entry.owns c) =
      es.countP (Entry.owns c) + if e.duty.stake = .handle (some c) then 1 else 0 := by
  simp only [List.countP_cons, Entry.owns_iff]

/-! ## Ledgers -/

/-- The entries add up, and the counts of references are right. -/
structure Ledger (heap : Heap) (objects : List Object) (ended issued : List Entry) : Prop where
  entries : ∀ p, (objects.flatMap Object.own).countP p + heap.entries.countP p + ended.countP p =
    issued.countP p
  counted : ∀ c, heap.refCount (some c) = objects.count (.handle (some c)) +
    (objects.flatMap Object.own).countP (Entry.owns c) + heap.entries.countP (Entry.owns c)
  refs_pos : ∀ c s, heap.get? c = some s → 0 < s.refs

namespace Ledger

variable {heap : Heap} {objects objects' os : List Object} {ended issued : List Entry}
  {h : Handle} {c : CellId} {s : Shared} {e : Entry} {es : Chain} {p : Pinnable}

/-- Only the entries and the references of the objects count. -/
theorem regroup (l : Ledger heap objects ended issued)
    (hown : ∀ p, (objects'.flatMap Object.own).countP p = (objects.flatMap Object.own).countP p)
    (hrefs : ∀ c, objects'.count (.handle (some c)) = objects.count (.handle (some c))) :
    Ledger heap objects' ended issued where
  entries p := by rw [hown, l.entries]
  counted c := by rw [hown, hrefs, l.counted]
  refs_pos := l.refs_pos

theorem perm (l : Ledger heap objects ended issued) (h : objects.Perm objects') :
    Ledger heap objects' ended issued :=
  l.regroup (fun p => (h.symm.flatMap_right _).countP_eq p) fun _ => h.symm.count_eq _

/-- An empty chain counts for nothing. -/
theorem empty_cons_iff :
    Ledger heap (.chain [] :: os) ended issued ↔ Ledger heap os ended issued := by
  have hown (p : Entry → Bool) : ((.chain [] :: os).flatMap Object.own).countP p =
      (os.flatMap Object.own).countP p := by
    rw [countP_own_cons, Object.own, List.countP_nil, Nat.zero_add]
  exact ⟨fun l => l.regroup (fun p => (hown p).symm) fun c => (count_chain_cons c [] os).symm,
    fun l => l.regroup hown fun c => count_chain_cons c [] os⟩

/-- Two chains count for as much as one chain of their entries. -/
theorem append_cons_iff {fs : Chain} : Ledger heap (.chain (es ++ fs) :: os) ended issued ↔
    Ledger heap (.chain es :: .chain fs :: os) ended issued := by
  have hown (p : Entry → Bool) : ((.chain (es ++ fs) :: os).flatMap Object.own).countP p =
      ((.chain es :: .chain fs :: os).flatMap Object.own).countP p := by
    simp only [countP_own_cons, Object.own, List.countP_append, Nat.add_assoc]
  have hrefs (c : CellId) : (.chain (es ++ fs) :: os).count (.handle (some c)) =
      (.chain es :: .chain fs :: os).count (.handle (some c)) := by
    simp only [count_chain_cons]
  exact ⟨fun l => l.regroup (fun p => (hown p).symm) fun c => (hrefs c).symm,
    fun l => l.regroup hown hrefs⟩

/-- Of a pinnable slice only the chain counts. -/
theorem cleanups (l : Ledger heap (.pinnable p :: os) ended issued) :
    Ledger heap (.chain p.cleanups :: os) ended issued := by
  refine l.regroup (fun q => ?_) fun c => ?_
  · rw [countP_own_cons, countP_own_cons]
    rfl
  · rw [count_chain_cons, count_handle_cons, if_neg Object.noConfusion, Nat.add_zero]

/-- The order of entries does not count. -/
theorem rearrange (l : Ledger heap (.chain es :: os) ended issued) {fs : Chain} (h : es.Perm fs) :
    Ledger heap (.chain fs :: os) ended issued := by
  refine l.regroup (fun p => ?_) fun c => ?_
  · rw [countP_own_cons, countP_own_cons, Object.own, Object.own, h.countP_eq]
  · rw [count_chain_cons, count_chain_cons]

/-- What has been reset counts for nothing. -/
theorem emptied_cons (l : Ledger heap os ended issued) (o : Object) :
    Ledger heap (o.emptied :: os) ended issued := by
  refine l.regroup (fun p => ?_) fun c => ?_
  · rw [countP_own_cons, Object.own_emptied, List.countP_nil, Nat.zero_add]
  · rw [count_handle_cons, if_neg (o.emptied_ne c), Nat.add_zero]

/-- What a handle outside the heap refers to is in the heap. -/
theorem exists_of_mem (l : Ledger heap objects ended issued)
    (hc : .handle (some c) ∈ objects) : ∃ s, heap.get? c = some s := by
  have hcount : 0 < objects.count (.handle (some c)) := List.count_pos_iff.mpr hc
  have := l.counted c
  exact Heap.exists_of_refCount_pos (by omega)

/-- A new entry takes over what its duty holds. -/
theorem issue {duty : Duty} (l : Ledger heap (duty.stake :: os) ended issued) (ticket : Nat) :
    Ledger heap (.chain [⟨ticket, duty⟩] :: os) ended (issued ++ [⟨ticket, duty⟩]) where
  entries p := by
    have h := l.entries p
    rw [countP_own_cons, Duty.own_stake, List.countP_nil] at h
    rw [countP_own_cons, Object.own, List.countP_append]
    omega
  counted c := by
    have h := l.counted c
    rw [countP_own_cons, Duty.own_stake, List.countP_nil, count_handle_cons] at h
    rw [countP_own_cons, Object.own, countP_owns_cons, List.countP_nil, count_chain_cons]
    dsimp only
    omega
  refs_pos := l.refs_pos

/-- An entry that ends leaves behind what its duty holds. -/
theorem finish (l : Ledger heap (.chain (e :: es) :: os) ended issued) :
    Ledger heap (e.duty.stake :: .chain es :: os) (ended ++ [e]) issued where
  entries p := by
    have h := l.entries p
    rw [countP_own_cons, Object.own, List.countP_cons] at h
    rw [countP_own_cons, countP_own_cons, Duty.own_stake, Object.own, List.countP_nil,
      List.countP_append, List.countP_singleton]
    omega
  counted c := by
    have h := l.counted c
    rw [countP_own_cons, Object.own, countP_owns_cons, count_chain_cons] at h
    rw [countP_own_cons, countP_own_cons, Duty.own_stake, Object.own, List.countP_nil,
      count_handle_cons, count_chain_cons]
    omega
  refs_pos := l.refs_pos

/-- A chain goes into the heap, and a handle to it comes out. -/
theorem allocate (l : Ledger heap (.chain es :: os) ended issued) :
    Ledger (heap.allocate es).2 (.handle (some (heap.allocate es).1) :: os) ended issued where
  entries p := by
    have h := l.entries p
    rw [countP_own_cons, Object.own] at h
    rw [Heap.countP_entries_allocate, countP_own_cons, Object.own, List.countP_nil]
    omega
  counted c := by
    have h := l.counted c
    rw [countP_own_cons, Object.own, count_chain_cons, Heap.refCount_eq] at h
    rw [Heap.countP_entries_allocate, countP_own_cons, Object.own, List.countP_nil,
      count_handle_cons, Heap.refCount_eq, Heap.get?_allocate]
    by_cases hc : c = heap.cells.length
    · -- Nothing refers to the place that the heap did not have before.
      rw [hc, Heap.get?_length] at h
      rw [if_pos hc, if_pos (by rw [hc]; rfl), hc]
      simp only [Option.map_some, Option.map_none, Option.getD_some, Option.getD_none] at h ⊢
      omega
    · have hne : Object.handle (some (heap.allocate es).1) ≠ .handle (some c) := by
        intro heq
        cases heq
        exact hc rfl
      rw [if_neg hc, if_neg hne]
      omega
  refs_pos c s hs := by
    rw [Heap.get?_allocate] at hs
    split at hs
    · cases hs
      exact Nat.one_pos
    · exact l.refs_pos c s hs

/-- Another shared chain in the place of one, if the entries and the references still add up. -/
theorem set (l : Ledger heap objects ended issued) (hs : heap.get? c = some s) {t : Option Shared}
    (hentries : ∀ p, (objects'.flatMap Object.own).countP p + (Heap.cellChain t).countP p =
      (objects.flatMap Object.own).countP p + s.chain.countP p)
    (hrefs : (t.map Shared.refs).getD 0 + objects.count (.handle (some c)) =
      s.refs + objects'.count (.handle (some c)))
    (hothers : ∀ d, c ≠ d → objects'.count (.handle (some d)) = objects.count (.handle (some d)))
    (hpos : ∀ s', t = some s' → 0 < s'.refs) :
    Ledger (heap.set c t) objects' ended issued where
  entries p := by
    have h := l.entries p
    have hset := Heap.countP_entries_set hs t p
    have := hentries p
    omega
  counted d := by
    have h := l.counted d
    have hset := Heap.countP_entries_set hs t (Entry.owns d)
    have := hentries (Entry.owns d)
    rw [Heap.refCount_eq, Heap.get?_set hs]
    by_cases hcd : c = d
    · subst hcd
      rw [Heap.refCount_of_get? hs] at h
      rw [if_pos rfl]
      omega
    · have := hothers d hcd
      rw [Heap.refCount_eq] at h
      rw [if_neg hcd]
      omega
  refs_pos d s' hs' := by
    rw [Heap.get?_set hs] at hs'
    split at hs'
    · exact hpos s' hs'
    · exact l.refs_pos d s' hs'

/-- New references to a shared chain make new handles. -/
theorem retain (l : Ledger heap os ended issued) (hs : heap.get? c = some s) (n : Nat) :
    Ledger (heap.retain (some c) n) (List.replicate n (.handle (some c)) ++ os) ended issued := by
  have hpos := l.refs_pos c s hs
  rw [Heap.retain_eq hs]
  refine l.set hs ?_ ?_ ?_ ?_
  · intro p
    simp [List.flatMap_append, List.flatMap_replicate, Object.own, Heap.cellChain]
  · simp [List.count_append]
    omega
  · intro d hd
    simp [List.count_append, List.count_replicate, hd]
  · rintro _ ⟨⟩
    exact Nat.add_pos_left hpos n

/-- Giving up a reference takes out a chain, which may be empty. -/
theorem release (l : Ledger heap (.handle h :: os) ended issued) :
    Ledger (heap.release h).2 (.chain (heap.release h).1 :: os) ended issued := by
  cases h with
  | none =>
      refine l.regroup (fun p => ?_) (fun c => ?_)
      · rw [countP_own_cons, countP_own_cons]
        rfl
      · rw [count_chain_cons, count_handle_cons, if_neg (by simp), Nat.add_zero]
  | some c =>
      obtain ⟨s, hs⟩ := l.exists_of_mem List.mem_cons_self
      have hpos := l.refs_pos c s hs
      have hself (es : Chain) : (.handle (some c) :: os).count (.handle (some c)) =
          (.chain es :: os).count (.handle (some c)) + 1 := by
        rw [count_chain_cons, count_handle_cons, if_pos rfl]
      have hothers (es : Chain) (d : CellId) (hd : c ≠ d) :
          (.chain es :: os).count (.handle (some d)) =
            (.handle (some c) :: os).count (.handle (some d)) := by
        rw [count_chain_cons, count_handle_cons, if_neg (by simp [hd]), Nat.add_zero]
      by_cases hlast : s.refs ≤ 1
      · rw [Heap.release_last hs hlast]
        dsimp only
        refine l.set hs (fun p => ?_) ?_ (hothers _) (by rintro _ ⟨⟩)
        · rw [countP_own_cons, countP_own_cons]
          simp only [Object.own, Heap.cellChain, List.countP_nil]
          omega
        · rw [hself s.chain, Option.map_none, Option.getD_none]
          omega
      · rw [Heap.release_more hs hlast]
        dsimp only
        refine l.set hs (fun p => ?_) ?_ (hothers _) ?_
        · rw [countP_own_cons, countP_own_cons]
          rfl
        · rw [hself [], Option.map_some, Option.getD_some]
          dsimp only
          omega
        · rintro _ ⟨⟩
          dsimp only
          omega

/-- An object that is given up frees what it holds. -/
theorem freed {o : Object} (l : Ledger heap (o :: os) ended issued) :
    Ledger (o.freed heap).2 (.chain (o.freed heap).1 :: os) ended issued := by
  cases o with
  | chain entries => exact l
  | handle h => exact l.release
  | pinnable p => exact l.cleanups

end Ledger

end Lifespan.Cleanup
