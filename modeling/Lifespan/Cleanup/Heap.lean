import Lifespan.Cleanup.Entry
import Lifespan.Sum

/-!
# Shared chains

A heap holds chains that are referred to by handles and by entries of other chains. Each one counts
its references. Whoever gives up the last reference takes the chain out of the heap and has to
carry out its entries. Numbers of chains are never used again.

An object that is moved into an entry is kept here too, as a chain with a single reference, which
that entry holds.
-/

namespace Lifespan.Cleanup

/-- A chain with the number of references to it. -/
structure Shared where
  refs : Nat
  chain : Chain
deriving DecidableEq, Repr

/-- Shared chains by number; `none` where a chain has been taken out. -/
structure Heap where
  cells : List (Option Shared) := []
deriving DecidableEq, Repr

namespace Heap

/-- The shared chain with a number, if it is in the heap. -/
def get? (h : Heap) (c : CellId) : Option Shared := h.cells[c]?.join

/-- The heap with a shared chain put in the place of another. -/
def set (h : Heap) (c : CellId) (s : Option Shared) : Heap := ⟨h.cells.set c s⟩

/-- Puts a chain with a single reference into the heap. -/
def allocate (h : Heap) (chain : Chain) : CellId × Heap :=
  (h.cells.length, ⟨h.cells ++ [some ⟨1, chain⟩]⟩)

/-- Counts `n` more references to what a handle refers to. -/
def retain (h : Heap) (handle : Handle) (n : Nat) : Heap :=
  match handle with
  | none => h
  | some c =>
    match h.get? c with
    | none => h
    | some s => h.set c (some { s with refs := s.refs + n })

/-- Gives up the reference of a handle. If it was the last one, the chain leaves the heap and its
entries are now to be carried out. -/
def release (h : Heap) (handle : Handle) : Chain × Heap :=
  match handle with
  | none => ([], h)
  | some c =>
    match h.get? c with
    | none => ([], h)
    | some s =>
      if s.refs ≤ 1 then (s.chain, h.set c none)
      else ([], h.set c (some { s with refs := s.refs - 1 }))

/-- The number of references to what a handle refers to; zero for a handle without reference. -/
def refCount (h : Heap) (handle : Handle) : Nat :=
  ((handle.bind h.get?).map Shared.refs).getD 0

/-- The chain of a handle, if there is no other reference to it. -/
def exclusive? (h : Heap) (handle : Handle) : Option Chain :=
  match handle.bind h.get? with
  | some s => if s.refs = 1 then some s.chain else none
  | none => none

/-- The heap with another chain in the place of the one that a handle refers to. -/
def setChain (h : Heap) (handle : Handle) (chain : Chain) : Heap :=
  match handle with
  | none => h
  | some c =>
    match h.get? c with
    | none => h
    | some s => h.set c (some { s with chain })

/-- The number of entries of a cell. -/
def cellWeight : Option Shared → Nat
  | none => 0
  | some s => s.chain.length

/-- The number of entries of all shared chains. -/
def weight (h : Heap) : Nat := sum (h.cells.map cellWeight)

/-! ## Weights -/

theorem weight_set {h : Heap} {c : CellId} {s : Shared} (hc : h.get? c = some s)
    (t : Option Shared) : (h.set c t).weight + s.chain.length = h.weight + cellWeight t :=
  sum_map_set cellWeight (Option.join_eq_some_iff.1 hc) t

/-- Giving up a reference neither makes nor loses an entry: those that leave the heap are the ones
that are now to be carried out. -/
theorem length_release_add_weight (h : Heap) (handle : Handle) :
    (h.release handle).1.length + (h.release handle).2.weight = h.weight := by
  unfold release
  split
  · simp
  · split
    · simp
    · next s hs =>
      split
      · have := weight_set hs none
        simp only [cellWeight] at this
        simp only; omega
      · have := weight_set hs (some { s with refs := s.refs - 1 })
        simp only [cellWeight] at this
        simp only [List.length_nil]; omega

end Heap

end Lifespan.Cleanup
