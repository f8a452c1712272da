import Lifespan.Proofs.Memory.Cell

/-!
# What is known of cells

What was last stored in each cell of a range, kept without regard to addresses: storing cells from
an offset on changes what is known of them and nothing else. A memory shows it from an address on if
it has all that is known there. Writing the same cells to the memory goes on showing it, and so does
any write elsewhere.
-/
namespace Lifespan

/-- What is known of the cells of a range: what was last stored in each of them, if anything was. -/
abbrev Content := List (Option Cell)

namespace Content

variable {k : Content} {cells : List Cell} {offset start i n : Nat} {m m' : Memory}

/-- Nothing is known of `n` cells. -/
def unknown (n : Nat) : Content := List.replicate n none

/-- The content after cells have been stored from an offset on, if they fit. -/
def store (k : Content) (offset : Nat) (cells : List Cell) : Content :=
  if offset + cells.length ≤ k.length then
    k.take offset ++ cells.map some ++ k.drop (offset + cells.length)
  else k

/-- The first `n` cells are known. -/
def Known (k : Content) (n : Nat) : Prop := ∀ i < n, ∃ c, k[i]? = some (some c)

/-- From an address on, a memory has all that is known. -/
def ShownBy (k : Content) (m : Memory) (start : Nat) : Prop :=
  ∀ i c, k[i]? = some (some c) → m.read (start + i) = c

@[simp] theorem length_store (k : Content) (offset : Nat) (cells : List Cell) :
    (k.store offset cells).length = k.length := by
  rw [store]
  split
  · simp only [List.length_append, List.length_take, List.length_map, List.length_drop]
    omega
  · rfl

theorem getElem?_store_of_lt (hfit : offset + cells.length ≤ k.length) (hi : i < cells.length) :
    (k.store offset cells)[offset + i]? = some (some cells[i]) := by
  have htake : (k.take offset).length = offset := List.length_take_of_le (by omega)
  rw [store, if_pos hfit, List.append_assoc, List.getElem?_append_right (by omega), htake,
    Nat.add_sub_cancel_left, List.getElem?_append_left (by rwa [List.length_map]),
    List.getElem?_map, List.getElem?_eq_getElem hi, Option.map_some]

theorem getElem?_store_of_outside (k : Content) (hi : i < offset ∨ offset + cells.length ≤ i) :
    (k.store offset cells)[i]? = k[i]? := by
  rw [store]
  split
  · next hfit =>
    have htake : (k.take offset).length = offset := List.length_take_of_le (by omega)
    rcases hi with hi | hi
    · rw [List.append_assoc, List.getElem?_append_left (by omega), List.getElem?_take_of_lt hi]
    · rw [List.getElem?_append_right (by simp only [List.length_append, List.length_map]; omega),
        List.length_append, htake, List.length_map, List.getElem?_drop]
      congr 1
      omega
  · rfl

/-- What is known stays known. -/
theorem Known.store (h : k.Known n) (offset : Nat) (cells : List Cell) :
    (k.store offset cells).Known n := by
  intro i hi
  by_cases hfit : offset + cells.length ≤ k.length
  · by_cases hin : offset ≤ i ∧ i < offset + cells.length
    · obtain ⟨j, rfl⟩ := Nat.exists_eq_add_of_le hin.1
      exact ⟨_, getElem?_store_of_lt hfit (by omega)⟩
    · rw [getElem?_store_of_outside k (by omega)]
      exact h i hi
  · rw [Content.store, if_neg hfit]
    exact h i hi

/-- What is stored at the start becomes known. -/
theorem known_store_zero (hfit : cells.length ≤ k.length) (hn : n ≤ cells.length) :
    (k.store 0 cells).Known n := by
  intro i hi
  have hfit : 0 + cells.length ≤ k.length := by omega
  have h := getElem?_store_of_lt hfit (Nat.lt_of_lt_of_le hi hn)
  rw [Nat.zero_add] at h
  exact ⟨_, h⟩

theorem Known.max (h : k.Known n) {n' : Nat} (h' : k.Known n') : k.Known (max n n') := by
  intro i hi
  rcases Nat.lt_or_ge i n with hlt | hge
  · exact h i hlt
  · exact h' i (by omega)

theorem shownBy_unknown (n : Nat) (m : Memory) (start : Nat) : (unknown n).ShownBy m start := by
  intro i c h
  have := List.mem_of_getElem? h
  simp [unknown] at this

/-- A content that is stored is written. -/
theorem ShownBy.store (h : k.ShownBy m start) (hfit : offset + cells.length ≤ k.length)
    (hread : m'.read = (m.write (start + offset) cells).read) :
    (k.store offset cells).ShownBy m' start := by
  intro i c hi
  rw [hread]
  by_cases hin : offset ≤ i ∧ i < offset + cells.length
  · obtain ⟨j, rfl⟩ := Nat.exists_eq_add_of_le hin.1
    rw [getElem?_store_of_lt hfit (by omega)] at hi
    rw [← Nat.add_assoc, Memory.read_write_of_lt _ _ (by omega)]
    exact Option.some.inj (Option.some.inj hi)
  · rw [getElem?_store_of_outside k (by omega)] at hi
    rw [Memory.read_write_of_outside _ (by omega)]
    exact h i c hi

/-- Only the cells of a content matter. -/
theorem ShownBy.frame (h : k.ShownBy m start)
    (hread : ∀ i < k.length, m'.read (start + i) = m.read (start + i)) : k.ShownBy m' start := by
  intro i c hi
  rw [hread i (List.getElem?_eq_some_iff.mp hi).1]
  exact h i c hi

/-- The cells that are known are read. -/
theorem ShownBy.take_eq (h : k.ShownBy m start) (hknown : k.Known n) :
    k.take n = (m.readRange start n).map some := by
  refine List.ext_getElem? fun i => ?_
  rcases Nat.lt_or_ge i n with hi | hi
  · obtain ⟨c, hc⟩ := hknown i hi
    rw [List.getElem?_take_of_lt hi, hc, List.getElem?_map, Memory.getElem?_readRange _ _ _ _ hi,
      h i c hc, Option.map_some]
  · rw [List.getElem?_eq_none (Nat.le_trans (List.length_take_le _ _) hi),
      List.getElem?_eq_none (by simpa using hi)]

end Content

end Lifespan
