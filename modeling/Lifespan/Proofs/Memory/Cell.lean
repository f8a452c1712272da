import Lifespan.Memory.Element

/-!
# Reading what was written

A write determines the cells that it covers and leaves all others as they were. So two memories in
which the same has been written on top of the same observations cannot be told apart, and writes
behind one another are one longer write.
-/
namespace Lifespan

namespace Memory

variable {m m' : Memory} {address i x : Nat} {cells more : List Cell}

theorem read_write_of_lt (m : Memory) (address : Nat) (h : i < cells.length) :
    (m.write address cells).read (address + i) = cells[i] := by
  have hat : (Write.mk address cells).at? (address + i) = some cells[i] := by
    rw [Write.at?, if_pos (Nat.le_add_right _ _), Nat.add_sub_cancel_left,
      List.getElem?_eq_getElem h]
  simp only [write, read, hat]

theorem read_write_of_outside (m : Memory) (h : x < address ∨ address + cells.length ≤ x) :
    (m.write address cells).read x = m.read x := by
  have hat : (Write.mk address cells).at? x = none := by
    simp only [Write.at?]
    split
    · exact List.getElem?_eq_none (by omega)
    · rfl
  simp only [write, read, hat]

/-- A write is all that matters for the cells that it covers. -/
theorem read_write_congr (h : m.read = m'.read) (address : Nat) (cells : List Cell) :
    (m.write address cells).read = (m'.write address cells).read := by
  funext x
  by_cases hx : address ≤ x ∧ x < address + cells.length
  · obtain ⟨i, rfl⟩ := Nat.exists_eq_add_of_le hx.1
    have hi : i < cells.length := by omega
    rw [read_write_of_lt _ _ hi, read_write_of_lt _ _ hi]
  · have hx : x < address ∨ address + cells.length ≤ x := by omega
    rw [read_write_of_outside _ hx, read_write_of_outside _ hx, h]

@[simp] theorem read_write_nil (m : Memory) (address : Nat) :
    (m.write address []).read = m.read := by
  funext x
  refine read_write_of_outside m ?_
  simp only [List.length_nil]
  omega

/-- Two writes behind one another are one. -/
theorem read_write_write (m : Memory) (address : Nat) (cells more : List Cell) :
    ((m.write address cells).write (address + cells.length) more).read =
      (m.write address (cells ++ more)).read := by
  funext x
  rcases Nat.lt_or_ge x address with hlt | hge
  · rw [read_write_of_outside _ (by omega), read_write_of_outside _ (by omega),
      read_write_of_outside _ (by omega)]
  · obtain ⟨i, rfl⟩ := Nat.exists_eq_add_of_le hge
    rcases Nat.lt_or_ge i cells.length with hi | hi
    · have hi' : i < (cells ++ more).length := by rw [List.length_append]; omega
      rw [read_write_of_outside _ (by omega), read_write_of_lt _ _ hi, read_write_of_lt _ _ hi',
        List.getElem_append_left hi]
    · obtain ⟨j, rfl⟩ := Nat.exists_eq_add_of_le hi
      rcases Nat.lt_or_ge j more.length with hj | hj
      · have hj' : cells.length + j < (cells ++ more).length := by rw [List.length_append]; omega
        rw [← Nat.add_assoc, read_write_of_lt _ _ hj, Nat.add_assoc, read_write_of_lt _ _ hj',
          List.getElem_append_right (Nat.le_add_right _ _)]
        simp only [Nat.add_sub_cancel_left]
      · rw [read_write_of_outside _ (by omega), read_write_of_outside _ (by omega),
          read_write_of_outside _ (by rw [List.length_append]; omega)]

/-- Memories that have the same cells in a range read the same there. -/
theorem readRange_congr {n : Nat} (h : ∀ i < n, m'.read (address + i) = m.read (address + i)) :
    m'.readRange address n = m.readRange address n := by
  refine List.ext_getElem? fun i => ?_
  rcases Nat.lt_or_ge i n with hi | hi
  · rw [getElem?_readRange _ _ _ _ hi, getElem?_readRange _ _ _ _ hi, h i hi]
  · rw [List.getElem?_eq_none (by simpa using hi), List.getElem?_eq_none (by simpa using hi)]

/-- What has been written reads back. -/
theorem readRange_write (m : Memory) (address : Nat) (cells : List Cell) :
    (m.write address cells).readRange address cells.length = cells := by
  refine List.ext_getElem? fun i => ?_
  rcases Nat.lt_or_ge i cells.length with hi | hi
  · rw [getElem?_readRange _ _ _ _ hi, read_write_of_lt _ _ hi, List.getElem?_eq_getElem hi]
  · rw [List.getElem?_eq_none (by simpa using hi), List.getElem?_eq_none hi]

end Memory

namespace Element

variable {α : Type} {e : Element α}

/-- Values behind one another take as many cells as they are, times the size of one. -/
theorem length_encodeAll (h : ∀ v, (e.encode v).length = e.size) (vs : List α) :
    (e.encodeAll vs).length = vs.length * e.size := by
  induction vs with
  | nil => simp [encodeAll]
  | cons v rest ih =>
      rw [encodeAll, List.flatMap_cons, List.length_append, h, ← encodeAll, ih, List.length_cons,
        Nat.succ_mul, Nat.add_comm]

theorem length_lowBytes (n v : Nat) : (lowBytes n v).length = n := by
  induction n generalizing v with
  | zero => rfl
  | succ n ih => rw [lowBytes, List.length_cons, ih]

theorem length_encode_number (n : Nat) (toNat : α → Nat) (ofNat : Nat → α) (v : α) :
    ((number n toNat ofNat).encode v).length = (number n toNat ofNat).size := by
  rw [number, List.length_map, length_lowBytes]

theorem length_encode_triple (v : UInt8 × UInt8 × UInt8) :
    (triple.encode v).length = triple.size := rfl

theorem length_encode_pair (v : UInt8 × UInt32) : (pair.encode v).length = pair.size := rfl

/-- A byte takes one cell. -/
theorem encodeAll_uint8 (bytes : Bytes) : uint8.encodeAll bytes = bytes.map .byte := by
  induction bytes with
  | nil => rfl
  | cons b rest ih =>
      have hb : uint8.encode b = [.byte b] := by
        simp [uint8, number, lowBytes]
      rw [encodeAll, List.flatMap_cons, ← encodeAll, ih, hb, List.map_cons, List.singleton_append]

end Element

end Lifespan
