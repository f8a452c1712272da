import Lifespan.Bytes

/-!
# Memory cells

A memory is known by what has been written to it: a journal of writes, the latest first. A cell
that no write covers has never been given a content. Besides plain bytes, a cell may hold a piece
of a value whose bytes are nobody's business, such as a text that is kept elsewhere.
-/

namespace Lifespan

/-- The content of one address. -/
inductive Cell where
  /-- Nothing in particular: never written, or padding of a written value. -/
  | blank
  | byte (b : UInt8)
  /-- The piece with this number of a value that stands for a text. -/
  | piece (text : String) (number : Nat)
deriving DecidableEq, Repr, Inhabited

/-- The byte in a cell; zero if the cell holds none. -/
def Cell.toByte : Cell → UInt8
  | byte b => b
  | _ => 0

/-- One write: consecutive cells from an address on. -/
structure Write where
  address : Nat
  cells : List Cell
deriving DecidableEq, Repr

/-- What a write puts at an address, if it reaches it. -/
def Write.at? (w : Write) (address : Nat) : Option Cell :=
  if w.address ≤ address then w.cells[address - w.address]? else none

/-- A memory, as the writes that have been made to it, the latest first. -/
abbrev Memory := List Write

namespace Memory

/-- The memory after consecutive cells have been written from an address on. -/
def write (m : Memory) (address : Nat) (cells : List Cell) : Memory := ⟨address, cells⟩ :: m

/-- The content of an address: what the latest write that reaches it put there. -/
def read : Memory → Nat → Cell
  | [], _ => .blank
  | w :: rest, address =>
    match w.at? address with
    | some c => c
    | none => read rest address

/-- The contents of `n` consecutive addresses. The latest write covers some of them in the middle;
those before and behind it are read from the earlier writes. -/
def readRange : Memory → Nat → Nat → List Cell
  | _, _, 0 => []
  | [], _, n + 1 => List.replicate (n + 1) .blank
  | w :: rest, address, n + 1 =>
    let before := min (n + 1) (w.address - address)
    let covered := (w.cells.drop (address - w.address)).take (n + 1 - before)
    readRange rest address before ++ covered
      ++ readRange rest (address + before + covered.length) (n + 1 - before - covered.length)

@[simp] theorem length_readRange (m : Memory) (address n : Nat) :
    (m.readRange address n).length = n := by
  fun_induction readRange m address n with
  | case1 => rfl
  | case2 => simp
  | case3 w rest address n before covered ih1 ih2 =>
    have : before ≤ n + 1 := Nat.min_le_left _ _
    have : covered.length ≤ n + 1 - before := List.length_take_le _ _
    simp only [List.length_append, ih1, ih2]
    omega

/-- Reading a range is reading each of its addresses. -/
theorem getElem?_readRange (m : Memory) (address n i : Nat) (h : i < n) :
    (m.readRange address n)[i]? = some (m.read (address + i)) := by
  fun_induction readRange m address n generalizing i with
  | case1 => omega
  | case2 => simp [read, h]
  | case3 w rest address n before covered ih1 ih2 =>
    have hb : before = min (n + 1) (w.address - address) := rfl
    have hc : covered = (w.cells.drop (address - w.address)).take (n + 1 - before) := rfl
    by_cases h1 : i < before
    · rw [List.append_assoc, List.getElem?_append_left (by simpa using h1),
        ih1 i h1, read, Write.at?, if_neg (by omega)]
    by_cases h2 : i < before + covered.length
    · rw [List.append_assoc, List.getElem?_append_right (by simp; omega),
        List.getElem?_append_left (by simp; omega), length_readRange]
      have hl : i - before < covered.length := by omega
      have hx : covered[i - before]? = w.cells[address + i - w.address]? := by
        rw [hc, List.length_take, List.length_drop] at hl
        rw [hc, List.getElem?_take_of_lt (by omega), List.getElem?_drop]
        congr 1; omega
      rw [hx, read, Write.at?, if_pos (by omega)]
      rw [List.getElem?_eq_getElem hl] at hx
      rw [← hx]
    · have hn : w.at? (address + i) = none := by
        simp only [hc, List.length_take, List.length_drop] at h2
        by_cases hw : w.address ≤ address + i
        · rw [Write.at?, if_pos hw, List.getElem?_eq_none (by omega)]
        · rw [Write.at?, if_neg hw]
      rw [List.getElem?_append_right (by simp; omega),
        List.length_append, length_readRange, ih2 _ (by omega), read, hn]
      congr 2; omega

end Memory

end Lifespan
