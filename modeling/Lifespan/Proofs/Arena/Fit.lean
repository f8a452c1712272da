import Lifespan.Arena.Block
import Lifespan.Proofs.Memory.Alignment
import Mathlib.Data.Nat.Find

/-!
# Where a range fits into a block

A range fits at an offset of a block when the offset is not before the cursor, the address there is
aligned, and the range ends within the block. In a block whose extent does not wrap, `Block.peek`
finds the least such offset: none of its overflow checks refuses a range that fits.
-/
namespace Lifespan.Block

variable {b c : Block} {size align offset : Nat}

/-- A range of `size` bytes fits at an offset of a block. -/
def Fits (b : Block) (size align offset : Nat) : Prop :=
  b.cursor ≤ offset ∧ align ∣ b.base + offset ∧ offset + size ≤ b.capacity

/-- The least offset at which a range fits belongs to the least aligned address from the cursor
on. -/
theorem isLeast_fits_iff :
    IsLeast {o | b.Fits size align o} offset ↔
      IsLeast {m | b.base + b.cursor ≤ m ∧ align ∣ m} (b.base + offset) ∧
        offset + size ≤ b.capacity := by
  constructor
  · rintro ⟨⟨hcursor, hdvd, hend⟩, hleast⟩
    refine ⟨⟨⟨by omega, hdvd⟩, ?_⟩, hend⟩
    rintro m ⟨hm, hmdvd⟩
    by_contra hlt
    -- A smaller aligned address would be a smaller offset at which the range fits too.
    have hsplit : b.base + (m - b.base) = m := by omega
    have hfits : b.Fits size align (m - b.base) := ⟨by omega, by rwa [hsplit], by omega⟩
    have := hleast hfits
    omega
  · rintro ⟨⟨⟨hcursor, hdvd⟩, hleast⟩, hend⟩
    refine ⟨⟨by omega, hdvd, hend⟩, ?_⟩
    rintro o ⟨ho, hodvd, _⟩
    have hle : b.base + offset ≤ b.base + o := hleast ⟨by omega, hodvd⟩
    omega

/-- The address of the cursor, the aligned address from there on, and the end of a range that begins
at it are all words. -/
structure Reckons (b : Block) (size align here aligned stop : Nat) : Prop where
  here_eq : Word.add? b.base b.cursor = some here
  aligned_eq : Alignment.roundUp? here align = some aligned
  stop_eq : Word.add? (b.cursor + (aligned - here)) size = some stop

/-- A range is found when all sums are words and it ends in the block. -/
theorem peek_eq_some_iff_reckons : b.peek size align = some offset ↔
    ∃ here aligned stop, b.Reckons size align here aligned stop ∧ stop ≤ b.capacity ∧
      offset = b.cursor + (aligned - here) := by
  constructor
  · intro h
    simp only [peek] at h
    split at h
    · contradiction
    · next here hhere =>
      split at h
      · contradiction
      · next aligned haligned =>
        split at h
        · contradiction
        · next stop hstop =>
          split at h
          · next hend =>
            cases h
            exact ⟨here, aligned, stop, ⟨hhere, haligned, hstop⟩, hend, rfl⟩
          · contradiction
  · rintro ⟨here, aligned, stop, ⟨hhere, haligned, hstop⟩, hend, rfl⟩
    simp only [peek, hhere, haligned, hstop, if_pos hend]

theorem peek_eq_some_iff (ha : Alignment.IsValid align) (hle : align ≤ Word.bound)
    (hb : b.base + b.capacity < Word.bound) :
    b.peek size align = some offset ↔ IsLeast {o | b.Fits size align o} offset := by
  rw [isLeast_fits_iff, peek_eq_some_iff_reckons]
  constructor
  · rintro ⟨here, aligned, stop, ⟨hhere, haligned, hstop⟩, hend, rfl⟩
    obtain ⟨rfl, -⟩ := Word.add?_eq_some_iff.mp hhere
    obtain ⟨rfl, -⟩ := Word.add?_eq_some_iff.mp hstop
    obtain ⟨hleast, -⟩ := (Alignment.roundUp?_eq_some_iff ha hle).mp haligned
    have hge := hleast.1.1
    have haddr : b.base + (b.cursor + (aligned - (b.base + b.cursor))) = aligned := by omega
    rw [haddr]
    exact ⟨hleast, hend⟩
  · rintro ⟨hleast, hend⟩
    have hge := hleast.1.1
    have hoffset : b.cursor + (b.base + offset - (b.base + b.cursor)) = offset := by omega
    refine ⟨b.base + b.cursor, b.base + offset, offset + size, ⟨?_, ?_, ?_⟩, hend, hoffset.symm⟩
    · exact Word.add?_eq_some_iff.mpr ⟨rfl, by omega⟩
    · exact (Alignment.roundUp?_eq_some_iff ha hle).mpr ⟨hleast, by omega⟩
    · rw [hoffset]
      exact Word.add?_eq_some_iff.mpr ⟨rfl, by omega⟩

theorem peek_eq_none_iff (ha : Alignment.IsValid align) (hle : align ≤ Word.bound)
    (hb : b.base + b.capacity < Word.bound) :
    b.peek size align = none ↔ ∀ o, ¬ b.Fits size align o := by
  constructor
  · intro h o ho
    -- If the range fits anywhere, there is a least offset, and `peek` would find it.
    classical
    have hex : ∃ o, b.Fits size align o := ⟨o, ho⟩
    have hleast : IsLeast {o | b.Fits size align o} (Nat.find hex) :=
      ⟨Nat.find_spec hex, fun _ h => Nat.find_min' hex h⟩
    rw [(peek_eq_some_iff ha hle hb).mpr hleast] at h
    contradiction
  · intro h
    rw [Option.eq_none_iff_forall_ne_some]
    intro o ho
    exact h o ((peek_eq_some_iff ha hle hb).mp ho).1

theorem claim_eq_ok_iff (hb : b.capacity < Word.bound) :
    b.claim offset size = .ok c ↔
      b.cursor ≤ offset ∧ offset + size ≤ b.capacity ∧ c = { b with cursor := offset + size } := by
  simp only [claim]
  by_cases hcursor : offset < b.cursor
  · simp only [hcursor, if_true, reduceCtorEq, false_iff]
    omega
  · rw [if_neg hcursor]
    by_cases hend : offset + size ≤ b.capacity
    · have hstop : Word.add? offset size = some (offset + size) :=
        Word.add?_eq_some_iff.mpr ⟨rfl, by omega⟩
      simp only [hstop, if_pos hend, Except.ok.injEq]
      exact ⟨fun h => ⟨by omega, hend, h.symm⟩, fun h => h.2.2.symm⟩
    · constructor
      · intro h
        split at h
        · contradiction
        · next stop hstop =>
          obtain ⟨rfl, _⟩ := Word.add?_eq_some_iff.mp hstop
          rw [if_neg hend] at h
          contradiction
      · exact fun h => absurd h.2.1 hend

/-- A range that is found can be claimed, in any block. -/
theorem claim_of_peek (h : b.peek size align = some offset) :
    offset + size ≤ b.capacity ∧ b.claim offset size = .ok { b with cursor := offset + size } := by
  obtain ⟨here, aligned, stop, hreckons, hend, rfl⟩ := peek_eq_some_iff_reckons.mp h
  have hcursor : ¬ b.cursor + (aligned - here) < b.cursor := by omega
  have hstop := hreckons.stop_eq
  obtain ⟨rfl, -⟩ := Word.add?_eq_some_iff.mp hstop
  refine ⟨hend, ?_⟩
  simp only [claim, if_neg hcursor, hstop, if_pos hend]

/-- A range that `peek` finds room for is not larger than the room. -/
theorem size_le_available_of_peek (h : b.peek size align = some offset) : size ≤ b.available := by
  obtain ⟨here, aligned, stop, hreckons, hend, rfl⟩ := peek_eq_some_iff_reckons.mp h
  obtain ⟨rfl, -⟩ := Word.add?_eq_some_iff.mp hreckons.stop_eq
  simp only [available]
  omega

end Lifespan.Block
