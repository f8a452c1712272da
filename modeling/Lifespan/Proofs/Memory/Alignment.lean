import Lifespan.Memory.Alignment
import Mathlib.Order.Bounds.Basic
import Mathlib.Tactic.Common

/-!
# Rounding up is exact

Clearing the low bits of a value after adding the alignment less one yields the least multiple of
the alignment that is not below the value. The overflow check on the sum refuses exactly the values
whose least multiple is no word, because the alignment divides the number of words.
-/
namespace Lifespan.Alignment

variable {align value r a b : Nat}

theorem isValid_iff : IsValid align ↔ align.isPowerOfTwo :=
  Nat.ne_zero_and_sub_one_eq_zero_iff_isPowerOfTwo

theorem isValid_shiftLeft (k : Nat) : IsValid (1 <<< k) :=
  isValid_iff.mpr ⟨k, Nat.one_shiftLeft k⟩

theorem isValid_standard : IsValid standard := isValid_shiftLeft 4

theorem isValid_page : IsValid page := isValid_shiftLeft 12

theorem IsValid.pos (h : IsValid align) : 0 < align := Nat.pos_of_ne_zero h.1

/-- Of two alignments the smaller one divides the larger one. -/
theorem IsValid.dvd_of_le (ha : IsValid a) (hb : IsValid b) (h : a ≤ b) : a ∣ b := by
  rcases isValid_iff.mp ha with ⟨i, rfl⟩
  rcases isValid_iff.mp hb with ⟨j, rfl⟩
  exact Nat.pow_dvd_pow 2 ((Nat.pow_le_pow_iff_right (by decide)).mp h)

theorem IsValid.max (ha : IsValid a) (hb : IsValid b) : IsValid (max a b) := by
  rcases Nat.le_total a b with h | h
  · rwa [Nat.max_eq_right h]
  · rwa [Nat.max_eq_left h]

theorem IsValid.dvd_bound (h : IsValid align) (hle : align ≤ Word.bound) : align ∣ Word.bound :=
  h.dvd_of_le (isValid_shiftLeft 64) hle

/-- The bits below an alignment are the remainder by it. -/
theorem clearBelow_eq (h : IsValid align) : clearBelow value align = value - value % align := by
  rcases isValid_iff.mp h with ⟨k, rfl⟩
  rw [clearBelow, Nat.and_two_pow_sub_one_eq_mod]

/-- The least multiple of an alignment from a value on. -/
theorem isLeast_clearBelow (h : IsValid align) (value : Nat) :
    IsLeast {m | value ≤ m ∧ align ∣ m} (clearBelow (value + (align - 1)) align) := by
  have hpos := h.pos
  have hmod := Nat.mod_lt (value + (align - 1)) hpos
  rw [clearBelow_eq h]
  refine ⟨⟨by omega, Nat.dvd_sub_mod _⟩, ?_⟩
  rintro m ⟨hm, c, rfl⟩
  -- The sum is less than one alignment above `m`, so its quotient is at most that of `m`.
  have hlt : value + (align - 1) < align * (c + 1) := by rw [Nat.mul_add]; omega
  have hdiv : (value + (align - 1)) / align ≤ c :=
    Nat.lt_succ_iff.mp (Nat.div_lt_of_lt_mul hlt)
  have hsplit := Nat.div_add_mod (value + (align - 1)) align
  have hmul := Nat.mul_le_mul_left align hdiv
  omega

/-- A multiple of an alignment that is a word leaves room for the alignment less one. -/
theorem add_lt_bound_of_dvd (h : align ∣ Word.bound) (hpos : 0 < align) (hr : align ∣ r)
    (hlt : r < Word.bound) : r + (align - 1) < Word.bound := by
  rcases h with ⟨n, hn⟩
  rcases hr with ⟨c, rfl⟩
  have hc : c + 1 ≤ n := by
    rw [hn] at hlt
    exact Nat.lt_of_mul_lt_mul_left hlt
  have hmul := Nat.mul_le_mul_left align hc
  rw [Nat.mul_add, ← hn] at hmul
  omega

theorem roundUp?_eq_some_iff (h : IsValid align) (hle : align ≤ Word.bound) :
    roundUp? value align = some r ↔
      IsLeast {m | value ≤ m ∧ align ∣ m} r ∧ r < Word.bound := by
  have hleast := isLeast_clearBelow h value
  have hbelow : clearBelow (value + (align - 1)) align ≤ value + (align - 1) := Nat.sub_le _ _
  simp only [roundUp?, Option.map_eq_some_iff, Word.add?_eq_some_iff]
  constructor
  · rintro ⟨_, ⟨rfl, hsum⟩, rfl⟩
    exact ⟨hleast, by omega⟩
  · rintro ⟨hr, hlt⟩
    have heq := hleast.unique hr
    refine ⟨_, ⟨rfl, ?_⟩, heq⟩
    have hroom := add_lt_bound_of_dvd (h.dvd_bound hle) h.pos hr.1.2 hlt
    exact Nat.lt_of_le_of_lt (Nat.add_le_add_right hr.1.1 _) hroom

end Lifespan.Alignment
