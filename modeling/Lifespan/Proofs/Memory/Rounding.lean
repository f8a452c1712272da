import Lifespan.Proofs.Memory.Alignment

/-!
# Rounding up on machine words

On machine words rounding up is a masked sum: the alignment less one is added, a carry is refused,
and the low bits are cleared with the complement of the mask. The carry is one of that sum and not
of the result, and yet it tells of the result: there is a carry exactly when the least multiple of
the alignment is one past the largest word.
-/

namespace Lifespan

namespace Word

/-- The sum of two machine words, unless there is a carry. -/
def addCarry? (a b : UInt64) : Option UInt64 :=
  if a + b < a then none else some (a + b)

/-- There is a carry exactly when the sum is no word. -/
theorem map_toNat_addCarry? (a b : UInt64) :
    (addCarry? a b).map UInt64.toNat = add? a.toNat b.toNat := by
  have ha := a.toNat_lt
  have hb := b.toNat_lt
  have hbound : bound = 2 ^ 64 := rfl
  simp only [addCarry?, add?, UInt64.lt_iff_toNat_lt, UInt64.toNat_add, hbound]
  by_cases hsum : a.toNat + b.toNat < 2 ^ 64
  · rw [Nat.mod_eq_of_lt hsum, if_neg (by omega), if_pos hsum, Option.map_some, UInt64.toNat_add,
      Nat.mod_eq_of_lt hsum]
  · rw [if_pos (by omega), if_neg hsum, Option.map_none]

end Word

namespace Alignment

/-! ## Machine words -/

/-- The least multiple of an alignment that is not below a machine word: the sum with the mask, and
of that the bits outside of the mask. -/
def roundUpWord? (value align : UInt64) : Option UInt64 :=
  (Word.addCarry? value (align - 1)).map fun sum => sum &&& ~~~(align - 1)

/-- The bits outside of a mask and those within it make up the word. -/
theorem toNat_and_not_add_and {n : Nat} (x mask : BitVec n) :
    (x &&& ~~~mask).toNat + (x &&& mask).toNat = x.toNat := by
  have hapart : (x &&& ~~~mask) &&& (x &&& mask) = 0#n := by
    ext i hi
    cases hbit : mask[i] <;> simp [hbit]
  have hjoin : (x &&& ~~~mask) ||| (x &&& mask) = x := by
    ext i hi
    cases hbit : mask[i] <;> simp [hbit]
  rw [← BitVec.toNat_add_of_and_eq_zero hapart, BitVec.add_eq_or_of_and_eq_zero _ _ hapart, hjoin]

/-- Keeping the bits outside of the mask of an alignment clears the bits below it. -/
theorem toNat_and_not_eq_clearBelow {align mask : UInt64} (hmask : mask.toNat = align.toNat - 1)
    (x : UInt64) : (x &&& ~~~mask).toNat = clearBelow x.toNat align.toNat := by
  have hsplit : (x &&& ~~~mask).toNat + (x.toNat &&& mask.toNat) = x.toNat :=
    toNat_and_not_add_and x.toBitVec mask.toBitVec
  rw [clearBelow, ← hmask]
  omega

theorem map_toNat_roundUpWord? {align : UInt64} (h : align ≠ 0) (value : UInt64) :
    (roundUpWord? value align).map UInt64.toNat = roundUp? value.toNat align.toNat := by
  have hpos : 0 < align.toNat := by
    rw [Nat.pos_iff_ne_zero]
    exact fun hzero => h (UInt64.toNat_inj.mp hzero)
  have hmask : (align - 1).toNat = align.toNat - 1 :=
    UInt64.toNat_sub_of_le _ _ (UInt64.le_iff_toNat_le.mpr hpos)
  have hclear : UInt64.toNat ∘ (fun sum => sum &&& ~~~(align - 1)) =
      (clearBelow · align.toNat) ∘ UInt64.toNat :=
    funext fun sum => toNat_and_not_eq_clearBelow hmask sum
  rw [roundUpWord?, Option.map_map, hclear, ← Option.map_map, Word.map_toNat_addCarry?, hmask,
    roundUp?]

/-! ## Numbers -/

variable {value lower align v : Nat}

/-- An alignment that is a word is not zero as a machine word. -/
theorem IsValid.ofNat_ne_zero (h : IsValid align) (hlt : align < Word.bound) :
    UInt64.ofNat align ≠ 0 := by
  intro hzero
  have hword : (UInt64.ofNat align).toNat = align := UInt64.toNat_ofNat_of_lt' hlt
  rw [hzero] at hword
  exact h.1 hword.symm

/-- What a value is rounded up to is not below it. -/
theorem le_of_roundUp? (hv : roundUp? value align = some v) : value ≤ v := by
  obtain ⟨sum, hsum, rfl⟩ := Option.map_eq_some_iff.mp hv
  obtain ⟨rfl, -⟩ := Word.add?_eq_some_iff.mp hsum
  have hlow : (value + (align - 1)) &&& (align - 1) ≤ align - 1 := Nat.and_le_right
  simp only [clearBelow]
  omega

/-- Less than one alignment is added. -/
theorem lt_add_of_roundUp? (h : IsValid align) (hv : roundUp? value align = some v) :
    v < value + align := by
  obtain ⟨sum, hsum, rfl⟩ := Option.map_eq_some_iff.mp hv
  obtain ⟨rfl, -⟩ := Word.add?_eq_some_iff.mp hsum
  have hbelow : clearBelow (value + (align - 1)) align ≤ value + (align - 1) := Nat.sub_le _ _
  have hpos := h.pos
  omega

section Valid

variable (h : IsValid align) (hle : align ≤ Word.bound)
include h hle

/-- One past the largest word is a multiple of every alignment, so no least multiple is beyond it,
and one is refused exactly when it is that one. -/
theorem roundUp?_eq_none_iff (hvalue : value ≤ Word.bound) :
    roundUp? value align = none ↔ IsLeast {m | value ≤ m ∧ align ∣ m} Word.bound := by
  have hleast := isLeast_clearBelow h value
  constructor
  · intro hnone
    have hupper : clearBelow (value + (align - 1)) align ≤ Word.bound :=
      hleast.2 ⟨hvalue, h.dvd_bound hle⟩
    have hlower : Word.bound ≤ clearBelow (value + (align - 1)) align := by
      by_contra hlt
      rw [(roundUp?_eq_some_iff h hle).mpr ⟨hleast, Nat.lt_of_not_le hlt⟩] at hnone
      contradiction
    rwa [Nat.le_antisymm hupper hlower] at hleast
  · intro hbound
    rw [Option.eq_none_iff_forall_ne_some]
    intro v hv
    obtain ⟨hv, hlt⟩ := (roundUp?_eq_some_iff h hle).mp hv
    exact absurd (hv.unique hbound) hlt.ne

/-- A multiple is rounded up to itself. -/
theorem roundUp?_of_roundUp? (hv : roundUp? value align = some v) :
    roundUp? v align = some v := by
  obtain ⟨hleast, hlt⟩ := (roundUp?_eq_some_iff h hle).mp hv
  have hself : IsLeast {m | v ≤ m ∧ align ∣ m} v := ⟨⟨le_rfl, hleast.1.2⟩, fun _ hm => hm.1⟩
  exact (roundUp?_eq_some_iff h hle).mpr ⟨hself, hlt⟩

/-- What is not above a value that is rounded up to a word is rounded up to one that is not above
that word. -/
theorem roundUp?_mono (hlower : lower ≤ value) (hv : roundUp? value align = some v) :
    ∃ w ≤ v, roundUp? lower align = some w := by
  obtain ⟨⟨⟨hge, hdvd⟩, -⟩, hlt⟩ := (roundUp?_eq_some_iff h hle).mp hv
  have hleast := isLeast_clearBelow h lower
  have hw : clearBelow (lower + (align - 1)) align ≤ v := hleast.2 ⟨hlower.trans hge, hdvd⟩
  exact ⟨_, hw, (roundUp?_eq_some_iff h hle).mpr ⟨hleast, hw.trans_lt hlt⟩⟩

end Valid

/-- Every word is rounded up, for every power of two that is a word, to the least multiple that is
not below it, unless that is one past the largest word; then, and only then, rounding up refuses.
So it leaves its results as they are, keeps the order of values, and adds less than the alignment.
The masked sum of machine words, with its carry, does the same. -/
theorem rounds_to_least_multiple (hvalue : value < Word.bound) (ha : align.isPowerOfTwo)
    (halign : align < Word.bound) :
    (∀ v, roundUp? value align = some v ↔
      IsLeast {m | value ≤ m ∧ align ∣ m} v ∧ v < Word.bound) ∧
    (roundUp? value align = none ↔ IsLeast {m | value ≤ m ∧ align ∣ m} Word.bound) ∧
    (∀ v, roundUp? value align = some v → roundUp? v align = some v ∧ v < value + align ∧
      ∀ lower ≤ value, ∃ w ≤ v, roundUp? lower align = some w) ∧
    (roundUpWord? (.ofNat value) (.ofNat align)).map UInt64.toNat = roundUp? value align := by
  have h := isValid_iff.mpr ha
  have hle := Nat.le_of_lt halign
  refine ⟨fun v => roundUp?_eq_some_iff h hle, roundUp?_eq_none_iff h hle (Nat.le_of_lt hvalue),
    fun v hv => ⟨roundUp?_of_roundUp? h hle hv, lt_add_of_roundUp? h hv,
      fun lower hlower => roundUp?_mono h hle hlower hv⟩, ?_⟩
  have hvalue' : (UInt64.ofNat value).toNat = value := UInt64.toNat_ofNat_of_lt' hvalue
  have halign' : (UInt64.ofNat align).toNat = align := UInt64.toNat_ofNat_of_lt' halign
  rw [map_toNat_roundUpWord? (h.ofNat_ne_zero halign), hvalue', halign']

/-- The last page that begins at a word: what is not above its first byte is rounded up to that, on
machine words as well, and what is above it is not rounded up, as the next page would begin one past
the largest word. -/
theorem rounds_to_least_multiple_last_page :
    let last := Word.bound - page
    page.isPowerOfTwo ∧ last + 1 < Word.bound ∧
      roundUp? (last - 1) page = some last ∧ IsLeast {m | last - 1 ≤ m ∧ page ∣ m} last ∧
      roundUp? last page = some last ∧ last < last - 1 + page ∧
      roundUpWord? (.ofNat (last - 1)) (.ofNat page) = some (.ofNat last) ∧
      roundUp? (last + 1) page = none ∧ IsLeast {m | last + 1 ≤ m ∧ page ∣ m} Word.bound ∧
      (roundUpWord? (.ofNat (last + 1)) (.ofNat page)).map UInt64.toNat = none := by
  intro last
  have hpage : page.isPowerOfTwo := isValid_iff.mp isValid_page
  have hbelow : roundUp? (last - 1) page = some last := by decide
  have habove : roundUp? (last + 1) page = none := by decide
  have hbefore : last - 1 < Word.bound := by decide
  have hafter : last + 1 < Word.bound := by decide
  obtain ⟨hsome, -, hresult, -⟩ := rounds_to_least_multiple hbefore hpage (by decide)
  obtain ⟨-, hnone, -, hword⟩ := rounds_to_least_multiple hafter hpage (by decide)
  obtain ⟨hself, hlt, -⟩ := hresult last hbelow
  exact ⟨hpage, hafter, hbelow, ((hsome last).mp hbelow).1, hself, hlt, by decide, habove,
    hnone.mp habove, hword.trans habove⟩

end Alignment

end Lifespan
