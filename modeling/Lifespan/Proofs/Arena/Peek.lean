import Lifespan.Proofs.Arena.Fit
import Lifespan.Proofs.Memory.Rounding

/-!
# Looking for room in a block

Room for a range is looked for in terms of addresses and answered in terms of offsets. On the way
three sums are checked: the address of the cursor, the aligned address and the end of the range. In
a block whose extent does not wrap, none of these checks refuses a range that fits, however close to
the largest word the block lies, and the sum and the difference that are not checked are exact.
-/

namespace Lifespan

namespace Block

variable {b : Block} {size align : Nat}

/-! ## Machine words -/

/-- The least offset from the cursor on at which a range is aligned, if it fits. The padding and the
offset are not checked. -/
def peekWord? (base capacity cursor size align : UInt64) : Option UInt64 := do
  let here ← Word.addCarry? base cursor
  let aligned ← Alignment.roundUpWord? here align
  let offset := cursor + (aligned - here)
  let stop ← Word.addCarry? offset size
  if stop ≤ capacity then some offset else none

/-- The padding and the offset are exact: the offset is as far from the base as the aligned address,
which is a word. -/
theorem toNat_cursor_add_sub {base cursor align here aligned : UInt64} (h : align ≠ 0)
    (hhere : Word.addCarry? base cursor = some here)
    (haligned : Alignment.roundUpWord? here align = some aligned) :
    (cursor + (aligned - here)).toNat = cursor.toNat + (aligned.toNat - here.toNat) := by
  have hsum := Word.map_toNat_addCarry? base cursor
  rw [hhere, Option.map_some, eq_comm, Word.add?_eq_some_iff] at hsum
  have hround := Alignment.map_toNat_roundUpWord? h here
  rw [haligned, Option.map_some, eq_comm] at hround
  have hle := Alignment.le_of_roundUp? hround
  have hlt := aligned.toNat_lt
  rw [UInt64.toNat_add, UInt64.toNat_sub_of_le _ _ (UInt64.le_iff_toNat_le.mpr hle)]
  exact Nat.mod_eq_of_lt (by omega)

theorem map_toNat_peekWord? {base capacity cursor size align : UInt64} (h : align ≠ 0)
    (hbase : b.base = base.toNat) (hcapacity : b.capacity = capacity.toNat)
    (hcursor : b.cursor = cursor.toNat) :
    (peekWord? base capacity cursor size align).map UInt64.toNat =
      b.peek size.toNat align.toNat := by
  rw [peek, hbase, hcapacity, hcursor, ← Word.map_toNat_addCarry?, peekWord?]
  cases hhere : Word.addCarry? base cursor with
  | none => rfl
  | some here =>
      simp only [Option.bind_eq_bind, Option.bind_some, Option.map_some]
      rw [← Alignment.map_toNat_roundUpWord? h]
      cases haligned : Alignment.roundUpWord? here align with
      | none => rfl
      | some aligned =>
          simp only [Option.bind_some, Option.map_some]
          rw [← toNat_cursor_add_sub h hhere haligned, ← Word.map_toNat_addCarry?]
          cases Word.addCarry? (cursor + (aligned - here)) size with
          | none => rfl
          | some stop =>
              simp only [Option.bind_some, Option.map_some, UInt64.le_iff_toNat_le]
              split <;> rfl

/-! ## What is found -/

/-- In a block whose extent does not wrap and whose cursor has not left it, for any number of bytes
and any power of two that are words: what is found is the least offset from the cursor on at which
the address is a multiple of the power of two and the range ends within the block, and nothing is
found exactly when there is no such offset. If there is one, all checks pass. Machine words give the
same answer. -/
theorem peek_finds_least (hextent : b.base + b.capacity < Word.bound)
    (hcursor : b.cursor ≤ b.capacity) (hsize : size < Word.bound) (ha : align.isPowerOfTwo)
    (halign : align < Word.bound) :
    (∀ o, b.peek size align = some o ↔
      IsLeast {o | b.cursor ≤ o ∧ align ∣ b.base + o ∧ o + size ≤ b.capacity} o) ∧
    (b.peek size align = none ↔
      ∀ o, ¬ (b.cursor ≤ o ∧ align ∣ b.base + o ∧ o + size ≤ b.capacity)) ∧
    (∀ o, b.cursor ≤ o → align ∣ b.base + o → o + size ≤ b.capacity →
      ∃ here aligned stop, b.Reckons size align here aligned stop) ∧
    (peekWord? (.ofNat b.base) (.ofNat b.capacity) (.ofNat b.cursor) (.ofNat size)
      (.ofNat align)).map UInt64.toNat = b.peek size align := by
  have h := Alignment.isValid_iff.mpr ha
  have hle := Nat.le_of_lt halign
  have hnone : b.peek size align = none ↔ ∀ o, ¬ b.Fits size align o :=
    peek_eq_none_iff h hle hextent
  refine ⟨fun o => peek_eq_some_iff h hle hextent, hnone, ?_, ?_⟩
  · intro o ho hdvd hend
    obtain ⟨offset, hfound⟩ : ∃ offset, b.peek size align = some offset := by
      rw [← Option.ne_none_iff_exists']
      exact fun hno => hnone.mp hno o ⟨ho, hdvd, hend⟩
    obtain ⟨here, aligned, stop, hreckons, -⟩ := peek_eq_some_iff_reckons.mp hfound
    exact ⟨here, aligned, stop, hreckons⟩
  · have hword : ∀ {n : Nat}, n < Word.bound → (UInt64.ofNat n).toNat = n :=
      fun hn => UInt64.toNat_ofNat_of_lt' hn
    have hbase := hword (Nat.lt_of_le_of_lt (Nat.le_add_right b.base b.capacity) hextent)
    have hcapacity := hword (Nat.lt_of_le_of_lt (Nat.le_add_left b.capacity b.base) hextent)
    have hcursor' : (UInt64.ofNat b.cursor).toNat = b.cursor := hword (by omega)
    rw [map_toNat_peekWord? (h.ofNat_ne_zero halign) hbase.symm hcapacity.symm hcursor'.symm,
      hword hsize, hword halign]

/-- A block just below the end of all words. With thirteen bytes of padding, the largest range that
fits at a multiple of sixteen ends with the block. There is no multiple of 128 in the block, nor
room for as many bytes as there are words less one, and it is an overflow that tells so. -/
theorem peek_finds_least_last_words :
    let b : Block := ⟨⟨Word.bound - 100, ⟨99, 1⟩⟩, 99, 7⟩
    b.base + b.capacity < Word.bound ∧ b.cursor ≤ b.capacity ∧
      b.peek 79 16 = some 20 ∧
      IsLeast {o | b.cursor ≤ o ∧ 16 ∣ b.base + o ∧ o + 79 ≤ b.capacity} 20 ∧
      (∃ here aligned stop, b.Reckons 79 16 here aligned stop) ∧
      (peekWord? (.ofNat b.base) 99 7 79 16).map UInt64.toNat = some 20 ∧
      (∀ o, ¬ (b.cursor ≤ o ∧ 16 ∣ b.base + o ∧ o + 80 ≤ b.capacity)) ∧
      Alignment.roundUp? (Word.bound - 93) 128 = none ∧
      (∀ o, ¬ (b.cursor ≤ o ∧ 128 ∣ b.base + o ∧ o + 1 ≤ b.capacity)) ∧
      Word.add? 7 Word.max = none ∧
      (∀ o, ¬ (b.cursor ≤ o ∧ 1 ∣ b.base + o ∧ o + Word.max ≤ b.capacity)) := by
  intro b
  have hextent : b.base + b.capacity < Word.bound := by decide
  have hcursor : b.cursor ≤ b.capacity := by decide
  have hfits : 79 < Word.bound := by decide
  have hlarger : 80 < Word.bound := by decide
  have hone : 1 < Word.bound := by decide
  have hlargest : Word.max < Word.bound := by decide
  have hfound : b.peek 79 16 = some 20 := by decide
  obtain ⟨hleast, -, hchecks, hword⟩ :=
    peek_finds_least hextent hcursor hfits ⟨4, rfl⟩ (by decide)
  obtain ⟨-, hfull, -⟩ := peek_finds_least hextent hcursor hlarger ⟨4, rfl⟩ (by decide)
  obtain ⟨-, hround, -⟩ := peek_finds_least hextent hcursor hone ⟨7, rfl⟩ (by decide)
  obtain ⟨-, hend, -⟩ := peek_finds_least hextent hcursor hlargest ⟨0, rfl⟩ (by decide)
  obtain ⟨⟨hge, hdvd, hstop⟩, -⟩ := (hleast 20).mp hfound
  exact ⟨hextent, hcursor, hfound, (hleast 20).mp hfound, hchecks 20 hge hdvd hstop,
    hword.trans hfound, hfull.mp (by decide), by decide, hround.mp (by decide), by decide,
    hend.mp (by decide)⟩

end Block

end Lifespan
