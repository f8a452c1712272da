import Lifespan.Slice.Order
import Mathlib.Data.List.Basic
import Mathlib.Order.Defs.LinearOrder

/-!
# Where two slices part

Two byte strings share their leading bytes up to some length, and there either one of them ends or
the next bytes differ. Everything that is asked of a pair of slices is decided at that place: which
one comes first, whether they are equal, and whether one begins with the other.
-/

namespace Lifespan.Slice

variable {a b c : Slice} {u v : Bytes} {x y : UInt8} {i k l m n : Nat}

/-! ## The order of numbers -/

/-- Pairs of numbers that are less and greater in the same cases are compared alike. -/
theorem compare_congr (hlt : m < n ↔ k < l) (hgt : n < m ↔ l < k) : compare m n = compare k l := by
  simp only [Nat.compare_eq_ite_lt, hlt, hgt]

/-- The quotients of two numbers decide their order, and if they are equal the rests do. -/
theorem compare_div_mod (k m n : Nat) :
    (compare (m / k) (n / k)).then (compare (m % k) (n % k)) = compare m n := by
  have hm := Nat.div_add_mod m k
  have hn := Nat.div_add_mod n k
  cases hhigh : compare (m / k) (n / k) with
  | lt =>
      rw [Nat.compare_eq_lt] at hhigh
      exact (Nat.compare_eq_lt.mpr (Nat.lt_of_div_lt_div hhigh)).symm
  | eq =>
      rw [Nat.compare_eq_eq] at hhigh
      rw [hhigh] at hm
      exact compare_congr (by omega) (by omega)
  | gt =>
      rw [Nat.compare_eq_gt] at hhigh
      exact (Nat.compare_eq_gt.mpr (Nat.lt_of_div_lt_div hhigh)).symm

/-! ## The order of slices -/

/-- Bytes are compared as unsigned numbers. -/
theorem compare_eq_compare_toNat (x y : UInt8) : compare x y = compare x.toNat y.toNat := by
  simp only [compare, compareOfLessAndEq, UInt8.lt_iff_toNat_lt, ← UInt8.toNat_inj]

instance : Std.TransOrd Slice where
  eq_swap := Std.OrientedOrd.eq_swap (α := Bytes)
  isLE_trans := Std.TransOrd.isLE_trans (α := Bytes)

instance : Std.LawfulEqOrd Slice where
  compare_self := Std.ReflOrd.compare_self (α := Bytes)
  eq_of_compare h := Slice.ext (Std.LawfulEqOrd.eq_of_compare h)

theorem lt_iff_compare : a < b ↔ compare a b = .lt := Iff.rfl

theorem le_iff_compare : a ≤ b ↔ compare a b ≠ .gt := Ordering.ne_gt_iff_isLE.symm

/-- Slices are linearly ordered. -/
instance : LinearOrder Slice where
  le_refl _ := Std.ReflCmp.isLE_rfl
  le_trans _ _ _ := Std.TransOrd.isLE_trans
  le_antisymm _ _ hab hba := Std.LawfulEqOrd.eq_of_compare (Std.OrientedCmp.isLE_antisymm hab hba)
  le_total a b := by
    simp only [le_iff_compare, Std.OrientedOrd.eq_swap (a := b) (b := a)]
    cases compare a b <;> simp
  lt_iff_le_not_ge a b := by
    simp only [lt_iff_compare, le_iff_compare, Std.OrientedOrd.eq_swap (a := b) (b := a)]
    cases compare a b <;> simp
  compare_eq_compareOfLessAndEq a b := by
    simp only [compareOfLessAndEq, lt_iff_compare, ← Std.LawfulEqOrd.compare_eq_iff_eq (a := a)]
    cases compare a b <;> simp
  toDecidableLE := inferInstance
  toDecidableLT := inferInstance
  toDecidableEq := inferInstance

/-! ## Shared leading bytes -/

@[simp] theorem sharedLength_nil_left (v : Bytes) : sharedLength [] v = 0 := by
  simp [sharedLength]

@[simp] theorem sharedLength_nil_right (u : Bytes) : sharedLength u [] = 0 := by
  simp [sharedLength]

theorem sharedLength_cons_cons (x y : UInt8) (u v : Bytes) :
    sharedLength (x :: u) (y :: v) = if x = y then sharedLength u v + 1 else 0 := rfl

theorem compare_append (w u v : Bytes) : compare (w ++ u) (w ++ v) = compare u v := by
  induction w with
  | nil => rfl
  | cons z w ih =>
      rw [List.cons_append, List.cons_append, List.compare_cons_cons, Std.ReflOrd.compare_self, ih]
      rfl

theorem sharedLength_append (w u v : Bytes) :
    sharedLength (w ++ u) (w ++ v) = w.length + sharedLength u v := by
  induction w with
  | nil => simp
  | cons z w ih =>
      rw [List.cons_append, List.cons_append, sharedLength_cons_cons, if_pos rfl, ih,
        List.length_cons]
      omega

/-- What is left of two byte strings behind the bytes that they share. -/
inductive Parted : Bytes → Bytes → Prop where
  | leftEnded (v : Bytes) : Parted [] v
  | rightEnded (u : Bytes) : Parted u []
  | different (x y : UInt8) (u v : Bytes) (h : x ≠ y) : Parted (x :: u) (y :: v)

/-- Two byte strings are one shared beginning, followed by rests that have parted. -/
theorem exists_parted (u v : Bytes) :
    ∃ w u' v', u = w ++ u' ∧ v = w ++ v' ∧ sharedLength u v = w.length ∧ Parted u' v' := by
  fun_induction sharedLength u v with
  | case1 u x v ih =>
      obtain ⟨w, u', v', rfl, rfl, hlength, hparted⟩ := ih
      exact ⟨x :: w, u', v', rfl, rfl, by rw [hlength, List.length_cons], hparted⟩
  | case2 x u y v hxy => exact ⟨[], x :: u, y :: v, rfl, rfl, rfl, .different x y u v hxy⟩
  | case3 u v hended =>
      rcases u with _ | ⟨x, u⟩
      · exact ⟨[], [], v, rfl, rfl, rfl, .leftEnded v⟩
      rcases v with _ | ⟨y, v⟩
      · exact ⟨[], x :: u, [], rfl, rfl, rfl, .rightEnded (x :: u)⟩
      · exact (hended x u y v rfl rfl).elim

theorem sharedLength_le (u v : Bytes) : sharedLength u v ≤ min u.length v.length := by
  obtain ⟨w, u', v', rfl, rfl, hlength, -⟩ := exists_parted u v
  simp only [hlength, List.length_append]
  omega

theorem take_sharedLength (u v : Bytes) :
    u.take (sharedLength u v) = v.take (sharedLength u v) := by
  obtain ⟨w, u', v', rfl, rfl, hlength, -⟩ := exists_parted u v
  rw [hlength, List.take_left, List.take_left]

/-- The bytes at which two byte strings part are different, and they decide the order. -/
theorem compare_of_getElem? (hx : u[sharedLength u v]? = some x)
    (hy : v[sharedLength u v]? = some y) : x ≠ y ∧ compare u v = compare x.toNat y.toNat := by
  obtain ⟨w, u', v', rfl, rfl, hlength, hparted⟩ := exists_parted u v
  rw [hlength, List.getElem?_append_right (Nat.le_refl _), Nat.sub_self] at hx hy
  rw [compare_append]
  cases hparted with
  | leftEnded => contradiction
  | rightEnded => contradiction
  | different z z' u' v' hne =>
      obtain rfl : z = x := Option.some.inj hx
      obtain rfl : z' = y := Option.some.inj hy
      refine ⟨hne, ?_⟩
      rw [List.compare_cons_cons, ← compare_eq_compare_toNat]
      cases hc : compare z z' with
      | lt => rfl
      | eq => exact (hne (Std.LawfulEqOrd.eq_of_compare hc)).elim
      | gt => rfl

/-- If one of two byte strings ends where they part, the shorter one comes first. -/
theorem compare_of_ended (h : ¬ (sharedLength u v < u.length ∧ sharedLength u v < v.length)) :
    compare u v = compare u.length v.length := by
  obtain ⟨w, u', v', rfl, rfl, hlength, hparted⟩ := exists_parted u v
  simp only [hlength, List.length_append] at h ⊢
  rw [compare_append]
  cases hparted with
  | leftEnded => cases v' <;> simp [Nat.compare_eq_ite_lt]
  | rightEnded => cases u' <;> simp [Nat.compare_eq_ite_lt]
  | different => simp at h

/-- A byte string begins with another if and only if it shares all bytes of the other. -/
theorem isPrefix_iff_sharedLength : v <+: u ↔ sharedLength u v = v.length := by
  obtain ⟨w, u', v', rfl, rfl, hlength, hparted⟩ := exists_parted u v
  rw [hlength, List.prefix_append_right_inj, List.length_append]
  cases hparted with
  | leftEnded => simp
  | rightEnded => simp
  | different z z' u' v' hne => simp [Ne.symm hne]

theorem startsWith_iff : a.startsWith b = true ↔ b.bytes <+: a.bytes := List.isPrefixOf_iff_prefix

theorem startsWith_iff_firstDifference :
    a.startsWith b = true ↔ firstDifference a b = b.length :=
  startsWith_iff.trans isPrefix_iff_sharedLength

/-- A slice begins with another if and only if it is the other and what is behind it. -/
theorem startsWith_iff_append :
    a.startsWith b = true ↔
      b.length ≤ a.length ∧ b.bytes ++ a.bytes.drop b.length = a.bytes := by
  rw [startsWith_iff]
  constructor
  · intro hbegins
    exact ⟨hbegins.length_le, List.prefix_iff_eq_append.mp hbegins⟩
  · rintro ⟨-, happend⟩
    exact List.prefix_iff_eq_append.mpr happend

theorem get_eq_ok_iff : a.get i = .ok x ↔ a.bytes[i]? = some x := by
  rw [get]
  cases a.bytes[i]? <;> simp

/-- The bytes at which two slices part can be looked up, are different, and decide the order. -/
theorem compare_of_lt_length (ha : firstDifference a b < a.length)
    (hb : firstDifference a b < b.length) :
    ∃ x y, a.get (firstDifference a b) = .ok x ∧ b.get (firstDifference a b) = .ok y ∧ x ≠ y ∧
      compare a b = compare x.toNat y.toNat := by
  have hx := List.getElem?_eq_getElem ha
  have hy := List.getElem?_eq_getElem hb
  exact ⟨_, _, get_eq_ok_iff.mpr hx, get_eq_ok_iff.mpr hy, compare_of_getElem? hx hy⟩

/-- Comparison, equality and the number of shared bytes are consistent. Two slices agree on the
bytes that they share. If neither ends there, the next bytes differ, and the order of the slices is
that of these bytes as unsigned numbers; otherwise it is that of the lengths. The relations `<` and
`≤` give the same order; it is total, and only slices with the same bytes are equal in it. A slice
begins with another if and only if it shares all bytes of the other, that is, if the other followed
by the remaining bytes is the slice. -/
theorem order_at_firstDifference (a b : Slice) :
    let d := firstDifference a b
    (d ≤ min a.length b.length ∧ a.bytes.take d = b.bytes.take d) ∧
    (d < a.length → d < b.length → ∃ x y, a.get d = .ok x ∧ b.get d = .ok y ∧ x ≠ y ∧
      compare a b = compare x.toNat y.toNat) ∧
    (¬ (d < a.length ∧ d < b.length) → compare a b = compare a.length b.length) ∧
    (compare a b = .eq ↔ a = b) ∧ (a = b ↔ a.bytes = b.bytes) ∧
    (a < b ↔ compare a b = .lt) ∧ (a ≤ b ↔ compare a b ≠ .gt) ∧
    compare b a = (compare a b).swap ∧ (a ≤ b ∨ b ≤ a) ∧ (a ≤ b → b ≤ a → a = b) ∧
    (∀ c, a ≤ b → b ≤ c → a ≤ c) ∧
    (a.startsWith b = true ↔ d = b.length) ∧
    (a.startsWith b = true ↔
      b.length ≤ a.length ∧ b.bytes ++ a.bytes.drop b.length = a.bytes) := by
  refine ⟨⟨sharedLength_le _ _, take_sharedLength _ _⟩, compare_of_lt_length, compare_of_ended,
    Std.LawfulEqOrd.compare_eq_iff_eq, Slice.ext_iff, lt_iff_compare, le_iff_compare, ?_⟩
  exact ⟨Std.OrientedOrd.eq_swap, le_total a b, le_antisymm, fun _ => le_trans,
    startsWith_iff_firstDifference, startsWith_iff_append⟩

/-- Bytes above 127 come last, and a slice comes behind its beginnings. -/
theorem order_at_firstDifference_unsigned :
    let a : Slice := ⟨[0x61, 0x62, 0x01, 0x63]⟩
    let b : Slice := ⟨[0x61, 0x62, 0xFF]⟩
    let p : Slice := ⟨[0x61, 0x62]⟩
    firstDifference a b = 2 ∧ compare a b = .lt ∧ a < b ∧ firstDifference a p = 2 ∧
      compare a p = .gt ∧ a.startsWith p = true := by
  intro a b p
  have hparts := (order_at_firstDifference a b).2.1 (by decide) (by decide)
  have hended := (order_at_firstDifference a p).2.2.1 (by decide)
  obtain ⟨x, y, hx, hy, -, hcompare⟩ := hparts
  obtain rfl : (0x01 : UInt8) = x := Except.ok.inj hx
  obtain rfl : (0xFF : UInt8) = y := Except.ok.inj hy
  exact ⟨by decide, hcompare, hcompare, by decide, hended, by decide⟩

end Lifespan.Slice
