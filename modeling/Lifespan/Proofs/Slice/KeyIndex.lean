import Lifespan.Slice.KeyIndex
import Lifespan.Proofs.Slice.Order
import Mathlib.Data.List.Nodup

/-!
# Sorted slices as a key index

In a sorted list of slices, what two entries share is shared by every entry between them. So the
lengths that neighbours share determine the length that any two entries share, the entries that
begin with given bytes stand together, and so do equal ones.
-/

namespace Lifespan.Slice

variable {a b c p s : Slice} {l : List Slice} {u v w q : Bytes} {i j k : Nat}

/-! ## Three slices in order -/

theorem isLE_compare_cons_cons {x y : UInt8} :
    (compare (x :: u) (y :: v)).isLE ↔
      x.toNat ≤ y.toNat ∧ (x = y → (compare u v).isLE) := by
  rw [List.compare_cons_cons, Ordering.isLE_then_iff_or, Std.LawfulEqOrd.compare_eq_iff_eq,
    compare_eq_compare_toNat, Nat.compare_eq_lt, ← UInt8.toNat_inj]
  grind

/-- The ends of three ordered byte strings share what both of them share with the middle one. -/
theorem sharedLength_of_isLE (huv : (compare u v).isLE) (hvw : (compare v w).isLE) :
    sharedLength u w = min (sharedLength u v) (sharedLength v w) := by
  induction u generalizing v w with
  | nil => simp
  | cons x u ih =>
      rcases v with _ | ⟨y, v⟩
      · contradiction
      rcases w with _ | ⟨z, w⟩
      · contradiction
      obtain ⟨hxy, huv⟩ := isLE_compare_cons_cons.mp huv
      obtain ⟨hyz, hvw⟩ := isLE_compare_cons_cons.mp hvw
      simp only [sharedLength_cons_cons]
      by_cases hxz : x = z
      · -- The middle byte lies between two equal ones, so all three are the same.
        subst hxz
        obtain rfl : x = y := UInt8.toNat_inj.mp (by omega)
        simp only [if_true, ih (huv rfl) (hvw rfl)]
        omega
      · -- The outer bytes differ, so the middle one differs from one of them.
        rw [if_neg hxz]
        split
        · next hxy => rw [if_neg (hxy ▸ hxz), Nat.min_zero]
        · exact (Nat.zero_min _).symm

/-- What the ends of three ordered slices share is what the middle one shares with both. -/
theorem firstDifference_of_le (hab : a ≤ b) (hbc : b ≤ c) :
    firstDifference a c = min (firstDifference a b) (firstDifference b c) :=
  sharedLength_of_isLE hab hbc

/-- A byte string that begins with given bytes shares at least these with any other that does, and
with no other. -/
theorem isPrefix_iff_le_sharedLength (hu : q <+: u) : q <+: v ↔ q.length ≤ sharedLength u v := by
  obtain ⟨u, rfl⟩ := hu
  constructor
  · rintro ⟨v, rfl⟩
    rw [sharedLength_append]
    exact Nat.le_add_right _ _
  · intro hle
    have htake := congrArg (List.take q.length) (take_sharedLength (q ++ u) v)
    rw [List.take_take, List.take_take, Nat.min_eq_left hle, List.take_left] at htake
    exact List.prefix_iff_eq_take.mpr htake

/-- What begins the ends of three ordered slices begins the middle one. -/
theorem startsWith_of_le (hab : a ≤ b) (hbc : b ≤ c) (ha : a.startsWith p = true)
    (hc : c.startsWith p = true) : b.startsWith p = true := by
  rw [startsWith_iff] at ha hc ⊢
  rw [isPrefix_iff_le_sharedLength ha] at hc ⊢
  have hmin := sharedLength_of_isLE hab hbc
  omega

/-! ## What entries share -/

theorem drop_sharedWithNext (l : List Slice) (i : Nat) :
    (sharedWithNext l).drop i = sharedWithNext (l.drop i) := by
  rw [sharedWithNext, sharedWithNext, List.drop_zipWith, List.tail_drop, ← List.drop_one,
    List.drop_drop, Nat.add_comm]

/-- The first entry shares with a later one the least length that neighbours up to there share. -/
theorem min?_sharedWithNext (hl : (a :: l).Pairwise (· ≤ ·)) (hc : l[k]? = some c) :
    ((sharedWithNext (a :: l)).take (k + 1)).min? = some (firstDifference a c) := by
  induction l generalizing a k with
  | nil => contradiction
  | cons b l ih =>
      have hnext : sharedWithNext (a :: b :: l) = firstDifference a b :: sharedWithNext (b :: l) :=
        rfl
      rw [hnext, List.take_succ_cons]
      cases k with
      | zero =>
          obtain rfl : b = c := by simpa using hc
          rfl
      | succ k =>
          rw [List.getElem?_cons_succ] at hc
          obtain ⟨ha, hl⟩ := List.pairwise_cons.mp hl
          have hab : a ≤ b := ha b List.mem_cons_self
          have hbc : b ≤ c := List.rel_of_pairwise_cons hl (List.mem_of_getElem? hc)
          rw [List.min?_cons, ih hl hc, Option.elim_some, firstDifference_of_le hab hbc]

/-- Any two entries share the least length that neighbours between them share. -/
theorem min?_sharedWithNext_between (hl : l.Pairwise (· ≤ ·)) (hij : i < j) (ha : l[i]? = some a)
    (hc : l[j]? = some c) :
    (((sharedWithNext l).drop i).take (j - i)).min? = some (firstDifference a c) := by
  have hdrop : l.drop i = a :: l.drop (i + 1) := by
    rw [List.drop_eq_getElem?_toList_append, ha]
    rfl
  have hsorted : (a :: l.drop (i + 1)).Pairwise (· ≤ ·) := hdrop ▸ hl.drop
  obtain ⟨k, rfl⟩ : ∃ k, j = i + 1 + k := ⟨j - (i + 1), by omega⟩
  have hlength : i + 1 + k - i = k + 1 := by omega
  rw [drop_sharedWithNext, hdrop, hlength]
  exact min?_sharedWithNext hsorted (List.getElem?_drop.trans hc)

/-! ## Entries with the same beginning -/

/-- Behind an entry that begins with given bytes, those that do so too come first. -/
theorem isPrefix_filter_startsWith (ha : a.startsWith p = true) (hl : (a :: l).Pairwise (· ≤ ·)) :
    l.filter (·.startsWith p) <+: l := by
  induction l with
  | nil => exact List.prefix_rfl
  | cons b l ih =>
      obtain ⟨habl, hbl⟩ := List.pairwise_cons.mp hl
      by_cases hb : b.startsWith p = true
      · have hkept : (b :: l).filter (·.startsWith p) = b :: l.filter (·.startsWith p) :=
          List.filter_cons_of_pos hb
        rw [hkept, List.prefix_cons_inj]
        have hal : ∀ c ∈ l, a ≤ c := fun c hc => habl c (List.mem_cons_of_mem b hc)
        exact ih (List.pairwise_cons.mpr ⟨hal, hbl.of_cons⟩)
      · have hnone : (b :: l).filter (·.startsWith p) = [] := by
          rw [List.filter_eq_nil_iff]
          intro c hc hcp
          rcases List.mem_cons.mp hc with rfl | hcl
          · exact hb hcp
          · exact hb (startsWith_of_le (habl b List.mem_cons_self)
              (List.rel_of_pairwise_cons hbl hcl) ha hcp)
        rw [hnone]
        exact List.nil_prefix

/-- All entries of a sorted list that begin with given bytes stand together. -/
theorem isInfix_filter_startsWith (hl : l.Pairwise (· ≤ ·)) (p : Slice) :
    l.filter (·.startsWith p) <:+: l := by
  induction l with
  | nil => exact List.infix_rfl
  | cons a l ih =>
      by_cases ha : a.startsWith p = true
      · have hkept : (a :: l).filter (·.startsWith p) = a :: l.filter (·.startsWith p) :=
          List.filter_cons_of_pos ha
        rw [hkept]
        exact ((List.prefix_cons_inj a).mpr (isPrefix_filter_startsWith ha hl)).isInfix
      · have hleft : (a :: l).filter (·.startsWith p) = l.filter (·.startsWith p) :=
          List.filter_cons_of_neg ha
        rw [hleft]
        exact List.infix_cons (ih hl.of_cons)

/-! ## Entries without repetitions -/

theorem mem_dropRepeats : s ∈ dropRepeats l ↔ s ∈ l := by
  fun_induction dropRepeats l with
  | case1 b l ih => simp [ih]
  | case2 a b l hab ih => simp [ih]
  | case3 l hshort => rfl

/-- What remains of a sorted list without repetitions is strictly ascending. -/
theorem pairwise_dropRepeats (hl : l.Pairwise (· ≤ ·)) : (dropRepeats l).Pairwise (· < ·) := by
  fun_induction dropRepeats l with
  | case1 b l ih => exact ih hl.of_cons
  | case2 a b l hne ih =>
      obtain ⟨ha, hl⟩ := List.pairwise_cons.mp hl
      have hab : a < b := lt_of_le_of_ne (ha b List.mem_cons_self) hne
      refine List.pairwise_cons.mpr ⟨fun c hc => ?_, ih hl⟩
      rcases List.mem_cons.mp (mem_dropRepeats.mp hc) with rfl | hc
      · exact hab
      · exact lt_of_lt_of_le hab (List.rel_of_pairwise_cons hl hc)
  | case3 l hshort =>
      rcases l with _ | ⟨a, _ | ⟨b, l⟩⟩
      · exact .nil
      · exact List.pairwise_singleton _ _
      · exact (hshort a b l rfl).elim

/-- Every entry of a sorted list remains exactly once when repetitions are dropped. -/
theorem count_dropRepeats (hl : l.Pairwise (· ≤ ·)) (s : Slice) :
    (dropRepeats l).count s = if s ∈ l then 1 else 0 := by
  have hnodup : (dropRepeats l).Nodup := (pairwise_dropRepeats hl).imp ne_of_lt
  split
  · next hs => exact List.count_eq_one_of_mem hnodup (mem_dropRepeats.mpr hs)
  · next hs => exact List.count_eq_zero.mpr (mt mem_dropRepeats.mp hs)

/-! ## Sorted lists -/

theorem sort_perm (l : List Slice) : (sort l).Perm l := List.mergeSort_perm _ _

theorem pairwise_sort (l : List Slice) : (sort l).Pairwise (· ≤ ·) := by
  have htotal (a b : Slice) : ((compare a b).isLE || (compare b a).isLE) = true := by
    rw [Bool.or_eq_true]
    exact le_total a b
  have htrans (a b c : Slice) (hab : (compare a b).isLE = true) (hbc : (compare b c).isLE = true) :
      (compare a c).isLE = true := Std.TransOrd.isLE_trans hab hbc
  exact List.pairwise_mergeSort htrans htotal l

/-- Sorted slices have the structure of a key index. Of three ordered slices, the outer two share
what both share with the middle one. In a sorted list, any two entries share the least of the
lengths that neighbours between them share; the entries that begin with given bytes, all of them
and in their order, are consecutive; and dropping each entry that equals its neighbour leaves every
byte string of the list exactly once, and nothing else. Sorting gives such a list. -/
theorem prefixes_of_sorted :
    (∀ a b c : Slice, a ≤ b → b ≤ c →
      firstDifference a c = min (firstDifference a b) (firstDifference b c)) ∧
    (∀ l : List Slice, l.Pairwise (· ≤ ·) →
      (∀ i j a c, i < j → l[i]? = some a → l[j]? = some c →
        (((sharedWithNext l).drop i).take (j - i)).min? = some (firstDifference a c)) ∧
      (∀ p : Slice, l.filter (·.startsWith p) <:+: l) ∧
      ∀ s : Slice, (dropRepeats l).count s = if s ∈ l then 1 else 0) ∧
    ∀ l : List Slice, (sort l).Perm l ∧ (sort l).Pairwise (· ≤ ·) := by
  refine ⟨fun _ _ _ => firstDifference_of_le, fun l hl => ⟨?_, isInfix_filter_startsWith hl,
    count_dropRepeats hl⟩, fun l => ⟨sort_perm l, pairwise_sort l⟩⟩
  intro i j a c hij ha hc
  exact min?_sharedWithNext_between hl hij ha hc

/-- The keys `a`, `abc`, `abc`, `abd`, `ac` and `b`. -/
theorem prefixes_of_sorted_repeated :
    let l : List Slice := [⟨[0x61]⟩, ⟨[0x61, 0x62, 0x63]⟩, ⟨[0x61, 0x62, 0x63]⟩,
      ⟨[0x61, 0x62, 0x64]⟩, ⟨[0x61, 0x63]⟩, ⟨[0x62]⟩]
    l.Pairwise (· ≤ ·) ∧ sharedWithNext l = [1, 3, 2, 1, 0] ∧
      [3, 2, 1].min? = some (firstDifference ⟨[0x61, 0x62, 0x63]⟩ ⟨[0x61, 0x63]⟩) ∧
      [⟨[0x61, 0x62, 0x63]⟩, ⟨[0x61, 0x62, 0x63]⟩, ⟨[0x61, 0x62, 0x64]⟩] <:+: l ∧
      (dropRepeats l).count ⟨[0x61, 0x62, 0x63]⟩ = 1 ∧
      firstDifference ⟨[0x61]⟩ ⟨[0x61, 0x62, 0x64]⟩ =
        min (firstDifference ⟨[0x61]⟩ ⟨[0x61, 0x62, 0x63]⟩)
          (firstDifference ⟨[0x61, 0x62, 0x63]⟩ ⟨[0x61, 0x62, 0x64]⟩) := by
  intro l
  have hl : l.Pairwise (· ≤ ·) := by decide
  obtain ⟨hshared, hblock, hcount⟩ := prefixes_of_sorted.2.1 l hl
  exact ⟨hl, by decide, hshared 1 4 _ _ (by decide) rfl rfl, hblock ⟨[0x61, 0x62]⟩,
    hcount ⟨[0x61, 0x62, 0x63]⟩, prefixes_of_sorted.1 _ _ _ (by decide) (by decide)⟩

end Lifespan.Slice
