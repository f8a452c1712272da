import Lifespan.Proofs.Slice.Order
import Lifespan.Proofs.Workload.Draws
import Mathlib.Algebra.Group.Nat.Defs
import Mathlib.Data.List.Nodup

/-!
# Numbered keys in order

The keys of a workload are numbered, and the digits of a number are padded with zeros to a fixed
width. Digits of equal number are ordered like the number that they stand for, so keys sort like
their numbers for as long as these fit the width. The first wider number begins with a one where the
number before it begins with a nine, and its key comes before the other one. Still no key is used
twice, because a number can be read back from its key.
-/

namespace Lifespan.Workload

open Slice (ofText compare_eq_compare_toNat compare_congr compare_div_mod compare_append)

variable {words : WordStream} {generator : UInt64 → WordStream} {c d : Char} {cs ds : List Char}
  {position i j m n : Nat}

/-! ## Digits and what they stand for -/

theorem toNat_of_isDigit (hc : c.isDigit = true) : 48 ≤ c.toNat ∧ c.toNat ≤ 57 :=
  Char.isDigit_iff_toNat.mp hc

/-- A digit takes one byte. -/
theorem utf8EncodeChar_of_isDigit (hc : c.isDigit = true) :
    String.utf8EncodeChar c = [UInt8.ofNat c.toNat] := by
  have hrange := toNat_of_isDigit hc
  have hshort : c.val.toNat ≤ 0x7F := Nat.le_trans hrange.2 (by decide)
  rw [String.utf8EncodeChar, if_pos hshort]
  rfl

/-- Digits are ordered like their values. -/
theorem compare_digit (hc : c.isDigit = true) (hd : d.isDigit = true) :
    compare (UInt8.ofNat c.toNat) (UInt8.ofNat d.toNat) =
      compare (c.toNat - '0'.toNat) (d.toNat - '0'.toNat) := by
  have hrange := toNat_of_isDigit hc
  have hrange' := toNat_of_isDigit hd
  have hzero : '0'.toNat = 48 := rfl
  rw [compare_eq_compare_toNat, UInt8.toNat_ofNat', UInt8.toNat_ofNat', hzero]
  exact compare_congr (by omega) (by omega)

/-- The first digit counts for as many as there are numbers with the digits behind it. -/
theorem ofDigitChars_cons_zero (c : Char) (cs : List Char) :
    Nat.ofDigitChars 10 (c :: cs) 0 =
      10 ^ cs.length * (c.toNat - '0'.toNat) + Nat.ofDigitChars 10 cs 0 := by
  rw [Nat.ofDigitChars_cons, Nat.ofDigitChars_eq_ofDigitChars_zero, Nat.mul_zero, Nat.zero_add]

theorem ofDigitChars_lt (hcs : ∀ c ∈ cs, c.isDigit = true) :
    Nat.ofDigitChars 10 cs 0 < 10 ^ cs.length := by
  induction cs with
  | nil => decide
  | cons c cs ih =>
      have hrest := ih fun d hd => hcs d (List.mem_cons_of_mem c hd)
      have hrange := toNat_of_isDigit (hcs c List.mem_cons_self)
      have hdigit : c.toNat - '0'.toNat ≤ 9 := Nat.sub_le_of_le_add hrange.2
      have hfirst : 10 ^ cs.length * (c.toNat - '0'.toNat) ≤ 10 ^ cs.length * 9 :=
        Nat.mul_le_mul_left _ hdigit
      rw [ofDigitChars_cons_zero, List.length_cons, Nat.pow_succ]
      omega

/-- The first digit is the quotient by that number, and the digits behind it are the rest. -/
theorem ofDigitChars_cons_div_mod (c : Char) (hcs : ∀ d ∈ cs, d.isDigit = true) :
    Nat.ofDigitChars 10 (c :: cs) 0 / 10 ^ cs.length = c.toNat - '0'.toNat ∧
      Nat.ofDigitChars 10 (c :: cs) 0 % 10 ^ cs.length = Nat.ofDigitChars 10 cs 0 := by
  have hrest := ofDigitChars_lt hcs
  rw [ofDigitChars_cons_zero]
  constructor
  · rw [Nat.mul_add_div (Nat.zero_lt_of_lt hrest), Nat.div_eq_of_lt hrest, Nat.add_zero]
  · rw [Nat.mul_add_mod, Nat.mod_eq_of_lt hrest]

/-- Digits of equal number are ordered like what they stand for. -/
theorem compare_digits (hcs : ∀ c ∈ cs, c.isDigit = true) (hds : ∀ d ∈ ds, d.isDigit = true)
    (hlength : cs.length = ds.length) :
    compare (cs.flatMap String.utf8EncodeChar) (ds.flatMap String.utf8EncodeChar) =
      compare (Nat.ofDigitChars 10 cs 0) (Nat.ofDigitChars 10 ds 0) := by
  induction cs generalizing ds with
  | nil => rw [List.eq_nil_of_length_eq_zero hlength.symm]; rfl
  | cons c cs ih =>
      obtain _ | ⟨d, ds⟩ := ds
      · exact absurd hlength (Nat.succ_ne_zero _)
      have hlength : cs.length = ds.length := Nat.succ.inj hlength
      rw [List.forall_mem_cons] at hcs hds
      -- The first digits are quotients by the same number because equally many digits follow.
      obtain ⟨hfirst, hrest⟩ := ofDigitChars_cons_div_mod c hcs.2
      obtain ⟨hfirst', hrest'⟩ := ofDigitChars_cons_div_mod d hds.2
      rw [List.flatMap_cons, List.flatMap_cons, utf8EncodeChar_of_isDigit hcs.1,
        utf8EncodeChar_of_isDigit hds.1, List.singleton_append, List.singleton_append,
        List.compare_cons_cons, compare_digit hcs.1 hds.1, ih hcs.2 hds.2 hlength,
        ← hfirst, ← hfirst', ← hrest, ← hrest', hlength, compare_div_mod]

/-! ## Keys -/

/-- The digits of the key with number `i`. -/
def paddedDigits (i : Nat) : List Char :=
  List.replicate (keyDigits - (Nat.toDigits 10 i).length) '0' ++ Nat.toDigits 10 i

theorem encode_keyText (i : Nat) :
    Utf8.encode (keyText i) =
      Utf8.encode "key" ++ (paddedDigits i).flatMap String.utf8EncodeChar := by
  simp [Utf8.encode, keyText, paddedDigits, String.toUTF8, List.utf8Encode]

theorem isDigit_of_mem_paddedDigits (hc : c ∈ paddedDigits i) : c.isDigit = true := by
  rcases List.mem_append.mp hc with hzero | hdigit
  · rw [List.eq_of_mem_replicate hzero]
    rfl
  · exact Nat.isDigit_of_mem_toDigits (by decide) (by decide) hdigit

/-- The number of a key can be read back from its digits. -/
theorem ofDigitChars_paddedDigits (i : Nat) : Nat.ofDigitChars 10 (paddedDigits i) 0 = i := by
  rw [paddedDigits, Nat.ofDigitChars_append, Nat.ofDigitChars_replicate_zero, Nat.mul_zero,
    Nat.ofDigitChars_ten_toDigits]

theorem length_paddedDigits (hi : i < 10 ^ keyDigits) : (paddedDigits i).length = keyDigits := by
  have hfits : (Nat.toDigits 10 i).length ≤ keyDigits :=
    (Nat.length_toDigits_le_iff (by decide) (by decide)).mpr hi
  rw [paddedDigits, List.length_append, List.length_replicate, Nat.sub_add_cancel hfits]

/-- Keys within the width are ordered like their numbers. -/
theorem compare_keyText (hi : i < 10 ^ keyDigits) (hj : j < 10 ^ keyDigits) :
    compare (ofText (keyText i)) (ofText (keyText j)) = compare i j := by
  change compare (Utf8.encode (keyText i)) (Utf8.encode (keyText j)) = compare i j
  rw [encode_keyText, encode_keyText, compare_append,
    compare_digits (fun _ => isDigit_of_mem_paddedDigits) (fun _ => isDigit_of_mem_paddedDigits)
      ((length_paddedDigits hi).trans (length_paddedDigits hj).symm),
    ofDigitChars_paddedDigits, ofDigitChars_paddedDigits]

/-- Different numbers have different keys, within the width and beyond it. -/
theorem keyText_injective : Function.Injective fun i => ofText (keyText i) := by
  intro i j hkeys
  have hbytes : Utf8.encode (keyText i) = Utf8.encode (keyText j) := congrArg Slice.bytes hkeys
  have htexts : keyText i = keyText j :=
    String.toByteArray_inj.mp (ByteArray.ext (Array.toList_inj.mp hbytes))
  have hdigits : paddedDigits i = paddedDigits j := by
    have hlists := congrArg String.toList htexts
    simpa [keyText, paddedDigits] using hlists
  calc
    i = Nat.ofDigitChars 10 (paddedDigits i) 0 := (ofDigitChars_paddedDigits i).symm
    _ = Nat.ofDigitChars 10 (paddedDigits j) 0 := by rw [hdigits]
    _ = j := ofDigitChars_paddedDigits j

/-- The keys of a workload, as slices. -/
def keys (seed : UInt64) (n : Nat) (generator : UInt64 → WordStream := ChaCha.ofSeed) :
    List Slice :=
  (keyValues seed n generator).map fun pair => ⟨pair.1⟩

theorem map_fst_pairsFrom :
    (pairsFrom words position i n).map (fun pair => Slice.mk pair.1) =
      (List.range' i n).map fun j => ofText (keyText j) := by
  induction n generalizing position i with
  | zero => rfl
  | succ n ih => rw [pairsFrom, List.map_cons, ih, List.range'_succ, List.map_cons, ofText]

/-- The keys depend neither on the seed nor on the generator. -/
theorem keys_eq (seed : UInt64) (n : Nat) :
    keys seed n generator = (List.range n).map fun i => ofText (keyText i) := by
  rw [keys, keyValues, map_fst_pairsFrom, List.range_eq_range']

theorem getElem?_keys (seed : UInt64) (hi : i < n) :
    (keys seed n generator)[i]? = some (ofText (keyText i)) := by
  rw [keys_eq, List.getElem?_map, List.getElem?_range hi]
  rfl

theorem take_keys (seed : UInt64) (hle : n ≤ m) :
    (keys seed m generator).take n = keys seed n generator := by
  rw [keys, ← List.map_take, take_keyValues generator seed hle, keys]

theorem pairwise_keys (seed : UInt64) (hn : n ≤ 10 ^ keyDigits) :
    (keys seed n generator).Pairwise (· < ·) := by
  rw [keys_eq, List.pairwise_map]
  refine List.pairwise_lt_range.imp_of_mem fun hi hj hlt => ?_
  have hi := Nat.lt_of_lt_of_le (List.mem_range.mp hi) hn
  have hj := Nat.lt_of_lt_of_le (List.mem_range.mp hj) hn
  rw [Slice.lt_iff_compare, compare_keyText hi hj]
  exact Nat.compare_eq_lt.mpr hlt

/-- The keys on both sides of the width. -/
theorem keyText_at_width :
    keyText 99999999 = "key99999999" ∧ keyText 100000000 = "key100000000" := by
  decide +kernel

/-- The first key beyond the width comes before the last one within it. -/
theorem keys_at_width (seed : UInt64) (hn : 10 ^ 8 < n) :
    (keys seed n generator)[99999999]? = some (ofText "key99999999") ∧
      (keys seed n generator)[100000000]? = some (ofText "key100000000") ∧
      ofText "key100000000" < ofText "key99999999" := by
  obtain ⟨hlast, hwide⟩ := keyText_at_width
  rw [getElem?_keys seed (show 99999999 < n by omega), hlast,
    getElem?_keys seed (show 100000000 < n by omega), hwide]
  exact ⟨rfl, rfl, by decide⟩

theorem not_pairwise_keys (seed : UInt64) (hn : 10 ^ 8 < n) :
    ¬ (keys seed n generator).Pairwise (· < ·) := by
  intro hsorted
  obtain ⟨hlast, hwide, hgt⟩ := keys_at_width seed hn
  obtain ⟨hi, hlast⟩ := List.getElem?_eq_some_iff.mp hlast
  obtain ⟨hj, hwide⟩ := List.getElem?_eq_some_iff.mp hwide
  have hlt := List.pairwise_iff_getElem.mp hsorted _ _ hi hj (by decide)
  rw [hlast, hwide] at hlt
  exact lt_asymm hgt hlt

/-- Whatever the generator, a workload has as many keys as asked for, and they are all different.
They are sorted, in the order of slices, if and only if there are at most as many as there are
numbers of eight digits. In a larger workload that many keys are sorted, and the next one comes
before the last of them. -/
theorem keys_in_order (generator : UInt64 → WordStream) (seed : UInt64) (n : Nat) :
    ((keys seed n generator).length = n ∧ (keys seed n generator).Nodup) ∧
    ((keys seed n generator).Pairwise (· < ·) ↔ n ≤ 10 ^ 8) ∧
    (10 ^ 8 < n →
      ((keys seed n generator).take (10 ^ 8)).Pairwise (· < ·) ∧
      (keys seed n generator)[99999999]? = some (ofText "key99999999") ∧
      (keys seed n generator)[100000000]? = some (ofText "key100000000") ∧
      ofText "key100000000" < ofText "key99999999") := by
  have hsorted : (keys seed n generator).Pairwise (· < ·) ↔ n ≤ 10 ^ 8 :=
    ⟨fun hsorted => Nat.le_of_not_lt fun hn => not_pairwise_keys seed hn hsorted,
      pairwise_keys seed⟩
  refine ⟨⟨?_, ?_⟩, hsorted, fun hn => ⟨?_, keys_at_width seed hn⟩⟩
  · rw [keys_eq, List.length_map, List.length_range]
  · rw [keys_eq]
    exact List.nodup_range.map keyText_injective
  · rw [take_keys seed (Nat.le_of_lt hn)]
    exact pairwise_keys seed (Nat.le_refl _)

/-- One key more than there are numbers of eight digits. -/
theorem keys_in_order_first_wide :
    10 ^ 8 < 100000001 ∧ (keys 3 100000001).Nodup ∧
      ¬ (keys 3 100000001).Pairwise (· < ·) ∧
      ((keys 3 100000001).take (10 ^ 8)).Pairwise (· < ·) ∧
      (keys 3 100000001)[100000000]? = some (ofText "key100000000") := by
  have hn : 10 ^ 8 < 100000001 := by decide
  obtain ⟨⟨-, hnodup⟩, hsorted, hwide⟩ := keys_in_order ChaCha.ofSeed 3 100000001
  obtain ⟨hfront, -, hlast, -⟩ := hwide hn
  exact ⟨hn, hnodup, fun h => Nat.not_le_of_lt hn (hsorted.mp h), hfront, hlast⟩

end Lifespan.Workload
