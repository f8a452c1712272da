import Lifespan.Proofs.Hex.RoundTrip
import Lifespan.Proofs.Slice.Order

/-!
# Hexadecimal text in order

The digits of larger values are larger bytes, although there is a gap between `9` and `a`, and the
high half of a byte is written first. So hexadecimal texts are ordered like the bytes for which they
are written, and they share two digits for each byte that these share. If the bytes part with equal
high halves, the texts share one digit more.
-/

namespace Lifespan

variable {bs cs : Bytes} {b c : UInt8} {m n : Nat}

/-- The hexadecimal text of a slice, as a slice. -/
def Slice.hexText (s : Slice) : Slice := ofText s.toHex

namespace Hex

open Slice

theorem bytes_hexText (s : Slice) : s.hexText.bytes = encode s.bytes := encode_toText s.bytes

/-! ## The order of digits -/

/-- Digits are ordered like their values. -/
theorem compare_digit (hm : m < 16) (hn : n < 16) : compare (digit m) (digit n) = compare m n := by
  rw [compare_eq_compare_toNat, toNat_digit hm, toNat_digit hn]
  refine compare_congr ?_ ?_
  · split <;> split <;> omega
  · split <;> split <;> omega

theorem digit_inj (hm : m < 16) (hn : n < 16) : digit m = digit n ↔ m = n := by
  rw [← Std.LawfulEqOrd.compare_eq_iff_eq, compare_digit hm hn, Nat.compare_eq_eq]

/-! ## The order of texts -/

/-- The two digits of a byte are ordered like the byte. -/
theorem compare_digits (b c : UInt8) :
    (compare (digit (b.toNat / 16)) (digit (c.toNat / 16))).then
      (compare (digit (b.toNat % 16)) (digit (c.toNat % 16))) = compare b c := by
  have hb := b.toNat_lt
  have hc := c.toNat_lt
  rw [compare_digit (by omega) (by omega), compare_digit (by omega) (by omega), compare_div_mod,
    compare_eq_compare_toNat]

/-- Hexadecimal texts are ordered like the byte strings for which they are written. -/
theorem compare_encode (bs cs : Bytes) : compare (encode bs) (encode cs) = compare bs cs := by
  induction bs generalizing cs with
  | nil => cases cs <;> rfl
  | cons b bs ih =>
      cases cs with
      | nil => rfl
      | cons c cs =>
          simp only [encode_cons, List.compare_cons_cons, ih]
          rw [← Ordering.then_assoc, compare_digits]

/-- Hexadecimal texts share two digits for each shared byte, and perhaps the first digit of the next
byte. -/
theorem sharedLength_encode (bs cs : Bytes) :
    sharedLength (encode bs) (encode cs) / 2 = sharedLength bs cs := by
  induction bs generalizing cs with
  | nil => simp
  | cons b bs ih =>
      cases cs with
      | nil => simp
      | cons c cs =>
          have hb := b.toNat_lt
          have hc := c.toNat_lt
          have hhigh : digit (b.toNat / 16) = digit (c.toNat / 16) ↔ b.toNat / 16 = c.toNat / 16 :=
            digit_inj (by omega) (by omega)
          have hlow : digit (b.toNat % 16) = digit (c.toNat % 16) ↔ b.toNat % 16 = c.toNat % 16 :=
            digit_inj (by omega) (by omega)
          have hsame : b = c ↔ b.toNat / 16 = c.toNat / 16 ∧ b.toNat % 16 = c.toNat % 16 := by
            rw [← UInt8.toNat_inj]
            omega
          simp only [encode_cons, sharedLength_cons_cons, hhigh, hlow, hsame, ← ih cs]
          grind

/-- Hexadecimal texts have the beginnings of the byte strings for which they are written. -/
theorem encode_isPrefix_iff : encode cs <+: encode bs ↔ cs <+: bs := by
  have hhalf := sharedLength_encode bs cs
  have hle := sharedLength_le (encode bs) (encode cs)
  rw [isPrefix_iff_sharedLength, isPrefix_iff_sharedLength]
  simp only [length_encode] at hle ⊢
  omega

/-- Hexadecimal texts sort and share beginnings like the bytes for which they are written: they are
ordered in the same way, one begins with another if and only if the bytes do, and the bytes share
half as many bytes, rounded down, as the texts share digits. -/
theorem sorts_alike (a b : Slice) :
    (a.hexText.bytes = encode a.bytes ∧ b.hexText.bytes = encode b.bytes) ∧
    compare a.hexText b.hexText = compare a b ∧
    (a.hexText.startsWith b.hexText = true ↔ a.startsWith b = true) ∧
    firstDifference a b = firstDifference a.hexText b.hexText / 2 := by
  have ha := bytes_hexText a
  have hb := bytes_hexText b
  refine ⟨⟨ha, hb⟩, ?_, ?_, ?_⟩
  · change compare a.hexText.bytes b.hexText.bytes = compare a.bytes b.bytes
    rw [ha, hb, compare_encode]
  · rw [startsWith_iff, startsWith_iff, ha, hb, encode_isPrefix_iff]
  · rw [firstDifference, firstDifference, ha, hb, sharedLength_encode]

end Hex

end Lifespan
