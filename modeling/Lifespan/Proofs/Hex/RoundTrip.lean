import Lifespan.Slice.Basic
import Mathlib.Data.List.Basic

/-!
# Hexadecimal text read back

What is written for a byte string is read as that byte string. The other way round, a text is read
only if it is written for some byte string, capital letters apart: the reader takes both cases of a
letter for the same value, and the writer uses the small one. So reading forgets the case of the
letters and nothing else.
-/

namespace Lifespan.Hex

variable {bs cs text other : Bytes} {b d high low : UInt8} {n h l i : Nat}

/-! ## Digits -/

/-- The digits that are written: the decimal ones, and the first six small letters. -/
def IsSmallDigit (d : UInt8) : Prop := 0x30 ≤ d ∧ d ≤ 0x39 ∨ 0x61 ≤ d ∧ d ≤ 0x66

instance (d : UInt8) : Decidable (IsSmallDigit d) := inferInstanceAs (Decidable (_ ∨ _))

/-- The small letter for a capital one, and any other byte as it is. -/
def toLower (d : UInt8) : UInt8 := if 0x41 ≤ d ∧ d ≤ 0x5A then d + 0x20 else d

theorem toNat_toLower (d : UInt8) :
    (toLower d).toNat = if 0x41 ≤ d.toNat ∧ d.toNat ≤ 0x5A then d.toNat + 0x20 else d.toNat := by
  have hstart : (0x41 : UInt8) ≤ d ↔ 0x41 ≤ d.toNat := UInt8.le_iff_toNat_le
  have hstop : d ≤ (0x5A : UInt8) ↔ d.toNat ≤ 0x5A := UInt8.le_iff_toNat_le
  have hshift : (0x20 : UInt8).toNat = 0x20 := rfl
  simp only [toLower, hstart, hstop]
  split
  · rw [UInt8.toNat_add, hshift]
    omega
  · rfl

theorem toNat_digit (hn : n < 16) : (digit n).toNat = if n < 10 then 0x30 + n else 0x57 + n := by
  rw [digit, UInt8.toNat_ofNat']
  split <;> omega

theorem isSmallDigit_digit (hn : n < 16) : IsSmallDigit (digit n) := by
  have htoNat := toNat_digit hn
  simp only [IsSmallDigit, UInt8.le_iff_toNat_le, htoNat, UInt8.reduceToNat]
  split <;> omega

theorem toLower_of_isSmallDigit (hd : IsSmallDigit d) : toLower d = d := by
  simp only [IsSmallDigit, UInt8.le_iff_toNat_le, UInt8.reduceToNat] at hd
  refine UInt8.toNat_inj.mp ?_
  rw [toNat_toLower, if_neg (by omega)]

/-- A digit stands for its value. -/
theorem value?_digit (hn : n < 16) : value? (digit n) = some n := by
  grind [value?, toNat_digit hn]

/-- A capital letter stands for what the small one stands for. -/
theorem value?_toLower (d : UInt8) : value? (toLower d) = value? d := by
  grind [value?, toNat_toLower d]

/-- What has a value becomes the digit that is written for it. -/
theorem toLower_of_value? (hd : value? d = some n) : n < 16 ∧ toLower d = digit n := by
  have hn : n < 16 := by grind [value?]
  refine ⟨hn, UInt8.toNat_inj.mp ?_⟩
  rw [toNat_toLower, toNat_digit hn]
  grind [value?]

/-- A byte has the value of the digit that it becomes, and no value if it becomes none. -/
theorem value?_eq_some_iff : value? d = some n ↔ n < 16 ∧ toLower d = digit n := by
  refine ⟨toLower_of_value?, fun ⟨hn, hd⟩ => ?_⟩
  rw [← value?_toLower, hd, value?_digit hn]

/-! ## Texts -/

/-- A text with its capital letters made small. -/
def lowerCase (text : Bytes) : Bytes := text.map toLower

@[simp] theorem encode_nil : encode [] = [] := rfl

theorem encode_cons (b : UInt8) (bs : Bytes) :
    encode (b :: bs) = digit (b.toNat / 16) :: digit (b.toNat % 16) :: encode bs := rfl

@[simp] theorem length_encode (bs : Bytes) : (encode bs).length = 2 * bs.length := by
  induction bs with
  | nil => rfl
  | cons b rest ih =>
      simp only [encode_cons, List.length_cons, ih]
      omega

theorem isSmallDigit_of_mem_encode (h : d ∈ encode bs) : IsSmallDigit d := by
  obtain ⟨b, -, hd⟩ := List.mem_flatMap.mp h
  have hb := b.toNat_lt
  simp only [encodeByte, List.mem_cons, List.not_mem_nil, or_false] at hd
  rcases hd with rfl | rfl
  · exact isSmallDigit_digit (by omega)
  · exact isSmallDigit_digit (by omega)

/-- What is written has no capital letters. -/
theorem lowerCase_encode (bs : Bytes) : lowerCase (encode bs) = encode bs := by
  have hsame : ∀ d ∈ encode bs, toLower d = id d :=
    fun _ hd => toLower_of_isSmallDigit (isSmallDigit_of_mem_encode hd)
  rw [lowerCase, List.map_congr_left hsame, List.map_id]

/-- A byte is known from the values of its two digits. -/
theorem eq_ofNat_iff (hh : h < 16) (hl : l < 16) :
    b = UInt8.ofNat (16 * h + l) ↔ b.toNat / 16 = h ∧ b.toNat % 16 = l := by
  have hb := b.toNat_lt
  rw [← UInt8.toNat_inj, UInt8.toNat_ofNat']
  omega

/-- A text is written for a byte string, case apart, if its first two bytes have the values of the
two digits of the first byte, and the rest is written for the other bytes. -/
theorem lowerCase_eq_encode_iff :
    lowerCase (high :: low :: text) = encode bs ↔
      ∃ b cs, bs = b :: cs ∧ value? high = some (b.toNat / 16) ∧
        value? low = some (b.toNat % 16) ∧ lowerCase text = encode cs := by
  cases bs with
  | nil => simp [lowerCase, encode]
  | cons b cs =>
      have hb := b.toNat_lt
      have hhigh : b.toNat / 16 < 16 := by omega
      have hlow : b.toNat % 16 < 16 := by omega
      simp [lowerCase, encode_cons, value?_eq_some_iff, hhigh, hlow]

/-- Pairs of digits are read as the bytes for which they are written, case apart. -/
theorem decodePairs_eq_ok_iff (heven : text.length % 2 = 0) :
    decodePairs i text = .ok bs ↔ lowerCase text = encode bs := by
  fun_induction decodePairs i text generalizing bs with
  | case1 i high low rest hhigh => simp [lowerCase_eq_encode_iff, hhigh]
  | case2 i high low rest h hlow => simp [lowerCase_eq_encode_iff, hlow]
  | case3 i high low rest h l hlow hhigh e hrest ih =>
      -- The rest is not read, so it is written for no byte string.
      have hno (cs : Bytes) : ¬ lowerCase rest = encode cs := by
        rw [← ih (by simp only [List.length_cons] at heven; omega), hrest]
        simp
      simp [lowerCase_eq_encode_iff, hno]
  | case4 i high low rest h l hlow hhigh cs hrest ih =>
      have hh := (toLower_of_value? hhigh).1
      have hl := (toLower_of_value? hlow).1
      have hcs (ds : Bytes) : lowerCase rest = encode ds ↔ cs = ds := by
        rw [← ih (by simp only [List.length_cons] at heven; omega), hrest, Except.ok.injEq]
      simp only [lowerCase_eq_encode_iff, hhigh, hlow, hcs, Option.some.injEq, Except.ok.injEq]
      constructor
      · rintro rfl
        obtain ⟨hhalf, hhalf'⟩ := (eq_ofNat_iff hh hl).mp rfl
        exact ⟨_, cs, rfl, hhalf.symm, hhalf'.symm, rfl⟩
      · rintro ⟨b, _, rfl, hhalf, hhalf', rfl⟩
        rw [(eq_ofNat_iff hh hl).mpr ⟨hhalf.symm, hhalf'.symm⟩]
  | case5 text i hshort =>
      rcases text with _ | ⟨d, _ | ⟨c, rest⟩⟩
      · cases bs <;> simp [lowerCase, encode, encodeByte]
      · contradiction
      · exact (hshort d c rest rfl).elim

/-- A text is read as the bytes for which it is written, case apart; any other text is refused. -/
theorem decode_eq_ok_iff : decode text = .ok bs ↔ lowerCase text = encode bs := by
  by_cases hodd : text.length % 2 = 1
  · have hno : lowerCase text ≠ encode bs := by
      intro h
      have hlength := congrArg List.length h
      rw [lowerCase, List.length_map, length_encode] at hlength
      omega
    simp [decode, hodd, hno]
  · rw [decode, if_neg hodd]
    exact decodePairs_eq_ok_iff (by omega)

theorem decode_encode (bs : Bytes) : decode (encode bs) = .ok bs :=
  decode_eq_ok_iff.mpr (lowerCase_encode bs)

/-- Different byte strings are written differently. -/
theorem encode_injective (h : encode bs = encode cs) : bs = cs := by
  have hread := decode_encode bs
  rw [h, decode_encode] at hread
  exact (Except.ok.inj hread).symm

/-- Texts that are read are read alike if they differ in case only. -/
theorem eq_iff_lowerCase_eq (hbs : decode text = .ok bs) (hcs : decode other = .ok cs) :
    bs = cs ↔ lowerCase text = lowerCase other := by
  rw [decode_eq_ok_iff.mp hbs, decode_eq_ok_iff.mp hcs]
  exact ⟨congrArg encode, encode_injective⟩

/-! ## Characters -/

/-- A digit takes one byte as a character, too. -/
theorem utf8EncodeChar_of_isSmallDigit (hd : IsSmallDigit d) :
    String.utf8EncodeChar (Char.ofNat d.toNat) = [d] := by
  simp only [IsSmallDigit, UInt8.le_iff_toNat_le, UInt8.reduceToNat] at hd
  have hvalid : d.toNat.isValidChar := Or.inl (by omega)
  have hval : (Char.ofNat d.toNat).val.toNat = d.toNat := by
    rw [Char.ofNat, dif_pos hvalid]
    rfl
  rw [String.utf8EncodeChar, hval, if_pos (by omega), UInt8.ofNat_toNat]

/-- The text of characters consists of the bytes that are written. -/
theorem encode_toText (bs : Bytes) : Utf8.encode (toText bs) = encode bs := by
  have hbytes : Utf8.encode (toText bs) =
      (encode bs).flatMap fun d => String.utf8EncodeChar (Char.ofNat d.toNat) := by
    simp [Utf8.encode, toText, String.toUTF8, List.utf8Encode, List.flatMap_map]
  have hdigits : ∀ d ∈ encode bs, String.utf8EncodeChar (Char.ofNat d.toNat) = [d] :=
    fun _ hd => utf8EncodeChar_of_isSmallDigit (isSmallDigit_of_mem_encode hd)
  rw [hbytes, List.flatMap_congr hdigits, List.flatMap_singleton']

/-- Reading and writing are inverse to each other, up to case. What is written for a byte string has
two digits for each byte, without capital letters, and is read as that byte string; so it is when a
slice is written as characters and these are read as a slice again. A text is read as a byte string
if and only if it is written for it, once its capital letters have been made small. So two texts
that are read are read as the same bytes if and only if they are equal up to case. -/
theorem inverse_up_to_case :
    (∀ bs, decode (encode bs) = .ok bs ∧ (encode bs).length = 2 * bs.length ∧
      ∀ d ∈ encode bs, IsSmallDigit d) ∧
    (∀ s : Slice, (Slice.ofText s.toHex).bytes = encode s.bytes ∧
      (Slice.ofText s.toHex).decodeHex = .ok s.bytes) ∧
    (∀ text bs, decode text = .ok bs ↔ lowerCase text = encode bs) ∧
    ∀ text other bs cs, decode text = .ok bs → decode other = .ok cs →
      (bs = cs ↔ lowerCase text = lowerCase other) := by
  refine ⟨fun bs => ⟨decode_encode bs, length_encode bs, fun _ => isSmallDigit_of_mem_encode⟩,
    fun s => ?_, fun _ _ => decode_eq_ok_iff, fun _ _ _ _ => eq_iff_lowerCase_eq⟩
  have hbytes : (Slice.ofText s.toHex).bytes = encode s.bytes := encode_toText s.bytes
  refine ⟨hbytes, ?_⟩
  rw [Slice.decodeHex, hbytes]
  exact decode_encode s.bytes

/-- The texts `DeadBEEF0a` and `dEADbeef0A`. -/
theorem inverse_up_to_case_mixed :
    let text : Bytes := [0x44, 0x65, 0x61, 0x64, 0x42, 0x45, 0x45, 0x46, 0x30, 0x61]
    let other : Bytes := [0x64, 0x45, 0x41, 0x44, 0x62, 0x65, 0x65, 0x66, 0x30, 0x41]
    decode text = .ok [0xDE, 0xAD, 0xBE, 0xEF, 0x0A] ∧
      decode other = .ok [0xDE, 0xAD, 0xBE, 0xEF, 0x0A] ∧ text ≠ other ∧
      lowerCase text = lowerCase other := by
  intro text other
  have htext : decode text = .ok [0xDE, 0xAD, 0xBE, 0xEF, 0x0A] := by decide
  have hother : decode other = .ok [0xDE, 0xAD, 0xBE, 0xEF, 0x0A] := by decide
  exact ⟨htext, hother, by decide, (inverse_up_to_case.2.2.2 text other _ _ htext hother).mp rfl⟩

end Lifespan.Hex
