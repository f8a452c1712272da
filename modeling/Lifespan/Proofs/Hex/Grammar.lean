import Lifespan.Proofs.Hex.RoundTrip

/-!
# What is read as hexadecimal text

A text is read if it consists of pairs of digits, and each pair gives one byte. Any other text is
refused: one of odd length for its length, whatever it consists of, and one of even length for the
first byte that is no digit, wherever in its pair this byte stands.
-/

namespace Lifespan.Hex

variable {text bs : Bytes} {b c d : UInt8} {n i j k : Nat}

/-! ## Digits of either case -/

/-- The bytes that are digits: those that are written, and the first six capital letters. -/
def IsDigit (d : UInt8) : Prop := IsSmallDigit d ∨ 0x41 ≤ d ∧ d ≤ 0x46

instance (d : UInt8) : Decidable (IsDigit d) := inferInstanceAs (Decidable (_ ∨ _))

/-- The digits `0123456789abcdef`, in the order of their values. -/
def digits : Bytes :=
  [0x30, 0x31, 0x32, 0x33, 0x34, 0x35, 0x36, 0x37, 0x38, 0x39, 0x61, 0x62, 0x63, 0x64, 0x65, 0x66]

/-- The value of a digit: its place among the digits, once a capital letter has been made small. -/
def digitValue (d : UInt8) : Nat := digits.idxOf (toLower d)

/-- The bytes without a value are those that are no digits. -/
theorem value?_eq_none_iff : value? d = none ↔ ¬ IsDigit d := by
  simp only [IsDigit, IsSmallDigit, UInt8.le_iff_toNat_le, UInt8.reduceToNat]
  grind [value?]

theorem isDigit_of_value? (hd : value? d = some n) : IsDigit d := by
  by_contra hno
  rw [value?_eq_none_iff.mpr hno] at hd
  contradiction

theorem idxOf_digit : ∀ n < 16, digits.idxOf (digit n) = n := by decide

theorem digitValue_of_value? (hd : value? d = some n) : digitValue d = n := by
  obtain ⟨hn, hlower⟩ := toLower_of_value? hd
  rw [digitValue, hlower, idxOf_digit n hn]

/-! ## The first fault -/

/-- The byte at an index is the first of a text that is no digit. -/
structure FirstFault (text : Bytes) (i : Nat) (d : UInt8) : Prop where
  position : text[i]? = some d
  fault : ¬ IsDigit d
  before : ∀ c ∈ text.take i, IsDigit c

/-- The first fault is the first byte, or that of the other bytes if the first byte is a digit. -/
theorem firstFault_cons_iff :
    FirstFault (c :: text) i d ↔
      ¬ IsDigit c ∧ i = 0 ∧ d = c ∨ IsDigit c ∧ ∃ j, i = j + 1 ∧ FirstFault text j d := by
  constructor
  · rintro ⟨hat, hfault, hbefore⟩
    cases i with
    | zero =>
        obtain rfl : c = d := by simpa using hat
        exact .inl ⟨hfault, rfl, rfl⟩
    | succ i =>
        rw [List.take_succ_cons, List.forall_mem_cons] at hbefore
        exact .inr ⟨hbefore.1, i, rfl, hat, hfault, hbefore.2⟩
  · rintro (⟨hc, rfl, rfl⟩ | ⟨hc, j, rfl, hat, hfault, hbefore⟩)
    · exact ⟨rfl, hc, by simp⟩
    · refine ⟨hat, hfault, ?_⟩
      rw [List.take_succ_cons, List.forall_mem_cons]
      exact ⟨hc, hbefore⟩

theorem exists_firstFault (h : ∃ d ∈ text, ¬ IsDigit d) : ∃ i d, FirstFault text i d := by
  induction text with
  | nil => simp at h
  | cons c text ih =>
      by_cases hc : IsDigit c
      · obtain ⟨i, d, hfirst⟩ := ih (by simpa [hc] using h)
        exact ⟨i + 1, d, firstFault_cons_iff.mpr (.inr ⟨hc, i, rfl, hfirst⟩)⟩
      · exact ⟨0, c, firstFault_cons_iff.mpr (.inl ⟨hc, rfl, rfl⟩)⟩

/-- The first fault behind a pair of digits is that of the rest. -/
theorem FirstFault.of_digits (h : FirstFault (b :: c :: text) i d) (hb : IsDigit b)
    (hc : IsDigit c) : ∃ j, i = j + 2 ∧ FirstFault text j d := by
  obtain ⟨hno, -⟩ | ⟨-, i, rfl, hbehind⟩ := firstFault_cons_iff.mp h
  · contradiction
  obtain ⟨hno, -⟩ | ⟨-, j, rfl, hrest⟩ := firstFault_cons_iff.mp hbehind
  · contradiction
  · exact ⟨j, rfl, hrest⟩

/-- Pairs are refused for their first fault, counted from where the pairs begin. -/
theorem decodePairs_of_firstFault (heven : text.length % 2 = 0) (h : FirstFault text j d) :
    decodePairs i text = .error (.invalidDigit (i + j) d) := by
  fun_induction decodePairs i text generalizing j with
  | case1 i high low rest hhigh =>
      obtain ⟨-, rfl, rfl⟩ | ⟨hdigit, -⟩ := firstFault_cons_iff.mp h
      · rfl
      · exact (value?_eq_none_iff.mp hhigh hdigit).elim
  | case2 i high low rest n hlow hhigh =>
      obtain ⟨hno, -⟩ | ⟨-, j, rfl, hbehind⟩ := firstFault_cons_iff.mp h
      · exact (hno (isDigit_of_value? hhigh)).elim
      obtain ⟨-, rfl, rfl⟩ | ⟨hdigit, -⟩ := firstFault_cons_iff.mp hbehind
      · rfl
      · exact (value?_eq_none_iff.mp hlow hdigit).elim
  | case3 i high low rest m n hlow hhigh e hrest ih =>
      obtain ⟨k, rfl, hfirst⟩ := h.of_digits (isDigit_of_value? hhigh) (isDigit_of_value? hlow)
      simp only [List.length_cons] at heven
      have hindex : i + (k + 2) = i + 2 + k := by omega
      rw [hindex, ← hrest]
      exact ih (by omega) hfirst
  | case4 i high low rest m n hlow hhigh bs hrest ih =>
      -- The rest is read, so it has no fault.
      obtain ⟨k, rfl, hfirst⟩ := h.of_digits (isDigit_of_value? hhigh) (isDigit_of_value? hlow)
      simp only [List.length_cons] at heven
      have herror := ih (by omega) hfirst
      rw [hrest] at herror
      contradiction
  | case5 text i hshort =>
      rcases text with _ | ⟨b, _ | ⟨c, rest⟩⟩
      · exact absurd h.position (by simp)
      · contradiction
      · exact (hshort b c rest rfl).elim

/-! ## What is read -/

/-- Digits are read, in pairs. -/
theorem exists_decodePairs_eq_ok (h : ∀ d ∈ text, IsDigit d) :
    ∃ bs, decodePairs i text = .ok bs := by
  fun_induction decodePairs i text with
  | case1 i high low rest hhigh =>
      exact (value?_eq_none_iff.mp hhigh (h high List.mem_cons_self)).elim
  | case2 i high low rest n hlow hhigh =>
      exact (value?_eq_none_iff.mp hlow (h low (by simp))).elim
  | case3 i high low rest m n hlow hhigh e hrest ih =>
      obtain ⟨bs, hok⟩ := ih fun d hd => h d (by simp [hd])
      rw [hrest] at hok
      contradiction
  | case4 i high low rest m n hlow hhigh bs hrest ih => exact ⟨_, rfl⟩
  | case5 => exact ⟨[], rfl⟩

theorem getElem?_encode (bs : Bytes) (k : Nat) :
    (encode bs)[2 * k]? = bs[k]?.map (fun b => digit (b.toNat / 16)) ∧
      (encode bs)[2 * k + 1]? = bs[k]?.map (fun b => digit (b.toNat % 16)) := by
  induction bs generalizing k with
  | nil => exact ⟨rfl, rfl⟩
  | cons b bs ih =>
      cases k with
      | zero => exact ⟨rfl, rfl⟩
      | succ k => exact ih k

/-- Every byte that is read is given by the values of its two digits. -/
theorem halves_of_decode (h : decode text = .ok bs) (hb : bs[k]? = some b) :
    ∃ high low, text[2 * k]? = some high ∧ text[2 * k + 1]? = some low ∧
      b.toNat = 16 * digitValue high + digitValue low := by
  have hdigit (i n : Nat) (hn : n < 16) (hat : (encode bs)[i]? = some (digit n)) :
      ∃ d, text[i]? = some d ∧ digitValue d = n := by
    rw [← decode_eq_ok_iff.mp h, lowerCase, List.getElem?_map, Option.map_eq_some_iff] at hat
    obtain ⟨d, hd, hlower⟩ := hat
    exact ⟨d, hd, digitValue_of_value? (value?_eq_some_iff.mpr ⟨hn, hlower⟩)⟩
  have hlt := b.toNat_lt
  obtain ⟨hhigh, hlow⟩ := getElem?_encode bs k
  rw [hb] at hhigh hlow
  obtain ⟨high, hhigh, hhalf⟩ := hdigit _ _ (by omega) hhigh
  obtain ⟨low, hlow, hhalf'⟩ := hdigit _ _ (by omega) hlow
  exact ⟨high, low, hhigh, hlow, by omega⟩

theorem length_of_decode (h : decode text = .ok bs) : bs.length = text.length / 2 := by
  have hlength := congrArg List.length (decode_eq_ok_iff.mp h)
  rw [lowerCase, List.length_map, length_encode] at hlength
  omega

/-- Exactly the pairs of digits are read, and the first fault is reported. A text of odd length is
refused for its length, whatever it consists of. One of even length is refused for the first byte
that is no digit, if there is one. Otherwise it is read, as half as many bytes as it has digits,
each of them sixteen times the value of its first digit and the value of the second. -/
theorem reads_its_grammar (text : Bytes) :
    (text.length % 2 = 1 → decode text = .error (.oddLength text.length)) ∧
    (text.length % 2 = 0 → (∃ d ∈ text, ¬ IsDigit d) →
      ∃ i d, FirstFault text i d ∧ decode text = .error (.invalidDigit i d)) ∧
    (text.length % 2 = 0 → (∀ d ∈ text, IsDigit d) →
      ∃ bs, decode text = .ok bs ∧ bs.length = text.length / 2 ∧
        ∀ k b, bs[k]? = some b → ∃ high low, text[2 * k]? = some high ∧
          text[2 * k + 1]? = some low ∧ b.toNat = 16 * digitValue high + digitValue low) := by
  refine ⟨fun hodd => ?_, fun heven hfault => ?_, fun heven hdigits => ?_⟩
  · rw [decode, if_pos hodd]
  · obtain ⟨i, d, hfirst⟩ := exists_firstFault hfault
    refine ⟨i, d, hfirst, ?_⟩
    rw [decode, if_neg (by omega), decodePairs_of_firstFault heven hfirst, Nat.zero_add]
  · obtain ⟨bs, hbs⟩ := exists_decodePairs_eq_ok (i := 0) hdigits
    have hread : decode text = .ok bs := by rw [decode, if_neg (by omega), hbs]
    exact ⟨bs, hread, length_of_decode hread, fun _ _ => halves_of_decode hread⟩

/-- The texts `0zz`, `0Az!` and `fF0a`. -/
theorem reads_its_grammar_three :
    decode [0x30, 0x7A, 0x7A] = .error (.oddLength 3) ∧
      decode [0x30, 0x41, 0x7A, 0x21] = .error (.invalidDigit 2 0x7A) ∧
      (∃ bs, decode [0x66, 0x46, 0x30, 0x61] = .ok bs ∧ bs.length = 2) := by
  refine ⟨(reads_its_grammar _).1 rfl, ?_, ?_⟩
  · obtain ⟨i, d, hfirst, hrefused⟩ :=
      (reads_its_grammar [0x30, 0x41, 0x7A, 0x21]).2.1 rfl ⟨0x7A, by decide, by decide⟩
    have hsame : DecodeError.invalidDigit i d = .invalidDigit 2 0x7A :=
      Except.error.inj (hrefused.symm.trans (by decide))
    rw [hrefused, hsame]
  · have hdigits : ∀ d ∈ ([0x66, 0x46, 0x30, 0x61] : Bytes), IsDigit d := by
      simp [IsDigit, IsSmallDigit]
    obtain ⟨bs, hread, hlength, -⟩ := (reads_its_grammar _).2.2 rfl hdigits
    exact ⟨bs, hread, hlength⟩

end Lifespan.Hex
