import Lifespan.Proofs.Memory.Cell
import Mathlib.Algebra.Group.Nat.Defs

/-!
# Element types are lawful

Values of an element type that lie behind one another can be read one by one, because each of them
takes as many cells as its type says. The element types at hand are lawful: numbers read back from
their bytes, padding is not looked at, and opaque values are known by what they stand for.

## Main results

* `Memory.readRange_write_append`: reading in the middle of what was written.
* `Element.Lawful.map_decode`: values behind one another read back in their order.
* `Element.ofLowBytes_lowBytes`: a number reads back from its bytes.
* `Element.lawful_uint8`, …, `Element.lawful_blank`: the element types at hand.
-/

namespace Lifespan

/-- Cells in the middle of what was written read back. -/
theorem Memory.readRange_write_append (m : Memory) (address : Nat)
    (before cells after : List Cell) :
    (m.write address (before ++ (cells ++ after))).readRange (address + before.length)
      cells.length = cells := by
  let start := address + before.length
  have hread : (m.write address (before ++ (cells ++ after))).read =
      ((m.write address before).write start (cells ++ after)).read :=
    (read_write_write m address before _).symm
  have hsplit : ((m.write address before).write start (cells ++ after)).read =
      (((m.write address before).write start cells).write (start + cells.length) after).read :=
    (read_write_write _ start cells after).symm
  have hcongr : (m.write address (before ++ (cells ++ after))).readRange start cells.length =
      ((m.write address before).write start cells).readRange start cells.length := by
    refine readRange_congr fun i hi => ?_
    rw [hread, hsplit, read_write_of_outside _ (by omega)]
  exact hcongr.trans (readRange_write _ start cells)

namespace Element

variable {α : Type} {e : Element α}

/-! ## Values behind one another -/

theorem encodeAll_append (e : Element α) (vs ws : List α) :
    e.encodeAll (vs ++ ws) = e.encodeAll vs ++ e.encodeAll ws :=
  List.flatMap_append

theorem encodeAll_cons (e : Element α) (v : α) (vs : List α) :
    e.encodeAll (v :: vs) = e.encode v ++ e.encodeAll vs :=
  List.flatMap_cons

theorem encodeAll_singleton (e : Element α) (v : α) : e.encodeAll [v] = e.encode v := by
  rw [encodeAll_cons, encodeAll, List.flatMap_nil, List.append_nil]

namespace Lawful

variable (lawful : e.Lawful)
include lawful

theorem length_encodeAll (vs : List α) : (e.encodeAll vs).length = vs.length * e.size :=
  Element.length_encodeAll lawful.length_encode vs

/-- The value with a number is read where it has been written. -/
theorem decode_readRange (m : Memory) (address : Nat) (vs : List α) {i : Nat} (hi : i < vs.length) :
    e.decode ((m.write address (e.encodeAll vs)).readRange (address + i * e.size) e.size) =
      vs[i] := by
  have hsplit : e.encodeAll vs =
      e.encodeAll (vs.take i) ++ (e.encode vs[i] ++ e.encodeAll (vs.drop (i + 1))) := by
    rw [← encodeAll_cons, ← encodeAll_append, ← List.drop_eq_getElem_cons hi,
      List.take_append_drop]
  have hbefore : (e.encodeAll (vs.take i)).length = i * e.size := by
    rw [lawful.length_encodeAll, List.length_take_of_le (Nat.le_of_lt hi)]
  have hcells := Memory.readRange_write_append m address (e.encodeAll (vs.take i))
    (e.encode vs[i]) (e.encodeAll (vs.drop (i + 1)))
  rw [← hsplit, hbefore, lawful.length_encode] at hcells
  rw [hcells, lawful.decode_encode]

/-- Values behind one another read back in their order. -/
theorem map_decode (m : Memory) (address : Nat) (vs : List α) :
    ((List.range vs.length).map fun i =>
      e.decode ((m.write address (e.encodeAll vs)).readRange (address + i * e.size) e.size)) =
        vs := by
  refine List.ext_getElem (by simp) fun i _ hi => ?_
  rw [List.getElem_map, List.getElem_range, lawful.decode_readRange m address vs hi]

/-- Values without cells are all the same. -/
theorem eq_replicate_of_size (vs : List α) (hzero : vs.length * e.size = 0) :
    vs = List.replicate vs.length (e.decode []) := by
  rcases Nat.mul_eq_zero.mp hzero with hempty | hsize
  · rw [List.length_eq_zero_iff.mp hempty]
    rfl
  · refine List.eq_replicate_iff.mpr ⟨rfl, fun v _ => ?_⟩
    have hcells : e.encode v = [] :=
      List.length_eq_zero_iff.mp ((lawful.length_encode v).trans hsize)
    rw [← hcells, lawful.decode_encode]

end Lawful

/-! ## The element types at hand -/

/-- A number that fits into some bytes reads back from them. -/
theorem ofLowBytes_lowBytes {n v : Nat} (h : v < 256 ^ n) : ofLowBytes (lowBytes n v) = v := by
  induction n generalizing v with
  | zero =>
      rw [Nat.pow_zero, Nat.lt_one_iff] at h
      rw [h]
      rfl
  | succ n ih =>
      have hrest : v / 256 < 256 ^ n := Nat.div_lt_of_lt_mul (by rwa [Nat.pow_succ'] at h)
      have hlow : (UInt8.ofNat v).toNat = v % 256 := UInt8.toNat_ofNat'
      rw [lowBytes, ofLowBytes, ih hrest, hlow]
      exact Nat.mod_add_div v 256

theorem map_toByte_map_byte (bytes : Bytes) : (bytes.map Cell.byte).map Cell.toByte = bytes := by
  rw [List.map_map]
  exact List.map_id bytes

/-- Numbers of `n` bytes are lawful if they fit into these, and are known by their values. -/
theorem lawful_number {n : Nat} {toNat : α → Nat} {ofNat : Nat → α} (ha : Alignment.IsValid n)
    (hlt : ∀ v, toNat v < 256 ^ n) (hof : ∀ v, ofNat (toNat v) = v) :
    (number n toNat ofNat).Lawful where
  length_encode v := length_encode_number n toNat ofNat v
  decode_encode v := by
    simp only [number, map_toByte_map_byte, ofLowBytes_lowBytes (hlt v), hof]
  isValid_align := ha
  align_dvd := Nat.dvd_refl n

theorem lawful_uint8 : uint8.Lawful :=
  lawful_number (by decide) (fun v => v.toNat_lt) fun _ => UInt8.ofNat_toNat

theorem lawful_uint16 : uint16.Lawful :=
  lawful_number (by decide) (fun v => v.toNat_lt) fun _ => UInt16.ofNat_toNat

theorem lawful_uint32 : uint32.Lawful :=
  lawful_number (by decide) (fun v => v.toNat_lt) fun _ => UInt32.ofNat_toNat

theorem lawful_uint64 : uint64.Lawful :=
  lawful_number (by decide) (fun v => v.toNat_lt) fun _ => UInt64.ofNat_toNat

theorem lawful_uint128 : uint128.Lawful :=
  lawful_number (by decide) (fun v => v.isLt) fun v =>
    (BitVec.ofNat_toNat 128 v).trans (BitVec.setWidth_eq v)

theorem lawful_triple : triple.Lawful where
  length_encode _ := rfl
  decode_encode _ := rfl
  isValid_align := by decide
  align_dvd := by decide

theorem lawful_pair : pair.Lawful where
  length_encode := length_encode_pair
  decode_encode v := Prod.ext rfl (lawful_uint32.decode_encode v.2)
  isValid_align := by decide
  align_dvd := by decide

theorem lawful_text : text.Lawful where
  length_encode s := (List.length_map _).trans List.length_range
  decode_encode _ := rfl
  isValid_align := by decide
  align_dvd := by decide

theorem lawful_blank {size align : Nat} (ha : Alignment.IsValid align) (hdvd : align ∣ size) :
    (blank size align).Lawful where
  length_encode _ := List.length_replicate
  decode_encode _ := rfl
  isValid_align := ha
  align_dvd := hdvd

end Element

end Lifespan
