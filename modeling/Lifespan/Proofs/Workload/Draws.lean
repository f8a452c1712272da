import Lifespan.Word
import Lifespan.Workload
import Mathlib.Data.List.Basic

/-!
# Workloads read off the stream

A workload is drawn item by item: each item reads on where the one before it stopped. Here a draw is
a computation whose state is the position of the next word, and the workloads are what these
computations return. Since a longer workload goes on where the shorter one ends, it begins with the
shorter one, whatever number of words each item took.

Bytes are drawn in whole words, so what is left of a last word is lost to the next item but no other
one is skipped. Sizes are drawn with a checked sum, so that a size that is no word would be seen.
-/

namespace Lifespan.Workload

open WordStream (wordBytes wordsFor bytesAt)

variable {α β : Type} {words : WordStream} {position i n m maximum : Nat}

/-! ## Reading on -/

/-- A computation that reads on in the stream. Its state is the position of the next word. -/
abbrev Draw := StateM Nat

/-- What a computation returns that reads from the start of the stream. -/
def fromStart (draw : Draw α) : α := (draw.run 0).1

/-- The next word. -/
def drawWord (words : WordStream) : Draw UInt32 := fun position => (words position, position + 1)

/-- The next two words as one, the low half first. -/
def drawDouble (words : WordStream) : Draw UInt64 := do
  let low ← drawWord words
  let high ← drawWord words
  return low.toUInt64 ||| (high.toUInt64 <<< 32)

/-- The next `n` bytes. The bytes of the last word that are not asked for are dropped. -/
def drawBytes (words : WordStream) : Nat → Draw Bytes
  | 0 => return []
  | n + 4 => do
    let x ← drawWord words
    let rest ← drawBytes words n
    return wordBytes x ++ rest
  | n => do
    let x ← drawWord words
    return (wordBytes x).take n

/-- The next size, if the sum that it is stays a word. -/
def drawSize (words : WordStream) (maximum : Nat) : Draw (Option Nat) := do
  let roll ← drawWord words
  let x ← drawDouble words
  let bound := if roll.toNat % 4 = 0 then maximum else min maximum smallMaximum
  return Word.add? 1 (x.toNat % bound)

/-- The pair with number `i`: the length of the value is drawn first, then its bytes. -/
def drawPair (words : WordStream) (i : Nat) : Draw (Bytes × Bytes) := do
  let x ← drawWord words
  let value ← drawBytes words (16 + x.toNat % 113)
  return (Utf8.encode (keyText i), value)

theorem run_pure (x : α) : (pure x : Draw α).run position = (x, position) := rfl

/-- The second computation reads on where the first one stopped. -/
theorem run_bind (draw : Draw α) (next : α → Draw β) :
    (draw >>= next).run position =
      (next (draw.run position).1).run (draw.run position).2 := rfl

theorem run_drawWord :
    (drawWord words).run position = (words position, position + 1) := rfl

theorem run_drawDouble :
    (drawDouble words).run position = (words.double position, position + 2) := rfl

/-! ## Items one after another -/

/-- The `n` items from number `i` on, drawn one after another. -/
def collect (draw : Nat → Draw α) (i : Nat) : Nat → Draw (List α)
  | 0 => return []
  | n + 1 => do
    let x ← draw i
    let rest ← collect draw (i + 1) n
    return x :: rest

section Collect

variable (draw : Nat → Draw α)

theorem length_collect : ((collect draw i n).run position).1.length = n := by
  induction n generalizing i position with
  | zero => rfl
  | succ n ih => exact congrArg Nat.succ ih

/-- A longer run draws the items of the shorter one and goes on where that one ends. -/
theorem collect_add :
    collect draw i (n + m) = do
      let front ← collect draw i n
      let back ← collect draw (i + n) m
      return front ++ back := by
  induction n generalizing i with
  | zero => simp [collect]
  | succ n ih =>
      have hnumber : i + 1 + n = i + (n + 1) := by omega
      rw [Nat.succ_add, collect, collect, ih, hnumber]
      simp only [bind_assoc, pure_bind, List.cons_append]

theorem take_collect (hle : n ≤ m) :
    ((collect draw i m).run position).1.take n = ((collect draw i n).run position).1 := by
  obtain ⟨k, rfl⟩ := Nat.exists_eq_add_of_le hle
  rw [collect_add]
  exact List.take_left' (length_collect draw)

end Collect

/-! ## Bytes -/

theorem length_flatMap_wordBytes (words : List Nat) (f : Nat → UInt32) :
    (words.flatMap fun j => wordBytes (f j)).length = 4 * words.length := by
  simp [wordBytes, Nat.mul_comm]

theorem length_bytesAt : (words.bytesAt position n).length = n := by
  rw [bytesAt, List.length_take, length_flatMap_wordBytes, List.length_range, wordsFor]
  omega

theorem wordsFor_add_four : wordsFor (n + 4) = wordsFor n + 1 := by
  simp only [wordsFor]; omega

theorem wordsFor_of_lt_four (hpos : n ≠ 0) (hlt : n < 4) : wordsFor n = 1 := by
  simp only [wordsFor]; omega

/-- A word and the bytes behind it. -/
theorem bytesAt_add_four :
    words.bytesAt position (n + 4) =
      wordBytes (words position) ++ words.bytesAt (position + 1) n := by
  have hlength : n + 4 = (wordBytes (words position)).length + n := Nat.add_comm n 4
  have hwords (k : Nat) :
      ((List.range (k + 1)).flatMap fun j => wordBytes (words (position + j))) =
        wordBytes (words position) ++
          (List.range k).flatMap fun j => wordBytes (words (position + 1 + j)) := by
    simp only [List.range_succ_eq_map, List.flatMap_cons, List.flatMap_map, Nat.add_zero,
      Nat.succ_eq_add_one, Nat.add_assoc, Nat.add_comm 1]
  rw [bytesAt, wordsFor_add_four, hwords, hlength, List.take_length_add_append, bytesAt]

/-- Bytes that end within their first word. -/
theorem bytesAt_of_lt_four (hpos : n ≠ 0) (hlt : n < 4) :
    words.bytesAt position n = (wordBytes (words position)).take n := by
  rw [bytesAt, wordsFor_of_lt_four hpos hlt, List.range_one, List.flatMap_singleton, Nat.add_zero]

theorem run_drawBytes :
    (drawBytes words n).run position = (words.bytesAt position n, position + wordsFor n) := by
  induction n using drawBytes.induct generalizing position with
  | case1 => rfl
  | case2 n ih =>
      have hnext : position + (wordsFor n + 1) = position + 1 + wordsFor n := by omega
      rw [drawBytes, bytesAt_add_four, wordsFor_add_four, hnext]
      simp only [run_bind, run_pure, run_drawWord, ih]
  | case3 n hzero hfour =>
      -- A whole word is taken for these bytes, too, so the position moves on by one.
      have hlt : n < 4 := Nat.lt_of_not_le fun hle => hfour (n - 4) (by omega)
      rw [drawBytes, bytesAt_of_lt_four hzero hlt, wordsFor_of_lt_four hzero hlt]
      · simp only [run_bind, run_pure, run_drawWord]
      · exact hzero
      · exact hfour

/-- More bytes begin with the fewer ones. -/
theorem take_bytesAt (hle : n ≤ m) :
    (words.bytesAt position m).take n = words.bytesAt position n := by
  obtain ⟨k, hk⟩ : ∃ k, wordsFor m = wordsFor n + k :=
    Nat.exists_eq_add_of_le (Nat.div_le_div_right (Nat.add_le_add_right hle 3))
  rw [bytesAt, bytesAt, List.take_take, Nat.min_eq_left hle, hk, List.range_add,
    List.flatMap_append, List.take_append_of_le_length]
  rw [length_flatMap_wordBytes, List.length_range, wordsFor]
  omega

/-! ## Sizes and pairs -/

/-- A size is at least one, and the rest that is added to one is below the bound. -/
theorem requestSize_mem (hpos : 0 < maximum) :
    1 ≤ requestSize words maximum i ∧ requestSize words maximum i ≤ maximum := by
  have hsmall : 0 < min maximum smallMaximum := Nat.lt_min.mpr ⟨hpos, by decide⟩
  simp only [requestSize]
  split
  · have := Nat.mod_lt (words.double (3 * i + 1)).toNat hpos
    omega
  · have := Nat.mod_lt (words.double (3 * i + 1)).toNat hsmall
    omega

theorem run_drawSize (hpos : 0 < maximum) (hword : maximum < Word.bound) :
    (drawSize words maximum).run (3 * i) =
      (some (requestSize words maximum i), 3 * (i + 1)) := by
  have hsize : requestSize words maximum i < Word.bound :=
    Nat.lt_of_le_of_lt (requestSize_mem hpos).2 hword
  rw [drawSize, run_bind, run_bind, run_drawWord, run_drawDouble, run_pure]
  exact Prod.ext (Word.add?_eq_some_iff.mpr ⟨rfl, hsize⟩) (Nat.mul_succ 3 i).symm

theorem run_collect_drawSize (hpos : 0 < maximum) (hword : maximum < Word.bound) :
    (collect (fun _ => drawSize words maximum) i n).run (3 * i) =
      ((List.range' i n).map fun j => some (requestSize words maximum j), 3 * (i + n)) := by
  induction n generalizing i with
  | zero => rfl
  | succ n ih =>
      simp only [collect, run_bind, run_pure, run_drawSize hpos hword, ih, List.range'_succ,
        List.map_cons]
      rw [Nat.add_assoc, Nat.add_comm 1]

theorem run_drawPair :
    (drawPair words i).run position =
      ((Utf8.encode (keyText i), words.bytesAt (position + 1) (valueLength words position)),
        position + 1 + wordsFor (valueLength words position)) := by
  simp only [drawPair, run_bind, run_pure, run_drawWord, run_drawBytes, valueLength]

theorem run_collect_drawPair :
    ((collect (drawPair words) i n).run position).1 = pairsFrom words position i n := by
  induction n generalizing position i with
  | zero => rfl
  | succ n ih => simp only [collect, run_bind, run_pure, run_drawPair, ih, pairsFrom]

theorem valueLength_mem : 16 ≤ valueLength words position ∧ valueLength words position ≤ 128 := by
  have := Nat.mod_lt (words position).toNat (show 0 < 113 by decide)
  simp only [valueLength]
  omega

theorem length_value_of_mem_pairsFrom {pair : Bytes × Bytes}
    (hpair : pair ∈ pairsFrom words position i n) :
    16 ≤ pair.2.length ∧ pair.2.length ≤ 128 := by
  induction n generalizing position i with
  | zero => exact absurd hpair List.not_mem_nil
  | succ n ih =>
      rcases List.mem_cons.mp hpair with rfl | hrest
      · rw [length_bytesAt]
        exact valueLength_mem
      · exact ih hrest

/-! ## Longer workloads -/

variable (generator : UInt64 → WordStream)

theorem requestSizes_eq_ok (seed : UInt64) (n : Nat) (hpos : 0 < maximum) :
    requestSizes seed n maximum generator =
      .ok ((List.range n).map (requestSize (generator seed) maximum)) :=
  if_neg (Nat.ne_of_gt hpos)

/-- Sizes begin with fewer sizes, are in range, and are sums of words. -/
theorem requestSizes_prefix (seed : UInt64) (hle : n ≤ m) (hpos : 0 < maximum) :
    ∃ sizes, requestSizes seed m maximum generator = .ok sizes ∧
      requestSizes seed n maximum generator = .ok (sizes.take n) ∧
      sizes.length = m ∧
      (∀ size ∈ sizes, 1 ≤ size ∧ size ≤ maximum) ∧
      (maximum < Word.bound →
        fromStart (collect (fun _ => drawSize (generator seed) maximum) 0 m) =
          sizes.map some) := by
  refine ⟨_, requestSizes_eq_ok generator seed m hpos, ?_, ?_, ?_, fun hword => ?_⟩
  · rw [requestSizes_eq_ok generator seed n hpos, ← List.map_take, List.take_range,
      Nat.min_eq_left hle]
  · rw [List.length_map, List.length_range]
  · simp only [List.mem_map]
    rintro _ ⟨i, -, rfl⟩
    exact requestSize_mem hpos
  · rw [List.map_map, List.range_eq_range']
    exact congrArg Prod.fst (run_collect_drawSize (i := 0) hpos hword)

theorem keyValues_eq_fromStart (seed : UInt64) (n : Nat) :
    keyValues seed n generator = fromStart (collect (drawPair (generator seed)) 0 n) :=
  run_collect_drawPair.symm

/-- Pairs begin with fewer pairs. -/
theorem take_keyValues (seed : UInt64) (hle : n ≤ m) :
    (keyValues seed m generator).take n = keyValues seed n generator := by
  rw [keyValues_eq_fromStart, keyValues_eq_fromStart]
  exact take_collect _ hle

theorem length_keyValues (seed : UInt64) (n : Nat) : (keyValues seed n generator).length = n := by
  rw [keyValues_eq_fromStart]
  exact length_collect _

theorem randomBytes_eq_fromStart (seed : UInt64) (n : Nat) :
    randomBytes seed n generator = fromStart (drawBytes (generator seed) n) :=
  (congrArg Prod.fst run_drawBytes).symm

/-- Whatever words a generator makes of a seed, every workload is what draws one after another
return, begins with the same workload of fewer items, and has its sizes and lengths in range. -/
theorem prefix_stable (seed : UInt64) (hle : n ≤ m) :
    (∀ maximum, 0 < maximum → ∃ sizes,
      requestSizes seed m maximum generator = .ok sizes ∧
      requestSizes seed n maximum generator = .ok (sizes.take n) ∧
      sizes.length = m ∧
      (∀ size ∈ sizes, 1 ≤ size ∧ size ≤ maximum) ∧
      (maximum < Word.bound →
        fromStart (collect (fun _ => drawSize (generator seed) maximum) 0 m) =
          sizes.map some)) ∧
    ((keyValues seed m generator).take n = keyValues seed n generator ∧
      (keyValues seed m generator).length = m ∧
      (∀ pair ∈ keyValues seed m generator, 16 ≤ pair.2.length ∧ pair.2.length ≤ 128) ∧
      keyValues seed m generator = fromStart (collect (drawPair (generator seed)) 0 m)) ∧
    (randomBytes seed m generator).take n = randomBytes seed n generator ∧
      (randomBytes seed m generator).length = m ∧
      randomBytes seed m generator = fromStart (drawBytes (generator seed) m) := by
  have hsizes (maximum : Nat) (hpos : 0 < maximum) := requestSizes_prefix generator seed hle hpos
  have hvalues : ∀ pair ∈ keyValues seed m generator, 16 ≤ pair.2.length ∧ pair.2.length ≤ 128 :=
    fun _ => length_value_of_mem_pairsFrom
  exact ⟨hsizes,
    ⟨take_keyValues generator seed hle, length_keyValues generator seed m, hvalues,
      keyValues_eq_fromStart generator seed m⟩,
    take_bytesAt hle, length_bytesAt, randomBytes_eq_fromStart generator seed m⟩

/-- Sizes up to the largest word. The second of the three is drawn from all of them. -/
theorem prefix_stable_largest :
    2 ≤ 3 ∧ requestSizes 1 3 Word.max = .ok [43, 11004592982271133286, 29] ∧
      requestSizes 1 2 Word.max = .ok [43, 11004592982271133286] ∧
      fromStart (collect (fun _ => drawSize (ChaCha.ofSeed 1) Word.max) 0 3) =
        [some 43, some 11004592982271133286, some 29] ∧
      (keyValues 1 3).take 2 = keyValues 1 2 ∧
      (randomBytes 1 3).take 2 = randomBytes 1 2 := by
  have hle : 2 ≤ 3 := by decide
  have hpos : 0 < Word.max := by decide
  have hdrawn : requestSizes 1 3 Word.max = .ok [43, 11004592982271133286, 29] := by
    rw [requestSizes_eq_ok ChaCha.ofSeed 1 3 hpos]
    exact congrArg Except.ok (by decide +kernel)
  obtain ⟨hsizes, ⟨hpairs, -⟩, hbytes, -⟩ := prefix_stable ChaCha.ofSeed 1 hle
  obtain ⟨sizes, hlong, hshort, -, -, hchecked⟩ := hsizes Word.max hpos
  obtain rfl : sizes = _ := Except.ok.inj (hlong.symm.trans hdrawn)
  exact ⟨hle, hdrawn, hshort, hchecked (by decide), hpairs, hbytes⟩

end Lifespan.Workload
