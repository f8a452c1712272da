import Lifespan.Proofs.Arena.Copies
import Lifespan.Proofs.Arena.Settling
import Lifespan.Proofs.Memory.Elements

/-!
# Typed forms

Room for values is room for as many bytes as the values take, and the number of these bytes is never
cut short: if it is more than one object may span, the request fails. Values without bytes take no
room at all. What is stored in the room are the values one after another, whether they are one
value, a copy of some, or one value several times over; the last one is written slot by slot, and
comes to the same. All of this holds of any arena, whatever its memory has been used for before and
whatever its source does.
-/

namespace Lifespan

/-! ## Sizes and offsets -/

/-- No alignment that is a word is larger than half of the number of words. -/
theorem Alignment.le_of_lt_bound {align : Nat} (ha : IsValid align) (hlt : align < Word.bound) :
    align ≤ 2 ^ 63 := by
  obtain ⟨k, rfl⟩ := isValid_iff.mp ha
  have hbound : Word.bound = 2 ^ 64 := rfl
  have hk : k < 64 := (Nat.pow_lt_pow_iff_right (by decide)).mp (hbound ▸ hlt)
  exact Nat.pow_le_pow_right (by decide) (Nat.le_of_lt_succ hk)

section Aligned

variable {size align offset : Nat}

/-- A layout is valid if the exact number of its bytes, rounded up to the alignment, is no more than
one object may span. -/
theorem Layout.valid_iff (ha : Alignment.IsValid align) :
    Valid ⟨size, align⟩ ↔ (size : Int) ≤ 2 ^ 63 - align := by
  have hspan : Word.maxSpan + 1 = 2 ^ 63 := rfl
  simp only [Valid, hspan, ha, true_and]
  omega

/-- An offset that a block offers is aligned, wherever the block lies. -/
theorem Block.dvd_of_peek {b : Block} (ha : Alignment.IsValid align) (hle : align ≤ Word.bound)
    (h : b.peek size align = some offset) : align ∣ b.base + offset := by
  simp only [peek] at h
  split at h
  · contradiction
  · next here hhere =>
    obtain ⟨rfl, -⟩ := Word.add?_eq_some_iff.mp hhere
    split at h
    · contradiction
    · next aligned haligned =>
      obtain ⟨⟨⟨hge, hdvd⟩, -⟩, -⟩ := (Alignment.roundUp?_eq_some_iff ha hle).mp haligned
      split at h
      · contradiction
      · split at h
        · obtain rfl := Option.some.inj h
          have hsum : b.base + (b.cursor + (aligned - (b.base + b.cursor))) = aligned := by omega
          rwa [hsum]
        · contradiction

/-- What a search finds is an offset that the block offers. -/
theorem Index.peek_of_search {blocks : List Block} {l : Index} {r : Room}
    (h : search blocks size align l = .ok (some (r, offset))) :
    ∃ b, blocks[r.block]? = some b ∧ b.peek size align = some offset := by
  induction l with
  | nil => cases h
  | cons t rest ih =>
      rw [search] at h
      split at h
      · cases h
      · split at h
        · cases h
        · next b hb =>
          split at h
          · next o hpeek =>
            cases h
            exact ⟨b, hb, hpeek⟩
          · exact ih h

end Aligned

namespace Arena

variable {σ α : Type} {a a' : Arena σ} {e : Element α} {p : Placement} {s : Spot}
  {size align start count : Nat} {vs : List α} {v : α}

/-- A range in an existing block is aligned. -/
theorem aligned_of_reuse (ha : Alignment.IsValid align) (hmax : align ≤ maxAlign)
    (h : a.reuse size align = .ok (some (p, a'))) :
    ∃ b, a'.blocks[p.block]? = some b ∧ align ∣ b.base + p.offset := by
  have hle : align ≤ Word.bound := hmax.trans (by decide)
  simp only [reuse] at h
  split at h
  · cases h
  · cases h
  · next room offset hsearch =>
    obtain ⟨b, hb, hpeek⟩ := Index.peek_of_search hsearch
    simp only [hb] at h
    split at h
    · cases h
    · next b' hclaim =>
      obtain ⟨-, -, rfl⟩ := Block.claim_of_ok hclaim
      cases h
      have hlt := (List.getElem?_eq_some_iff.mp hb).1
      have hdvd := Block.dvd_of_peek ha hle hpeek
      exact ⟨_, List.getElem?_set_self hlt, hdvd⟩

/-- The first range of a new block is aligned. -/
theorem aligned_of_openBlock {grant : Source.Grant} {capacity offset : Nat} {b : Block}
    (ha : Alignment.IsValid align) (hmax : align ≤ maxAlign)
    (h : openBlock grant capacity size align = .ok (offset, b)) : align ∣ b.base + offset := by
  obtain ⟨-, rfl⟩ := openBlock_of_ok h
  simp only [openBlock] at h
  split at h
  · cases h
  · next o hpeek =>
    split at h
    · cases h
    · cases h
      exact Block.dvd_of_peek (b := ⟨grant, capacity, 0⟩) ha (hmax.trans (by decide)) hpeek

/-! ## Bytes that are handed out -/

/-- Some bytes have been handed out, and nothing outside them has been written to. -/
structure Reserves (a : Arena σ) (size align : Nat) (p : Placement) (a' : Arena σ) : Prop where
  claimed : ∃ b, a'.blocks[p.block]? = some b ∧ align ∣ b.base + p.offset ∧
    b.cursor = p.offset + size ∧ b.cursor ≤ b.capacity
  fresh : ∀ b, a.blocks[p.block]? = some b → b.cursor ≤ p.offset
  allocated : a'.allocatedBytes = a.allocatedBytes + size
  read : ∀ start, a'.address? p = some start → ∀ x, x < start ∨ start + size ≤ x →
    a'.memory.read x = a.memory.read x

theorem Reserves.exists_address? (h : a.Reserves size align p a') :
    ∃ start, a'.address? p = some start := by
  obtain ⟨b, hb, -⟩ := h.claimed
  exact ⟨_, Option.map_eq_some_iff.mpr ⟨b, hb, rfl⟩⟩

/-- The bytes may be written to. -/
theorem Reserves.writeAt (h : a.Reserves size align p a') {cells : List Cell}
    (hfit : cells.length ≤ size) : a.Reserves size align p (a'.writeAt p 0 cells) := by
  obtain ⟨start, hstart⟩ := h.exists_address?
  have hwrite : a'.writeAt p 0 cells = { a' with memory := a'.memory.write (start + 0) cells } := by
    simp only [Arena.writeAt, hstart]
  rw [hwrite]
  refine ⟨h.claimed, h.fresh, h.allocated, fun start' hstart' x hx => ?_⟩
  obtain rfl : start = start' := Option.some.inj (hstart.symm.trans hstart')
  exact (Memory.read_write_of_outside _ (by omega)).trans (h.read start hstart x hx)

/-- What has been written at a placed range is read there. -/
theorem cellsAt_writeAt (hp : a.address? p = some start) (cells : List Cell) :
    (a.writeAt p 0 cells).cellsAt p cells.length = cells := by
  simp only [cellsAt, address?_writeAt, hp, memory_writeAt hp]
  exact Memory.readRange_write _ _ _

section Source

variable [Source σ]

/-- A range in a new block is aligned. -/
theorem aligned_of_grow (ha : Alignment.IsValid align) (hmax : align ≤ maxAlign)
    (h : a.grow size align = (.ok p, a')) :
    ∃ b, a'.blocks[p.block]? = some b ∧ align ∣ b.base + p.offset := by
  rw [grow_eq] at h
  split at h
  · cases h
  · simp only [take] at h
    split at h
    · cases h
    · split at h
      · cases h
      · next offset b hopen =>
        cases h
        exact ⟨b, List.getElem?_concat_length, aligned_of_openBlock ha hmax hopen⟩

/-- A range that has been placed is aligned, whatever the source does. -/
theorem aligned_of_place (ha : Alignment.IsValid align) (h : a.place size align = (.ok p, a')) :
    ∃ b, a'.blocks[p.block]? = some b ∧ align ∣ b.base + p.offset := by
  simp only [place] at h
  split at h
  · cases h
  · next hmax =>
    have hmax := Nat.le_of_not_lt hmax
    split at h
    · cases h
    · next hreuse =>
      cases h
      have h := aligned_of_reuse ha hmax hreuse
      exact h
    · split at h
      · cases h
      · next hgrow =>
        cases h
        have h := aligned_of_grow ha hmax hgrow
        exact h

/-- A range that has been placed is reserved, whatever the source does. -/
theorem reserves_of_place (hsize : 0 < size) (ha : Alignment.IsValid align)
    (h : a.place size align = (.ok p, a')) : a.Reserves size align p a' := by
  obtain ⟨c, hc, hdvd⟩ := aligned_of_place ha h
  have hmemory := a.memory_place size align
  have hsettling := a.settling hsize ha
  rw [h] at hmemory hsettling
  have hread : ∀ start, a'.address? p = some start → ∀ x, x < start ∨ start + size ≤ x →
      a'.memory.read x = a.memory.read x := fun _ _ x _ => congrArg (Memory.read · x) hmemory
  cases hsettling with
  | @reused _ b index hb hcursor hend =>
      have hlt := (List.getElem?_eq_some_iff.mp hb).1
      obtain rfl := Option.some.inj ((List.getElem?_set_self hlt).symm.trans hc)
      refine ⟨⟨_, hc, hdvd, rfl, hend⟩, fun b' hb' => ?_, rfl, hread⟩
      rwa [Option.some.inj (hb'.symm.trans hb)]
  | @opened offset b source hopened =>
      obtain rfl := Option.some.inj (List.getElem?_concat_length.symm.trans hc)
      refine ⟨⟨b, hc, hdvd, hopened.cursor, hopened.cursor_le⟩, fun b' hb' => ?_, rfl, hread⟩
      -- There was no block with this number.
      rw [List.getElem?_eq_none (Nat.le_refl _)] at hb'
      contradiction

/-! ## Room for values -/

/-- No block is refused for the size of a request. -/
theorem grow_ne_layoutOverflow (a : Arena σ) (size align n z : Nat) :
    (a.grow size align).1 ≠ .error (.error (.layoutOverflow n z)) := by
  rw [grow_eq]
  cases horder : a.order size align with
  | error e =>
      have hne : e ≠ .layoutOverflow n z := by
        rintro rfl
        simp only [order] at horder
        grind
      exact fun h => hne (Failure.error.inj (Except.error.inj h))
  | ok layout =>
      have htaking := a.taking layout size align
      dsimp only
      generalize a.take layout size align = result at htaking ⊢
      cases htaking <;> simp

/-- No range is refused for its size once it is placed. -/
theorem place_ne_layoutOverflow (a : Arena σ) (size align n z : Nat) :
    (a.place size align).1 ≠ .error (.error (.layoutOverflow n z)) := by
  have hgrow := a.grow_ne_layoutOverflow size align n z
  simp only [place]
  split
  · simp
  · split
    · simp
    · simp
    · split
      · next heq => rwa [heq] at hgrow
      · simp

/-- Room for more than one object may span is refused, and the arena stays as it was. -/
theorem allocateArray_of_overflow (a : Arena σ) (ha : Alignment.IsValid e.align)
    (hspan : (2 : Int) ^ 63 - e.align < count * e.size) :
    a.allocateArray e count = (.error (.error (.layoutOverflow count e.size)), a) := by
  have hinvalid : ¬ Layout.Valid ⟨count * e.size, e.align⟩ := by
    rw [Layout.valid_iff ha, Int.natCast_mul]
    omega
  rw [Session.allocateArray_eq, if_pos hinvalid]

/-- Room for values is refused for its size just if the exact number of bytes, rounded up to the
alignment, is more than one object may span. -/
theorem layoutOverflow_iff (a : Arena σ) (ha : Alignment.IsValid e.align) (count : Nat) :
    (∃ n z, (a.allocateArray e count).1 = .error (.error (.layoutOverflow n z))) ↔
      (2 : Int) ^ 63 - e.align < count * e.size := by
  constructor
  · rintro ⟨n, z, h⟩
    by_contra hspan
    have hvalid : Layout.Valid ⟨count * e.size, e.align⟩ := by
      rw [Layout.valid_iff ha, Int.natCast_mul]
      omega
    rw [Session.allocateArray_eq, if_neg (not_not_intro hvalid)] at h
    split at h
    · cases h
    · -- Placing the range has errors of its own, but not this one.
      have hplace := a.place_ne_layoutOverflow (count * e.size) e.align n z
      generalize a.place (count * e.size) e.align = result at h hplace
      rcases result with ⟨f | p, a'⟩
      · cases h
        exact hplace rfl
      · cases h
  · intro hspan
    exact ⟨count, e.size, by rw [a.allocateArray_of_overflow ha hspan]⟩

/-- Values without bytes take no room, whatever their alignment is. -/
theorem allocateArray_of_eq_zero (a : Arena σ) (ha : Alignment.IsValid e.align)
    (hword : e.align < Word.bound) (hzero : count * e.size = 0) :
    a.allocateArray e count = (.ok (.dangling e.align), a) := by
  have hvalid : Layout.Valid ⟨count * e.size, e.align⟩ := by
    have hle := Alignment.le_of_lt_bound ha hword
    rw [Layout.valid_iff ha, hzero]
    omega
  rw [Session.allocateArray_eq, if_neg (not_not_intro hvalid), if_pos hzero]

/-- Room for values that are not too many is room for as many bytes as they take. -/
theorem allocateArray_eq_allocate (a : Arena σ) (ha : Alignment.IsValid e.align)
    (hpos : 0 < count * e.size) (hspan : (count : Int) * e.size ≤ 2 ^ 63 - e.align) :
    ((a.allocateArray e count).1.map Spot.placement?, (a.allocateArray e count).2) =
      a.allocate (count * e.size) e.align := by
  have hvalid : Layout.Valid ⟨count * e.size, e.align⟩ := by
    rwa [Layout.valid_iff ha, Int.natCast_mul]
  rw [Session.allocateArray_eq, if_neg (not_not_intro hvalid), if_neg hpos.ne', allocate,
    if_neg hpos.ne', if_neg (not_not_intro ha)]
  rcases a.place (count * e.size) e.align with ⟨f | p, a'⟩ <;> rfl

end Source

/-- Room for some bytes: none at all for no bytes, and otherwise a range that is reserved. -/
inductive MakesRoom (a : Arena σ) (size align : Nat) : Spot → Arena σ → Prop where
  | spared : size = 0 → MakesRoom a size align (.dangling align) a
  | reserved {p : Placement} {a' : Arena σ} : 0 < size → a.Reserves size align p a' →
    MakesRoom a size align (.placed p) a'

theorem allocateArray_makesRoom [Source σ] (ha : Alignment.IsValid e.align)
    (h : a.allocateArray e count = (.ok s, a')) :
    a.MakesRoom (count * e.size) e.align s a' := by
  rw [Session.allocateArray_eq] at h
  split at h
  · cases h
  · split at h
    · next hzero =>
      cases h
      exact .spared hzero
    · next hne =>
      have hpos := Nat.pos_of_ne_zero hne
      rcases hplace : a.place (count * e.size) e.align with ⟨f | p, b⟩
      · rw [hplace] at h
        cases h
      · rw [hplace] at h
        cases h
        exact .reserved hpos (reserves_of_place hpos ha hplace)

/-! ## Values in their room -/

/-- Values that have been written one after another are read there. -/
theorem valuesAt_writeAt (lawful : e.Lawful) (hp : a.address? p = some start) (vs : List α) :
    (a.writeAt p 0 (e.encodeAll vs)).valuesAt e (.placed p) vs.length = vs := by
  obtain ⟨b, hb, rfl⟩ := Option.map_eq_some_iff.mp hp
  have hslot : ∀ n, a.address? ⟨p.block, p.offset + n⟩ = some (b.base + p.offset + n) := by
    intro n
    simp only [address?, hb, Option.map_some, Nat.add_assoc]
  simp only [valuesAt, cellsAt, address?_writeAt, hslot, memory_writeAt hp, Nat.add_zero]
  exact lawful.map_decode a.memory (b.base + p.offset) vs

/-- Writing is no matter of the books. -/
theorem writeAt_books (a : Arena σ) (p : Placement) (offset : Nat) (cells : List Cell) :
    { a with memory := (a.writeAt p offset cells).memory } = a.writeAt p offset cells := by
  obtain ⟨m, hm⟩ := a.writeAt_eq p offset cells
  rw [hm]

theorem store_books (a : Arena σ) (s : Spot) (cells : List Cell) :
    { a with memory := (a.store s cells).memory } = a.store s cells := by
  cases s with
  | dangling address => rfl
  | placed p => exact a.writeAt_books p 0 cells

/-- What is stored in room for some values. -/
theorem MakesRoom.store (lawful : e.Lawful)
    (h : a.MakesRoom (vs.length * e.size) e.align s a') :
    a.MakesRoom (vs.length * e.size) e.align s (a'.store s (e.encodeAll vs)) ∧
      (a'.store s (e.encodeAll vs)).valuesAt e s vs.length = vs := by
  cases h with
  | spared hzero => exact ⟨.spared hzero, (lawful.eq_replicate_of_size vs hzero).symm⟩
  | reserved hpos hreserves =>
      obtain ⟨start, hp⟩ := hreserves.exists_address?
      have hfit := Nat.le_of_eq (lawful.length_encodeAll vs)
      exact ⟨.reserved hpos (hreserves.writeAt hfit), valuesAt_writeAt lawful hp vs⟩

section Stores

variable [Source σ]

/-- How storing values ends: there is no room for them, or they are read in their room. -/
inductive Stores (a : Arena σ) (e : Element α) (vs : List α) :
    Except Failure Spot × Arena σ → Prop where
  | failed {f : Failure} {a' : Arena σ} : a.allocateArray e vs.length = (.error f, a') →
    Stores a e vs (.error f, a')
  | stored {s : Spot} {b a' : Arena σ} : a.allocateArray e vs.length = (.ok s, b) →
    { b with memory := a'.memory } = a' → a.MakesRoom (vs.length * e.size) e.align s a' →
    a'.valuesAt e s vs.length = vs → Stores a e vs (.ok s, a')

/-- A copy of values stores them. -/
theorem allocCopy_stores (lawful : e.Lawful) (a : Arena σ) (vs : List α) :
    a.Stores e vs (a.allocCopy e vs) := by
  simp only [allocCopy]
  rcases hroom : a.allocateArray e vs.length with ⟨f | s, b⟩
  · exact .failed hroom
  · obtain ⟨hmakes, hvalues⟩ :=
      (allocateArray_makesRoom lawful.isValid_align hroom).store lawful
    exact .stored hroom (b.store_books s _) hmakes hvalues

/-- One value is stored as a copy of one. -/
theorem alloc_eq_allocCopy (a : Arena σ) (e : Element α) (v : α) :
    a.alloc e v = a.allocCopy e [v] := by
  simp only [alloc, allocCopy, List.length_singleton, Element.encodeAll_singleton]

/-- A value several times over is stored as a copy of as many. -/
theorem allocFill_eq_allocCopy (a : Arena σ) (e : Element α) (count : Nat) (v : α) :
    a.allocFill e count v = a.allocCopy e (List.replicate count v) := by
  simp only [allocFill, allocCopy, List.length_replicate]
  rcases a.allocateArray e count with ⟨f | s, b⟩
  · rfl
  · cases s <;> rfl

end Stores

/-! ## Slot by slot -/

/-- Writes values one by one into the slots of a placed range, from the slot with a number on. -/
def writeSlots (e : Element α) (p : Placement) : Nat → List α → Arena σ → Arena σ
  | _, [], a => a
  | i, v :: rest, a => writeSlots e p (i + 1) rest (a.writeAt p (i * e.size) (e.encode v))

/-- Fills slots with a value: all but the last one with copies, and the last one with the value
itself. -/
def fillSlots (e : Element α) (p : Placement) (v : α) : Nat → Arena σ → Arena σ
  | 0, a => a
  | n + 1, a =>
    (writeSlots e p 0 (List.replicate n v) a).writeAt p (n * e.size) (e.encode v)

theorem writeSlots_eq (e : Element α) (p : Placement) (i : Nat) (vs : List α) (a : Arena σ) :
    ∃ m, writeSlots e p i vs a = { a with memory := m } := by
  induction vs generalizing i a with
  | nil => exact ⟨a.memory, rfl⟩
  | cons v rest ih =>
      obtain ⟨m, hm⟩ := a.writeAt_eq p (i * e.size) (e.encode v)
      rw [writeSlots, hm]
      exact ih (i + 1) { a with memory := m }

/-- Slots that are written one by one are written as one. -/
theorem read_writeSlots (lawful : e.Lawful) (hp : a.address? p = some start) (i : Nat)
    (vs : List α) : (writeSlots e p i vs a).memory.read =
      (a.memory.write (start + i * e.size) (e.encodeAll vs)).read := by
  induction vs generalizing i a with
  | nil => exact (Memory.read_write_nil _ _).symm
  | cons v rest ih =>
      have hnext : start + (i + 1) * e.size = start + i * e.size + (e.encode v).length := by
        rw [lawful.length_encode, Nat.succ_mul, Nat.add_assoc]
      have hp' : (a.writeAt p (i * e.size) (e.encode v)).address? p = some start := by
        rw [address?_writeAt, hp]
      rw [writeSlots, ih hp', memory_writeAt hp, hnext, Memory.read_write_write,
        Element.encodeAll_cons]

theorem writeSlots_append (e : Element α) (p : Placement) (i : Nat) (vs ws : List α)
    (a : Arena σ) :
    writeSlots e p i (vs ++ ws) a = writeSlots e p (i + vs.length) ws (writeSlots e p i vs a) := by
  induction vs generalizing i a with
  | nil => rfl
  | cons v rest ih =>
      rw [List.cons_append, writeSlots, ih, writeSlots, List.length_cons, Nat.add_assoc,
        Nat.add_comm 1]

/-- The value that is written last is one more of its copies. -/
theorem fillSlots_eq_writeSlots (e : Element α) (p : Placement) (v : α) (count : Nat)
    (a : Arena σ) : fillSlots e p v count a = writeSlots e p 0 (List.replicate count v) a := by
  cases count with
  | zero => rfl
  | succ n =>
      rw [List.replicate_succ', writeSlots_append, List.length_replicate, Nat.zero_add]
      rfl

/-- A range that is filled slot by slot reads as if it had been written at once. -/
theorem fillSlots_readsAs (lawful : e.Lawful) (hp : a.address? p = some start) (v : α)
    (count : Nat) : (fillSlots e p v count a).ReadsAs
      (a.writeAt p 0 (e.encodeAll (List.replicate count v))) := by
  have hread := read_writeSlots lawful hp 0 (List.replicate count v)
  obtain ⟨m, hm⟩ := writeSlots_eq e p 0 (List.replicate count v) a
  rw [Nat.zero_mul, ← memory_writeAt hp] at hread
  rw [fillSlots_eq_writeSlots]
  refine ⟨?_, hread⟩
  rw [hm]
  simp only [writeAt, hp]

/-! ## Zeros -/

section Forms

variable [Source σ]

/-- Values are filled in slot by slot, with the same effect. -/
theorem allocFill_readsAs (lawful : e.Lawful) {b : Arena σ}
    (h : a.allocateArray e count = (.ok (.placed p), b)) (v : α) :
    (fillSlots e p v count b).ReadsAs (a.allocFill e count v).2 := by
  have hmakes := allocateArray_makesRoom lawful.isValid_align h
  cases hmakes with
  | reserved _ hreserves =>
      obtain ⟨start, hp⟩ := hreserves.exists_address?
      simp only [allocFill, h, store, repeated]
      exact fillSlots_readsAs lawful hp v count

/-- Zeros end like room for as many bytes. -/
theorem allocZeroed_fst (a : Arena σ) (size align : Nat) :
    (a.allocZeroed size align).1 = (a.allocate size align).1 := by
  simp only [allocZeroed]
  rcases a.allocate size align with ⟨f | _ | p, b⟩ <;> rfl

theorem allocZeroed_books (a : Arena σ) (size align : Nat) :
    { (a.allocate size align).2 with memory := (a.allocZeroed size align).2.memory } =
      (a.allocZeroed size align).2 := by
  simp only [allocZeroed]
  rcases a.allocate size align with ⟨f | _ | p, b⟩
  · rfl
  · rfl
  · exact b.writeAt_books p 0 _

theorem allocZeroed_of_error {f : Failure} (h : a.allocate size align = (.error f, a')) :
    a.allocZeroed size align = (.error f, a') := by
  simp only [allocZeroed, h]

/-- Bytes that have been allocated are reserved. -/
theorem reserves_of_allocate (h : a.allocate size align = (.ok (some p), a')) :
    0 < size ∧ a.Reserves size align p a' := by
  simp only [allocate] at h
  split at h
  · cases h
  · next hsize =>
    split at h
    · cases h
    · next hvalid =>
      have hpos := Nat.pos_of_ne_zero hsize
      split at h
      · cases h
      · next hplace =>
        cases h
        exact ⟨hpos, reserves_of_place hpos (not_not.mp hvalid) hplace⟩

/-- A range of zeros is reserved, and every one of its cells is a zero, whatever they were. -/
theorem reserves_of_allocZeroed (h : a.allocZeroed size align = (.ok (some p), a')) :
    0 < size ∧ a.Reserves size align p a' ∧
      a'.cellsAt p size = List.replicate size (.byte 0) := by
  simp only [allocZeroed] at h
  split at h
  · next hallocate =>
    cases h
    obtain ⟨hpos, hreserves⟩ := reserves_of_allocate hallocate
    obtain ⟨start, hp⟩ := hreserves.exists_address?
    have hlength : (List.replicate size (Cell.byte 0)).length = size := List.length_replicate
    have hcells := cellsAt_writeAt hp (List.replicate size (.byte 0))
    rw [hlength] at hcells
    exact ⟨hpos, hreserves.writeAt (Nat.le_of_eq hlength), hcells⟩
  · next hnot => exact absurd h (hnot _ _)

/-- Room for values is refused for its size just if the exact number of their bytes, rounded up to
the alignment, is more than one object may span; it is spared if there are no bytes, and otherwise
it is room for these bytes. The values are read in it one after another, and a value as many times
as it was asked for. Zeros are read in all the cells that they were asked for. The arena may be any,
so it does not matter what its memory held before. -/
theorem typed_forms_exact (a : Arena σ) (lawful : e.Lawful) (hword : e.align < Word.bound) :
    (∀ count : Nat,
      ((∃ n z, (a.allocateArray e count).1 = .error (.error (.layoutOverflow n z))) ↔
        (2 : Int) ^ 63 - e.align < count * e.size) ∧
      ((2 : Int) ^ 63 - e.align < count * e.size →
        a.allocateArray e count = (.error (.error (.layoutOverflow count e.size)), a)) ∧
      (count * e.size = 0 → a.allocateArray e count = (.ok (.dangling e.align), a)) ∧
      (0 < count * e.size → (count : Int) * e.size ≤ 2 ^ 63 - e.align →
        ((a.allocateArray e count).1.map Spot.placement?, (a.allocateArray e count).2) =
          a.allocate (count * e.size) e.align) ∧
      ∀ s a', a.allocateArray e count = (.ok s, a') →
        a.MakesRoom (count * e.size) e.align s a') ∧
    (∀ v, a.Stores e [v] (a.alloc e v)) ∧
    (∀ vs, a.Stores e vs (a.allocCopy e vs)) ∧
    (∀ count v, a.Stores e (List.replicate count v) (a.allocFill e count v) ∧
      ∀ p b, a.allocateArray e count = (.ok (.placed p), b) →
        (fillSlots e p v count b).ReadsAs (a.allocFill e count v).2) ∧
    ∀ size align, (a.allocZeroed size align).1 = (a.allocate size align).1 ∧
      { (a.allocate size align).2 with memory := (a.allocZeroed size align).2.memory } =
        (a.allocZeroed size align).2 ∧
      (∀ f a', a.allocate size align = (.error f, a') →
        a.allocZeroed size align = (.error f, a')) ∧
      (size = 0 → a.allocZeroed size align = (.ok none, a)) ∧
      ∀ p a', a.allocZeroed size align = (.ok (some p), a') →
        0 < size ∧ a.Reserves size align p a' ∧
          a'.cellsAt p size = List.replicate size (.byte 0) := by
  have ha := lawful.isValid_align
  refine ⟨fun count => ⟨a.layoutOverflow_iff ha count, a.allocateArray_of_overflow ha,
    a.allocateArray_of_eq_zero ha hword, a.allocateArray_eq_allocate ha,
    fun s a' => allocateArray_makesRoom ha⟩, fun v => ?_, allocCopy_stores lawful a,
    fun count v => ⟨?_, fun p b h => allocFill_readsAs lawful h v⟩,
    fun size align => ⟨a.allocZeroed_fst size align, a.allocZeroed_books size align,
      fun f a' => allocZeroed_of_error, ?_, fun p a' => reserves_of_allocZeroed⟩⟩
  · rw [alloc_eq_allocCopy]
    exact allocCopy_stores lawful a [v]
  · rw [allocFill_eq_allocCopy]
    exact allocCopy_stores lawful a _
  · rintro rfl
    rfl

/-- A block that has been filled with set bits before a reset, the largest number of values that is
not refused for its size and the one above it, no values, and values without bytes at an alignment
that no block has. -/
theorem typed_forms_exact_recycled :
    let source : AddressSpace := { skew := 16 }
    let config : Config := { initialBlockSize := 64 }
    let a : Arena AddressSpace := (Session.run { arena := { config, source, nextBlockSize := 64 } }
      [.allocFill Element.uint64 8 0xffffffffffffffff, .reset]).arena
    Element.uint32.Lawful ∧ Element.uint32.align < Word.bound ∧
      (Element.blank 0 8192).Lawful ∧ (Element.blank 0 8192).align < Word.bound ∧
      a.cellsAt ⟨0, 0⟩ 64 = List.replicate 64 (.byte 255) ∧
      a.allocateArray Element.uint32 (2 ^ 61) = (.error (.error (.layoutOverflow (2 ^ 61) 4)), a) ∧
      (¬ ∃ n z, (a.allocateArray Element.uint32 (2 ^ 61 - 1)).1 =
        .error (.error (.layoutOverflow n z))) ∧
      a.allocateArray Element.uint32 0 = (.ok (.dangling 4), a) ∧
      a.allocateArray (Element.blank 0 8192) (2 ^ 64 - 1) = (.ok (.dangling 8192), a) ∧
      (∃ b, a.allocFill Element.uint32 3 7 = (.ok (.placed ⟨0, 0⟩), b) ∧
        b.valuesAt Element.uint32 (.placed ⟨0, 0⟩) 3 = [7, 7, 7]) ∧
      ∃ b, a.allocZeroed 9 8 = (.ok (some ⟨0, 0⟩), b) ∧
        b.cellsAt ⟨0, 0⟩ 9 = List.replicate 9 (.byte 0) := by
  intro source config a
  have hword : Element.uint32.align < Word.bound := by decide
  have hblank : (Element.blank 0 8192).Lawful := Element.lawful_blank (by decide) (by decide)
  have hblankWord : (Element.blank 0 8192).align < Word.bound := by decide
  obtain ⟨hroom, -, -, hfill, hzeroed⟩ := typed_forms_exact a Element.lawful_uint32 hword
  obtain ⟨hblankRoom, -, -, -, -⟩ := typed_forms_exact a hblank hblankWord
  obtain ⟨-, hrefused, -, -, -⟩ := hroom (2 ^ 61)
  obtain ⟨hlargest, -, -, -, -⟩ := hroom (2 ^ 61 - 1)
  obtain ⟨-, -, hnone, -, -⟩ := hroom 0
  obtain ⟨-, -, hblankNone, -, -⟩ := hblankRoom (2 ^ 64 - 1)
  refine ⟨Element.lawful_uint32, hword, hblank, hblankWord, by decide, hrefused (by decide),
    fun h => absurd (hlargest.mp h) (by decide), hnone rfl, hblankNone rfl, ?_, ?_⟩
  · have hreply : (a.allocFill Element.uint32 3 7).1 = .ok (.placed ⟨0, 0⟩) := by decide
    have hstores := (hfill 3 7).1
    rcases hresult : a.allocFill Element.uint32 3 7 with ⟨reply, b⟩
    rw [hresult] at hreply hstores
    obtain rfl : reply = .ok (.placed ⟨0, 0⟩) := hreply
    cases hstores with
    | stored _ _ _ hvalues => exact ⟨b, rfl, hvalues⟩
  · have hreply : (a.allocZeroed 9 8).1 = .ok (some ⟨0, 0⟩) := by decide
    rcases hresult : a.allocZeroed 9 8 with ⟨reply, b⟩
    rw [hresult] at hreply
    obtain rfl : reply = .ok (some ⟨0, 0⟩) := hreply
    obtain ⟨-, -, -, -, hrange⟩ := hzeroed 9 8
    obtain ⟨-, -, hcells⟩ := hrange _ _ hresult
    exact ⟨b, rfl, hcells⟩

end Forms

end Arena

end Lifespan
