import Lifespan.Proofs.Arena.Index
import Lifespan.Proofs.Arena.Orders
import Lifespan.Proofs.Source.Contract
import Mathlib.Data.Prod.Lex

/-!
# What placing a range does

The books of an arena are sound when its blocks are the extents that it holds from its source, no
cursor has left its block, and the index mirrors the blocks. On sound books, placing a range
either claims it in the roomiest block that can hold it, or in a new block, or fails and changes
nothing but the state of the source. Each way keeps the books sound.

## Main definitions

* `Arena.Indexed`: what an arena keeps over any source.
* `Arena.Sound`: the invariant of the books.
* `Arena.Chosen`: the block and the offset that the placement rule asks for.
* `Arena.Grown`: the new block for a request, and the arena with it.
* `Arena.Placing`: how placing a range can end.

## Main results

* `Arena.Indexed.reuse_cases`: the search for a range and the claim of it never fail.
* `Arena.reuse_cases`, `Arena.grow_cases`: existing blocks and new ones.
* `Arena.placing`: all that placing can do.
* `Arena.Sound.of_placing`, `Arena.Sound.reset`: the books stay sound.
-/
namespace Lifespan

/-- Replacing a member of a list by one with the same image does not change the image. -/
theorem map_set_of_eq {α β : Type} {f : α → β} {l : List α} {i : Nat} {x y : α}
    (h : l[i]? = some x) (hf : f y = f x) : (l.set i y).map f = l.map f := by
  obtain ⟨hi, rfl⟩ := List.getElem?_eq_some_iff.mp h
  have hi' : i < (l.map f).length := by rwa [List.length_map]
  have hmap : (l.map f)[i] = f l[i] := List.getElem_map f
  rw [List.map_set, hf, ← hmap, List.set_getElem_self]

/-- The extent of a block. -/
def Block.extent (b : Block) : Source.Extent := ⟨b.grant, b.capacity⟩

namespace Arena

variable {σ : Type} {a : Arena σ} {size align : Nat} {p : Placement} {b : Block}

/-- The books of an arena whose source started in a given state. -/
structure Sound [Source σ] (origin : σ) (a : Arena σ) : Prop where
  history : Source.History origin a.source (a.blocks.map Block.extent)
  cursor_le : ∀ b ∈ a.blocks, b.cursor ≤ b.capacity
  mirrors : a.index.Mirrors a.blocks
  next_pos : 0 < a.nextBlockSize

/-- The block and the offset for a range: of all blocks that can hold it the one with the most room,
the latest of several such, and in it the least offset at which the range fits. -/
structure Chosen (a : Arena σ) (size align : Nat) (p : Placement) (b : Block) : Prop where
  block : a.blocks[p.block]? = some b
  least : IsLeast {o | b.Fits size align o} p.offset
  greatest : ∀ i c, a.blocks[i]? = some c → (∃ o, c.Fits size align o) →
    toLex (c.available, i) ≤ toLex (b.available, p.block)

/-- The arena with the cursor of one block behind a range. -/
def advance (a : Arena σ) (p : Placement) (b : Block) (size : Nat) : Arena σ :=
  { a with
    blocks := a.blocks.set p.block { b with cursor := p.offset + size }
    index := .ofBlocks 0 (a.blocks.set p.block { b with cursor := p.offset + size }) }

/-- The new block for a request, and the arena with it. The request lies at its start. -/
structure Grown [Source σ] (a : Arena σ) (size align : Nat) (b : Block) (a' : Arena σ) :
    Prop where
  blockSize : a.newBlockSize? size align = some b.grant.layout.size
  limit : a.violatedLimit? b.grant.layout.size = none
  layout_align : b.grant.layout.align = blockAlign align
  valid : b.grant.layout.Valid
  granted : Source.allocate b.grant.layout a.source = (some b.grant.base, a'.source)
  capacity : b.capacity = max (Source.usableSize b.grant.layout a'.source) b.grant.layout.size
  cursor : b.cursor = size
  books : a' = { a with source := a'.source }.addBlock b (decide (a.IsLarge size))

/-- A new block that is aligned for the request holds it at its start. -/
theorem openBlock_eq_ok {grant : Source.Grant} {capacity : Nat} (ha : Alignment.IsValid align)
    (hmax : align ≤ maxAlign) (hdvd : align ∣ grant.base)
    (hbound : grant.base + capacity < Word.bound) (hfit : size ≤ capacity) :
    openBlock grant capacity size align = .ok (0, { grant, capacity, cursor := size }) := by
  have hle : align ≤ Word.bound := hmax.trans (by decide)
  have hleast : IsLeast {o | (Block.mk grant capacity 0).Fits size align o} 0 :=
    ⟨⟨Nat.le_refl _, hdvd, by simpa using hfit⟩, fun _ _ => Nat.zero_le _⟩
  have hpeek : (Block.mk grant capacity 0).peek size align = some 0 :=
    (Block.peek_eq_some_iff (b := ⟨grant, capacity, 0⟩) ha hle hbound).mpr hleast
  have hclaim : (Block.mk grant capacity 0).claim 0 size =
      .ok { grant, capacity, cursor := size } :=
    (Block.claim_eq_ok_iff (by dsimp only; omega)).mpr
      ⟨Nat.le_refl _, by simpa using hfit, by rw [Nat.zero_add]⟩
  simp only [openBlock, hpeek, hclaim]

/-- A new block leaves the size of the next one above zero. -/
theorem next_pos_addBlock (hnext : 0 < a.nextBlockSize) (b : Block) (isLarge : Bool) :
    0 < (a.addBlock b isLarge).nextBlockSize := by
  simp only [addBlock]
  split
  · exact hnext
  · cases a.config.growth with
    | fixed => exact hnext
    | linear n => exact Word.addSat_pos (Nat.add_pos_left hnext n)
    | exponential => exact Word.addSat_pos (Nat.add_pos_left hnext _)

/-! ## The index -/

/-- The index of an arena lists the room of each block, and no cursor has left its block. -/
structure Indexed (a : Arena σ) : Prop where
  cursor_le : ∀ b ∈ a.blocks, b.cursor ≤ b.capacity
  mirrors : a.index.Mirrors a.blocks

/-- The index that is made anew lists the rooms, whatever the old one was. -/
theorem indexed_reset (a : Arena σ) : a.reset.Indexed where
  cursor_le := by
    intro b hb
    obtain ⟨c, -, rfl⟩ := List.mem_map.mp hb
    exact Nat.zero_le _
  mirrors := Index.mirrors_ofBlocks _

namespace Indexed

variable (h : a.Indexed)
include h

/-- A range in an existing block. -/
theorem advance (hend : p.offset + size ≤ b.capacity) : (a.advance p b size).Indexed where
  cursor_le := by
    intro c hc
    rcases List.mem_or_eq_of_mem_set hc with hc | rfl
    · exact h.cursor_le c hc
    · exact hend
  mirrors := Index.mirrors_ofBlocks _

/-- A new block. -/
theorem addBlock (hb : b.cursor ≤ b.capacity) (isLarge : Bool) :
    (a.addBlock b isLarge).Indexed where
  cursor_le := by
    intro c hc
    rcases List.mem_append.mp hc with hc | hc
    · exact h.cursor_le c hc
    · rw [List.mem_singleton.mp hc]
      exact hb
  mirrors := h.mirrors.push b

/-- The search for a range ends without one when none is found in any block. Otherwise the range is
claimed where it was found, in the roomiest and latest such block. There is no other end. -/
theorem reuse_cases (size align : Nat) :
    (a.reuse size align = .ok none ∧ ∀ b ∈ a.blocks, b.peek size align = none) ∨
      ∃ p b, a.blocks[p.block]? = some b ∧ b.peek size align = some p.offset ∧
        (∀ i c, a.blocks[i]? = some c → c.peek size align ≠ none →
          toLex (c.available, i) ≤ toLex (b.available, p.block)) ∧
        a.reuse size align = .ok (some (p, a.advance p b size)) := by
  have hlisted := fun r hr => (h.mirrors.mem_iff r).mp hr
  have hsearch : _ ∨ ∃ r o b, a.index.search a.blocks size align = _ ∧ _ :=
    Index.search_cases h.mirrors.sorted hlisted
  rcases hsearch with ⟨hnone, hall⟩ | ⟨r, o, b, hsome, hr, hb, ho, hbest⟩
  · refine Or.inl ⟨by rw [reuse, hnone], ?_⟩
    intro b hb
    obtain ⟨i, hi⟩ := List.mem_iff_getElem?.mp hb
    exact hall ⟨b.available, i⟩ ((h.mirrors.mem_iff _).mpr ⟨b, hi, rfl⟩) b hi
  · have hroom : b.available = r.available := by
      obtain ⟨c, hc, hroom⟩ := hlisted r hr
      cases hb.symm.trans hc
      exact hroom
    refine Or.inr ⟨⟨r.block, o⟩, b, hb, ho, ?_, ?_⟩
    · intro i c hc hne
      have hlist := (h.mirrors.mem_iff ⟨c.available, i⟩).mpr ⟨c, hc, rfl⟩
      rw [Prod.Lex.toLex_le_toLex, hroom]
      rcases hbest ⟨c.available, i⟩ hlist c hc hne with rfl | hlt | ⟨heq, hlt⟩
      · exact Or.inr ⟨rfl, Nat.le_refl _⟩
      · exact Or.inl hlt
      · exact Or.inr ⟨heq, Nat.le_of_lt hlt⟩
    · have hindex := (h.mirrors.replace hb { b with cursor := o + size }).eq_ofBlocks
      rw [hroom] at hindex
      simp only [reuse, hsome, hb, (Block.claim_of_peek ho).2, Arena.advance, hindex]

end Indexed

/-! ## Sound books -/

section Sound

variable [Source σ] {origin : σ} (honest : Source.Honest origin) (sound : a.Sound origin)
include honest sound

theorem Sound.base_add_capacity_lt (hb : b ∈ a.blocks) : b.base + b.capacity < Word.bound :=
  honest.bounded sound.history b.extent (List.mem_map_of_mem hb)

/-- The extents of different blocks have no address in common. -/
theorem Sound.extents_apart {i j : Nat} {c : Block} (hij : i ≠ j) (hb : a.blocks[i]? = some b)
    (hc : a.blocks[j]? = some c) : b.extent.span.Apart c.extent.span := by
  have hpairs := List.pairwise_iff_getElem.mp (List.pairwise_map.mp (honest.apart sound.history))
  obtain ⟨hi, rfl⟩ := List.getElem?_eq_some_iff.mp hb
  obtain ⟨hj, rfl⟩ := List.getElem?_eq_some_iff.mp hc
  rcases Nat.lt_or_gt_of_ne hij with h | h
  · exact hpairs i j hi hj h
  · exact (hpairs j i hj hi h).symm

/-! ## Existing blocks -/

omit honest in
/-- Sound books have a sound index. -/
theorem Sound.indexed : a.Indexed := ⟨sound.cursor_le, sound.mirrors⟩

/-- A range is claimed in the chosen block if there is one, and otherwise nothing changes. -/
theorem reuse_cases (size : Nat) (ha : Alignment.IsValid align) (hle : align ≤ Word.bound) :
    (a.reuse size align = .ok none ∧ ∀ b ∈ a.blocks, ∀ o, ¬ b.Fits size align o) ∨
      ∃ p b, a.Chosen size align p b ∧
        a.reuse size align = .ok (some (p, a.advance p b size)) := by
  have hpeek : ∀ b ∈ a.blocks, ∀ o,
      b.peek size align = some o ↔ IsLeast {o | b.Fits size align o} o := fun b hb o =>
    Block.peek_eq_some_iff ha hle (sound.base_add_capacity_lt honest hb)
  have hpeek' : ∀ b ∈ a.blocks, b.peek size align = none ↔ ∀ o, ¬ b.Fits size align o :=
    fun b hb => Block.peek_eq_none_iff ha hle (sound.base_add_capacity_lt honest hb)
  rcases sound.indexed.reuse_cases size align with ⟨hnone, hall⟩ | ⟨p, b, hb, ho, hbest, hsome⟩
  · exact Or.inl ⟨hnone, fun b hb => (hpeek' b hb).mp (hall b hb)⟩
  · refine Or.inr ⟨p, b, ⟨hb, (hpeek b (List.mem_of_getElem? hb) _).mp ho, ?_⟩, hsome⟩
    intro i c hc ⟨o, hfits⟩
    refine hbest i c hc ?_
    intro hno
    exact (hpeek' c (List.mem_of_getElem? hc)).mp hno o hfits

omit honest in
/-- Claiming a range in the chosen block keeps the books sound. -/
theorem Sound.advance (h : a.Chosen size align p b) : (a.advance p b size).Sound origin where
  history := by
    have hextents : (a.advance p b size).blocks.map Block.extent = a.blocks.map Block.extent :=
      map_set_of_eq h.block rfl
    rw [hextents]
    exact sound.history
  cursor_le := (sound.indexed.advance h.least.1.2.2).cursor_le
  mirrors := (sound.indexed.advance h.least.1.2.2).mirrors
  next_pos := sound.next_pos

/-! ## New blocks -/

/-- A block that an honest source grants for an order holds the request at its start. -/
theorem take_of_granted {layout : Layout} {base : Nat} {source : σ} (hsize : 0 < size)
    (ha : Alignment.IsValid align) (hmax : align ≤ maxAlign)
    (horder : a.order size align = .ok layout)
    (halloc : Source.allocate layout a.source = (some base, source)) :
    let capacity := max (Source.usableSize layout source) layout.size
    a.take layout size align = (.ok ⟨a.blocks.length, 0⟩,
      { a with source }.addBlock ⟨⟨base, layout⟩, capacity, size⟩ (decide (a.IsLarge size))) := by
  intro capacity
  obtain ⟨-, -, halign, hvalid⟩ := order_eq_ok_iff.mp horder
  have hfit := (isDue_of_order ha hmax horder).size_le
  have hheld := sound.history.grant hvalid (by omega) halloc
  have hnew : Source.extent source base layout ∈
      a.blocks.map Block.extent ++ [Source.extent source base layout] := by simp
  have hdvd : align ∣ layout.align := by
    rw [halign]
    exact ha.dvd_of_le (ha.max Alignment.isValid_standard) (le_max_left _ _)
  have hopen : openBlock ⟨base, layout⟩ capacity size align =
      .ok (0, ⟨⟨base, layout⟩, capacity, size⟩) :=
    openBlock_eq_ok ha hmax (Nat.dvd_trans hdvd (honest.aligned hheld _ hnew))
      (honest.bounded hheld _ hnew) (hfit.trans (le_max_right _ _))
  simp only [take, halloc, capacity, hopen]

/-- A request that needs a new block gets one, or it is refused and only the source has changed. -/
theorem grow_cases (hsize : 0 < size) (ha : Alignment.IsValid align) (hmax : align ≤ maxAlign) :
    (∃ e source, a.grow size align = (.error (.error e), { a with source }) ∧
      Source.History origin source (a.blocks.map Block.extent)) ∨
    ∃ b a', a.Grown size align b a' ∧ a.grow size align = (.ok ⟨a.blocks.length, 0⟩, a') := by
  rw [grow_eq]
  cases horder : a.order size align with
  | error e => exact Or.inl ⟨e, a.source, rfl, sound.history⟩
  | ok layout =>
      obtain ⟨hblock, hlimit, halign, hvalid⟩ := order_eq_ok_iff.mp horder
      have hfit := (isDue_of_order ha hmax horder).size_le
      dsimp only
      rcases halloc : Source.allocate layout a.source with ⟨_ | base, source⟩
      · simp only [take, halloc]
        exact Or.inl ⟨_, source, rfl, sound.history.refuse hvalid (by omega) halloc⟩
      · rw [take_of_granted honest sound hsize ha hmax horder halloc]
        exact Or.inr ⟨_, _, ⟨hblock, hlimit, halign, hvalid, halloc, rfl, rfl, rfl⟩, rfl⟩

omit honest in
/-- A new block keeps the books sound. -/
theorem Sound.grown {a' : Arena σ} (hsize : 0 < size) (ha : Alignment.IsValid align)
    (hmax : align ≤ maxAlign) (h : a.Grown size align b a') : a'.Sound origin := by
  have hfit := ((newBlockSize?_eq_some_iff ha hmax).mp h.blockSize).1.size_le
  have hheld := sound.history.grant h.valid (by omega) h.granted
  have hextent : Source.extent a'.source b.grant.base b.grant.layout = b.extent := by
    simp only [Source.extent, Block.extent, h.capacity]
  rw [hextent] at hheld
  have hcursor : b.cursor ≤ b.capacity := by
    rw [h.cursor, h.capacity]
    exact hfit.trans (le_max_right _ _)
  rw [h.books]
  refine ⟨by simpa [addBlock] using hheld, (sound.indexed.addBlock hcursor false).cursor_le,
    sound.mirrors.push b, ?_⟩
  exact next_pos_addBlock (a := { a with source := a'.source }) sound.next_pos b _

/-! ## All that placing can do -/

/-- How placing a range of at least one byte at a power of two can end. -/
inductive Placing (origin : σ) (a : Arena σ) (size align : Nat) :
    Except Failure Placement × Arena σ → Prop where
  | misaligned : maxAlign < align →
    Placing origin a size align (.error (.fault (.alignment align maxAlign)), a)
  | reused {p : Placement} {b : Block} : align ≤ maxAlign → a.Chosen size align p b →
    Placing origin a size align (.ok p, (a.advance p b size).charge size)
  | refused {e : Error} {source : σ} : align ≤ maxAlign →
    (∀ b ∈ a.blocks, ∀ o, ¬ b.Fits size align o) →
    Source.History origin source (a.blocks.map Block.extent) →
    Placing origin a size align (.error (.error e), { a with source })
  | grown {b : Block} {a' : Arena σ} : align ≤ maxAlign →
    (∀ b ∈ a.blocks, ∀ o, ¬ b.Fits size align o) → a.Grown size align b a' →
    Placing origin a size align (.ok ⟨a.blocks.length, 0⟩, a'.charge size)

theorem placing (hsize : 0 < size) (ha : Alignment.IsValid align) :
    Placing origin a size align (a.place size align) := by
  simp only [place]
  by_cases hmax : maxAlign < align
  · rw [if_pos hmax]
    exact .misaligned hmax
  · rw [if_neg hmax]
    have hle := Nat.le_of_not_lt hmax
    rcases reuse_cases honest sound size ha (hle.trans (by decide)) with
      ⟨hnone, hno⟩ | ⟨p, b, hb, hsome⟩
    · simp only [hnone]
      rcases grow_cases honest sound hsize ha hle with
        ⟨e, source, hgrow, hheld⟩ | ⟨b, a', hb, hgrow⟩
      · simp only [hgrow]
        exact .refused hle hno hheld
      · simp only [hgrow]
        exact .grown hle hno hb
    · simp only [hsome]
      exact .reused hle hb

omit honest in
/-- Placing a range keeps the books sound, also when it fails. -/
theorem Sound.of_placing {result : Except Failure Placement × Arena σ} (hsize : 0 < size)
    (ha : Alignment.IsValid align) (h : Placing origin a size align result) :
    result.2.Sound origin := by
  cases h with
  | misaligned => exact sound
  | reused _ hb =>
      have h := sound.advance hb
      exact ⟨h.history, h.cursor_le, h.mirrors, h.next_pos⟩
  | refused _ _ hheld => exact ⟨hheld, sound.cursor_le, sound.mirrors, sound.next_pos⟩
  | grown hmax _ hb =>
      have h := sound.grown hsize ha hmax hb
      exact ⟨h.history, h.cursor_le, h.mirrors, h.next_pos⟩

omit honest in
/-- Rewinding all blocks keeps the books sound. -/
theorem Sound.reset : a.reset.Sound origin where
  history := by
    have hextents : a.reset.blocks.map Block.extent = a.blocks.map Block.extent := by
      simp only [Arena.reset, List.map_map]
      rfl
    rw [hextents]
    exact sound.history
  cursor_le := a.indexed_reset.cursor_le
  mirrors := a.indexed_reset.mirrors
  next_pos := sound.next_pos

omit honest in
/-- The content of memory is not part of the books. -/
theorem Sound.withMemory (m : Memory) : Sound origin { a with memory := m } :=
  ⟨sound.history, sound.cursor_le, sound.mirrors, sound.next_pos⟩

end Sound

/-- An arena is made from a valid configuration, without a block. -/
theorem create?_eq_ok_iff {config : Config} {source : σ} : create? config source = .ok a ↔
    config.Valid ∧ a = { config, source, nextBlockSize := config.initialBlockSize } := by
  simp only [create?, Config.Valid]
  cases config.flaw? with
  | none => simp [eq_comm]
  | some flaw => simp

/-- The books of a new arena are sound. -/
theorem sound_of_create? [Source σ] {config : Config} {source : σ}
    (h : create? config source = .ok a) : a.Sound source := by
  obtain ⟨hvalid, rfl⟩ := create?_eq_ok_iff.mp h
  refine ⟨.start, by simp, Index.mirrors_ofBlocks [], ?_⟩
  -- A configuration without a flaw has a first block that is not empty.
  by_contra hpos
  have hzero : config.initialBlockSize = 0 := Nat.eq_zero_of_not_pos hpos
  rw [Config.Valid, Config.flaw?, if_pos hzero] at hvalid
  contradiction

end Arena

end Lifespan
