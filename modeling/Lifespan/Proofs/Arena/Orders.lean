import Lifespan.Arena.Placing
import Lifespan.Proofs.Memory.Alignment

/-!
# Orders for blocks

A request that no block at hand can hold needs a new block. Which block that is to be is decided
before the source is asked for it, from the running size and from the memory limit alone: the
decision is an order for a layout, or an error. Then the order is taken to the source, and the
request is placed in what it grants.
-/

namespace Lifespan

/-- A range that is claimed lies between the cursor and the end of its block. -/
theorem Block.claim_of_ok {b c : Block} {offset size : Nat} (h : b.claim offset size = .ok c) :
    b.cursor ≤ offset ∧ offset + size ≤ b.capacity ∧ c = { b with cursor := offset + size } := by
  simp only [claim] at h
  split at h
  · cases h
  · next hcursor =>
    split at h
    · cases h
    · next stop hstop =>
      obtain ⟨rfl, -⟩ := Word.add?_eq_some_iff.mp hstop
      split at h
      · next hend =>
        cases h
        exact ⟨Nat.le_of_not_lt hcursor, hend, rfl⟩
      · cases h

namespace Arena

variable {σ : Type} {a : Arena σ} {size align blockSize limit : Nat} {layout : Layout}

/-! ## Sizes -/

/-- The size that is due to the block for a request. -/
structure IsDue (a : Arena σ) (size align blockSize : Nat) : Prop where
  ordinary : size ≤ a.nextBlockSize → blockSize = a.nextBlockSize
  dedicated : a.nextBlockSize < size → IsLeast {n | size ≤ n ∧ blockAlign align ∣ n} blockSize

/-- There is a due size. -/
theorem exists_isDue (a : Arena σ) (size : Nat) (ha : Alignment.IsValid align) :
    ∃ blockSize, a.IsDue size align blockSize := by
  rcases Nat.lt_or_ge a.nextBlockSize size with hlarge | hle
  · have hleast := Alignment.isLeast_clearBelow (ha.max Alignment.isValid_standard) size
    exact ⟨_, fun hle => absurd hlarge (Nat.not_lt.mpr hle), fun _ => hleast⟩
  · exact ⟨_, fun _ => rfl, fun hlarge => absurd hle (Nat.not_le.mpr hlarge)⟩

namespace IsDue

theorem unique {other : Nat} (h : a.IsDue size align blockSize) (h' : a.IsDue size align other) :
    blockSize = other := by
  rcases Nat.lt_or_ge a.nextBlockSize size with hlarge | hle
  · exact (h.dedicated hlarge).unique (h'.dedicated hlarge)
  · exact (h.ordinary hle).trans (h'.ordinary hle).symm

/-- A large request is due the one multiple that is less than one alignment away. -/
theorem of_dvd (hlarge : a.IsLarge size) (hle : size ≤ blockSize)
    (hdvd : blockAlign align ∣ blockSize) (hlt : blockSize < size + blockAlign align) :
    a.IsDue size align blockSize := by
  refine ⟨fun hno => absurd hlarge (Nat.not_lt.mpr hno), fun _ => ⟨⟨hle, hdvd⟩, ?_⟩⟩
  rintro n ⟨hn, hndvd⟩
  exact Nat.le_of_lt_add_of_dvd (by omega) hdvd hndvd

/-- The request is not larger than the block that is due. -/
theorem size_le (h : a.IsDue size align blockSize) : size ≤ blockSize := by
  rcases Nat.lt_or_ge a.nextBlockSize size with hlarge | hle
  · exact (h.dedicated hlarge).1.1
  · exact (h.ordinary hle).symm ▸ hle

/-- Nor is the next block of the policy. -/
theorem nextBlockSize_le (h : a.IsDue size align blockSize) : a.nextBlockSize ≤ blockSize := by
  rcases Nat.lt_or_ge a.nextBlockSize size with hlarge | hle
  · exact (Nat.le_of_lt hlarge).trans h.size_le
  · exact (h.ordinary hle).ge

end IsDue

/-- The size of a new block is the due one, if that is a word. -/
theorem newBlockSize?_eq_some_iff (ha : Alignment.IsValid align) (hmax : align ≤ maxAlign) :
    a.newBlockSize? size align = some blockSize ↔
      a.IsDue size align blockSize ∧ (a.nextBlockSize < size → blockSize < Word.bound) := by
  by_cases hlarge : a.IsLarge size
  · have hvalid : Alignment.IsValid (blockAlign align) := ha.max Alignment.isValid_standard
    have hle : blockAlign align ≤ Word.bound := max_le (hmax.trans (by decide)) (by decide)
    rw [newBlockSize?, if_pos hlarge, Alignment.roundUp?_eq_some_iff hvalid hle]
    constructor
    · rintro ⟨hleast, hlt⟩
      exact ⟨⟨fun hno => absurd hlarge (Nat.not_lt.mpr hno), fun _ => hleast⟩, fun _ => hlt⟩
    · rintro ⟨hdue, hlt⟩
      exact ⟨hdue.dedicated hlarge, hlt hlarge⟩
  · rw [newBlockSize?, if_neg hlarge, Option.some.injEq]
    constructor
    · rintro rfl
      exact ⟨⟨fun _ => rfl, fun h => absurd h hlarge⟩, fun h => absurd h hlarge⟩
    · rintro ⟨hdue, -⟩
      exact (hdue.ordinary (Nat.le_of_not_lt hlarge)).symm

/-! ## The limit -/

/-- The limit that does not admit a block is the one of the configuration. -/
theorem violatedLimit?_eq_some_iff : a.violatedLimit? blockSize = some limit ↔
    a.config.memoryLimit = some limit ∧
      (Word.bound ≤ a.memoryBytes + blockSize ∨ limit < a.memoryBytes + blockSize) := by
  unfold violatedLimit?
  cases a.config.memoryLimit with
  | none => simp
  | some most =>
      cases hadd : Word.add? a.memoryBytes blockSize with
      | none => grind [Word.add?_eq_none_iff]
      | some total => grind [Word.add?_eq_some_iff]

/-- The limit admits a block if the bytes of all blocks are a word and within it. -/
theorem violatedLimit?_eq_none_iff : a.violatedLimit? blockSize = none ↔
    ∀ limit ∈ a.config.memoryLimit,
      a.memoryBytes + blockSize < Word.bound ∧ a.memoryBytes + blockSize ≤ limit := by
  simp only [Option.eq_none_iff_forall_ne_some, ne_eq, violatedLimit?_eq_some_iff, not_and, not_or,
    Nat.not_le, Nat.not_lt, Option.mem_def]

/-! ## Orders -/

/-- The layout of the block that a request needs, if the arena may ask for one. -/
def order (a : Arena σ) (size align : Nat) : Except Error Layout :=
  match a.newBlockSize? size align with
  | none => .error (.outOfMemory size size)
  | some blockSize =>
    match a.violatedLimit? blockSize with
    | some limit => .error (.capacityExceeded size limit)
    | none =>
      match Layout.of? blockSize (blockAlign align) with
      | none => .error (.outOfMemory size blockSize)
      | some layout => .ok layout

/-- Asks for a block and claims a range in it. -/
def take [Source σ] (a : Arena σ) (layout : Layout) (size align : Nat) :
    Except Failure Placement × Arena σ :=
  match Source.allocate layout a.source with
  | (none, source) => (.error (.error (.outOfMemory size layout.size)), { a with source })
  | (some base, source) =>
    match openBlock ⟨base, layout⟩ (max (Source.usableSize layout source) layout.size) size
      align with
    | .error f => (.error (.fault f), { a with source })
    | .ok (offset, b) =>
      (.ok ⟨a.blocks.length, offset⟩, { a with source }.addBlock b (decide (a.IsLarge size)))

/-- A new block is ordered before the source is asked. -/
theorem grow_eq [Source σ] (a : Arena σ) (size align : Nat) :
    a.grow size align =
      match a.order size align with
      | .error e => (.error (.error e), a)
      | .ok layout => a.take layout size align := by
  simp only [grow, order]
  cases a.newBlockSize? size align with
  | none => rfl
  | some blockSize =>
      dsimp only
      cases a.violatedLimit? blockSize with
      | some limit => rfl
      | none =>
          simp only [Layout.of?]
          by_cases hvalid : Layout.Valid ⟨blockSize, blockAlign align⟩
          · simp only [if_pos hvalid]
            rfl
          · simp only [if_neg hvalid]

/-- The first range of a new block lies within the block. -/
theorem openBlock_of_ok {grant : Source.Grant} {capacity offset : Nat} {b : Block}
    (h : openBlock grant capacity size align = .ok (offset, b)) :
    offset + size ≤ capacity ∧ b = { grant, capacity, cursor := offset + size } := by
  simp only [openBlock] at h
  split at h
  · cases h
  · split at h
    · cases h
    · next hclaim =>
      obtain ⟨-, hend, rfl⟩ := Block.claim_of_ok hclaim
      cases h
      exact ⟨hend, rfl⟩

/-- How an order can end. -/
inductive Taking [Source σ] (a : Arena σ) (layout : Layout) (size align : Nat) :
    Except Failure Placement × Arena σ → Prop where
  | refused {source : σ} : Source.allocate layout a.source = (none, source) →
    Taking a layout size align (.error (.error (.outOfMemory size layout.size)), { a with source })
  | faulted {base : Nat} {source : σ} {f : Fault} :
    Source.allocate layout a.source = (some base, source) →
    openBlock ⟨base, layout⟩ (max (Source.usableSize layout source) layout.size) size align =
      .error f →
    Taking a layout size align (.error (.fault f), { a with source })
  | opened {base : Nat} {source : σ} {offset : Nat} :
    Source.allocate layout a.source = (some base, source) →
    offset + size ≤ max (Source.usableSize layout source) layout.size →
    Taking a layout size align (.ok ⟨a.blocks.length, offset⟩, { a with source }.addBlock
      ⟨⟨base, layout⟩, max (Source.usableSize layout source) layout.size, offset + size⟩
      (decide (a.IsLarge size)))

theorem taking [Source σ] (a : Arena σ) (layout : Layout) (size align : Nat) :
    a.Taking layout size align (a.take layout size align) := by
  simp only [take]
  rcases halloc : Source.allocate layout a.source with ⟨_ | base, source⟩
  · exact .refused halloc
  · dsimp only
    split
    · next hopen => exact .faulted halloc hopen
    · next offset b hopen =>
      obtain ⟨hend, rfl⟩ := openBlock_of_ok hopen
      exact .opened halloc hend

/-- The source has been asked for the block, whatever came of it. -/
theorem source_take [Source σ] (a : Arena σ) (layout : Layout) (size align : Nat) :
    (a.take layout size align).2.source = (Source.allocate layout a.source).2 := by
  have h := a.taking layout size align
  generalize a.take layout size align = result at h ⊢
  cases h with
  | refused halloc | faulted halloc _ => rw [halloc]
  | opened halloc _ => rw [halloc]; rfl

/-- What is ordered is the due block, admitted by the limit, in a layout for the request. -/
theorem order_eq_ok_iff : a.order size align = .ok layout ↔
    a.newBlockSize? size align = some layout.size ∧ a.violatedLimit? layout.size = none ∧
      layout.align = blockAlign align ∧ layout.Valid := by
  obtain ⟨layoutSize, layoutAlign⟩ := layout
  simp only [order]
  cases a.newBlockSize? size align with
  | none => simp
  | some blockSize =>
      cases hlimit : a.violatedLimit? blockSize with
      | some limit => grind
      | none => grind [Layout.of?]

/-- An order is refused for the sake of the limit when the due block is not admitted. -/
theorem order_eq_capacityExceeded_iff {requested : Nat} :
    a.order size align = .error (.capacityExceeded requested limit) ↔
      requested = size ∧ ∃ blockSize, a.newBlockSize? size align = some blockSize ∧
        a.violatedLimit? blockSize = some limit := by
  simp only [order]
  cases a.newBlockSize? size align with
  | none => simp
  | some blockSize =>
      cases hlimit : a.violatedLimit? blockSize with
      | some most => grind
      | none => grind

section Ok

variable (ha : Alignment.IsValid align) (hmax : align ≤ maxAlign)
  (h : a.order size align = .ok layout)
include ha hmax h

/-- An order is for a block of the due size. -/
theorem isDue_of_order : a.IsDue size align layout.size :=
  ((newBlockSize?_eq_some_iff ha hmax).mp (order_eq_ok_iff.mp h).1).1

/-- An order is for a valid layout that is not empty and at least of the standard alignment. -/
theorem order_of_ok (hsize : 0 < size) :
    layout.Valid ∧ 0 < layout.size ∧ Alignment.standard ≤ layout.align := by
  obtain ⟨-, -, halign, hvalid⟩ := order_eq_ok_iff.mp h
  have hfit := (isDue_of_order ha hmax h).size_le
  exact ⟨hvalid, by omega, halign ▸ le_max_right _ _⟩

end Ok

end Arena

end Lifespan
