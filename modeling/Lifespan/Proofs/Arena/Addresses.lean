import Lifespan.Proofs.Arena.Lifecycle
import Lifespan.Proofs.Arena.Orders
import Lifespan.Proofs.Arena.Plans
import Lifespan.Proofs.Arena.Settling
import Lifespan.Proofs.Source.Answers
import Mathlib.Data.List.Forall2

/-!
# Results without addresses

Padding is computed from addresses, so where blocks lie might show in what an arena hands out. For
ranges of the standard alignment or less it does not. Every block lies at a multiple of the standard
alignment, whatever request it was made for, so that an address is aligned if and only if its offset
is; and the overflow checks on addresses refuse nothing that would fit, since no block reaches past
the last word. Two arenas whose sources give the same answers, addresses aside, therefore go through
the same states, addresses aside.
-/

namespace Lifespan

open Source

/-- Members of lists that are related member by member are related. -/
theorem forall₂_getElem? {α β : Type} {R : α → β → Prop} {l : List α} {k : List β}
    (h : List.Forall₂ R l k) (i : Nat) :
    l[i]? = none ∧ k[i]? = none ∨ ∃ x y, l[i]? = some x ∧ k[i]? = some y ∧ R x y := by
  induction h generalizing i with
  | nil => exact Or.inl ⟨rfl, rfl⟩
  | cons hxy _ ih =>
      cases i with
      | zero => exact Or.inr ⟨_, _, rfl, rfl, hxy⟩
      | succ i => exact ih i

theorem forall₂_set {α β : Type} {R : α → β → Prop} {l : List α} {k : List β} {x : α} {y : β}
    (h : List.Forall₂ R l k) (hxy : R x y) (i : Nat) : List.Forall₂ R (l.set i x) (k.set i y) := by
  induction h generalizing i with
  | nil => exact .nil
  | cons hhead htail ih =>
      cases i with
      | zero => exact .cons hxy htail
      | succ i => exact .cons hhead (ih i)

/-- Measures that related members have in common are those of the lists. -/
theorem map_eq_of_forall₂ {α β γ : Type} {R : α → β → Prop} {f : α → γ} {g : β → γ}
    (hfg : ∀ x y, R x y → f x = g y) {l : List α} {k : List β} (h : List.Forall₂ R l k) :
    l.map f = k.map g := by
  induction h with
  | nil => rfl
  | cons hxy _ ih => rw [List.map_cons, List.map_cons, hfg _ _ hxy, ih]

/-! ## Blocks -/

namespace Block

variable {b c : Block} {size align : Nat}

/-- A block that lies at a multiple of the standard alignment and does not wrap. -/
structure Seated (b : Block) : Prop where
  dvd : Alignment.standard ∣ b.base
  bounded : b.base + b.capacity < Word.bound

/-- Two seated blocks that differ in nothing but their extents. -/
structure Alike (b c : Block) : Prop where
  capacity : b.capacity = c.capacity
  cursor : b.cursor = c.cursor
  left : b.Seated
  right : c.Seated

/-- In a seated block a range is aligned if its offset is. -/
theorem Seated.fits_iff (h : b.Seated) (ha : Alignment.IsValid align)
    (hle : align ≤ Alignment.standard) (offset : Nat) :
    b.Fits size align offset ↔
      b.cursor ≤ offset ∧ align ∣ offset ∧ offset + size ≤ b.capacity := by
  have hdvd : align ∣ b.base := (ha.dvd_of_le Alignment.isValid_standard hle).trans h.dvd
  rw [Fits, Nat.dvd_add_right hdvd]

/-- The offset of a range does not depend on the address of the block. -/
theorem Alike.peek_eq (h : b.Alike c) (ha : Alignment.IsValid align)
    (hle : align ≤ Alignment.standard) : b.peek size align = c.peek size align := by
  have hword : align ≤ Word.bound := hle.trans (by decide)
  have hfits : {o | b.Fits size align o} = {o | c.Fits size align o} := by
    refine Set.ext fun o => (h.left.fits_iff ha hle o).trans ?_
    rw [h.cursor, h.capacity]
    exact (h.right.fits_iff ha hle o).symm
  refine Option.ext fun o => ?_
  rw [peek_eq_some_iff ha hword h.left.bounded, peek_eq_some_iff ha hword h.right.bounded, hfits]

/-- The same ranges can be claimed in blocks that are alike. -/
theorem Alike.claim (h : b.Alike c) (offset size : Nat) :
    (∃ f, b.claim offset size = .error f ∧ c.claim offset size = .error f) ∨
      ∃ b' c', b.claim offset size = .ok b' ∧ c.claim offset size = .ok c' ∧ b'.Alike c' := by
  have hbounded := h.left.bounded
  rw [h.capacity] at hbounded
  simp only [Block.claim, h.cursor, h.capacity]
  split
  · exact Or.inl ⟨_, rfl, rfl⟩
  · split
    · exact Or.inl ⟨_, rfl, rfl⟩
    · split
      · exact Or.inr ⟨_, _, rfl, rfl, rfl, rfl, ⟨h.left.dvd, hbounded⟩, h.right.dvd,
          h.right.bounded⟩
      · exact Or.inl ⟨_, rfl, rfl⟩

theorem Alike.rewind (h : b.Alike c) : b.rewind.Alike c.rewind :=
  ⟨h.capacity, rfl, ⟨h.left.dvd, h.left.bounded⟩, h.right.dvd, h.right.bounded⟩

theorem Alike.available_eq (h : b.Alike c) : b.available = c.available := by
  rw [available, available, h.capacity, h.cursor]

end Block

/-! ## Arenas -/

namespace Arena

variable {σ τ : Type} {a a' : Arena σ} {b b' : Arena τ} {size align : Nat}

/-- Two arenas that differ in nothing but their sources, their memory and where their blocks lie. -/
structure Twins (a : Arena σ) (b : Arena τ) : Prop where
  config : a.config = b.config
  blocks : List.Forall₂ Block.Alike a.blocks b.blocks
  index : a.index = b.index
  nextBlockSize : a.nextBlockSize = b.nextBlockSize
  allocatedBytes : a.allocatedBytes = b.allocatedBytes
  memoryBytes : a.memoryBytes = b.memoryBytes

/-- The same blocks are found for a range. -/
theorem search_eq {bs cs : List Block} (h : List.Forall₂ Block.Alike bs cs)
    (ha : Alignment.IsValid align) (hle : align ≤ Alignment.standard) (index : Index) :
    index.search bs size align = index.search cs size align := by
  induction index with
  | nil => rfl
  | cons r rest ih =>
      simp only [Index.search]
      by_cases hsmall : r.available < size
      · rw [if_pos hsmall, if_pos hsmall]
      · rw [if_neg hsmall, if_neg hsmall]
        rcases forall₂_getElem? h r.block with ⟨hb, hc⟩ | ⟨b, c, hb, hc, halike⟩
        · simp only [hb, hc, h.length_eq]
        · simp only [hb, hc, halike.peek_eq ha hle, ih]

namespace Twins

/-- The index of alike blocks is the same. -/
theorem ofBlocks_eq {bs cs : List Block} (h : List.Forall₂ Block.Alike bs cs) (first : Nat) :
    Index.ofBlocks first bs = Index.ofBlocks first cs := by
  induction h generalizing first with
  | nil => rfl
  | cons hbc _ ih => rw [Index.ofBlocks, Index.ofBlocks, hbc.available_eq, ih]

theorem withMemory (h : a.Twins b) (m n : Memory) :
    Twins { a with memory := m } { b with memory := n } :=
  ⟨h.config, h.blocks, h.index, h.nextBlockSize, h.allocatedBytes, h.memoryBytes⟩

theorem withSource (h : a.Twins b) (source : σ) (source' : τ) :
    Twins { a with source } { b with source := source' } :=
  ⟨h.config, h.blocks, h.index, h.nextBlockSize, h.allocatedBytes, h.memoryBytes⟩

theorem reset (h : a.Twins b) : a.reset.Twins b.reset := by
  have hblocks : List.Forall₂ Block.Alike (a.blocks.map Block.rewind)
      (b.blocks.map Block.rewind) :=
    List.forall₂_map_left_iff.mpr (List.forall₂_map_right_iff.mpr
      (h.blocks.imp fun _ _ halike => halike.rewind))
  exact ⟨h.config, hblocks, ofBlocks_eq hblocks 0, h.nextBlockSize, rfl, h.memoryBytes⟩

theorem charge (h : a.Twins b) (size : Nat) : (a.charge size).Twins (b.charge size) :=
  ⟨h.config, h.blocks, h.index, h.nextBlockSize, congrArg (· + size) h.allocatedBytes,
    h.memoryBytes⟩

/-- The same ranges are claimed in existing blocks. -/
theorem reuse (h : a.Twins b) (ha : Alignment.IsValid align) (hle : align ≤ Alignment.standard)
    (size : Nat) :
    (∃ f, a.reuse size align = .error f ∧ b.reuse size align = .error f) ∨
      a.reuse size align = .ok none ∧ b.reuse size align = .ok none ∨
      ∃ p a' b', a.reuse size align = .ok (some (p, a')) ∧ b.reuse size align = .ok (some (p, b')) ∧
        a'.source = a.source ∧ b'.source = b.source ∧ a'.Twins b' := by
  simp only [Arena.reuse, h.index, search_eq h.blocks ha hle]
  cases b.index.search b.blocks size align with
  | error f => exact Or.inl ⟨f, rfl, rfl⟩
  | ok found =>
      cases found with
      | none => exact Or.inr (Or.inl ⟨rfl, rfl⟩)
      | some found =>
          obtain ⟨room, offset⟩ := found
          rcases forall₂_getElem? h.blocks room.block with ⟨hb, hc⟩ | ⟨x, y, hx, hy, halike⟩
          · simp only [hb, hc, h.blocks.length_eq]
            exact Or.inl ⟨_, rfl, rfl⟩
          · simp only [hx, hy]
            rcases halike.claim offset size with ⟨f, hf, hf'⟩ | ⟨x', y', hx', hy', halike'⟩
            · simp only [hf, hf']
              exact Or.inl ⟨_, rfl, rfl⟩
            · simp only [hx', hy', halike'.available_eq]
              exact Or.inr (Or.inr ⟨_, _, _, rfl, rfl, rfl, rfl, h.config,
                forall₂_set h.blocks halike' room.block, rfl, h.nextBlockSize, h.allocatedBytes,
                h.memoryBytes⟩)

end Twins

/-! ## New blocks -/

/-- A block that an honest source grants is seated. -/
theorem seated_of_grant [Source σ] {origin s t : σ} {held : List Extent} {l : Layout} {base : Nat}
    (honest : Honest origin) (h : History origin s held) (hvalid : l.Valid) (hpos : 0 < l.size)
    (hle : Alignment.standard ≤ l.align) (halloc : Source.allocate l s = (some base, t)) :
    (Block.mk ⟨base, l⟩ (max (usableSize l t) l.size) 0).Seated := by
  have hheld := h.grant hvalid hpos halloc
  have hnew : Source.extent t base l ∈ held ++ [Source.extent t base l] := by simp
  have hdvd : Alignment.standard ∣ l.align := Alignment.isValid_standard.dvd_of_le hvalid.1 hle
  exact ⟨hdvd.trans (honest.aligned hheld _ hnew), honest.bounded hheld _ hnew⟩

/-- The same range is claimed at the start of new blocks that are alike. -/
theorem openBlock_alike {grant grant' : Source.Grant} {capacity : Nat}
    (h : (Block.mk grant capacity 0).Alike (Block.mk grant' capacity 0))
    (ha : Alignment.IsValid align) (hle : align ≤ Alignment.standard) (size : Nat) :
    (∃ f, openBlock grant capacity size align = .error f ∧
      openBlock grant' capacity size align = .error f) ∨
    ∃ offset x y, openBlock grant capacity size align = .ok (offset, x) ∧
      openBlock grant' capacity size align = .ok (offset, y) ∧ x.Alike y := by
  simp only [openBlock, h.peek_eq ha hle]
  split
  · exact Or.inl ⟨_, rfl, rfl⟩
  · next offset _ =>
    rcases h.claim offset size with ⟨f, hf, hf'⟩ | ⟨x, y, hx, hy, halike⟩
    · simp only [hf, hf']
      exact Or.inl ⟨f, rfl, rfl⟩
    · simp only [hx, hy]
      exact Or.inr ⟨offset, x, y, rfl, rfl, halike⟩

namespace Twins

theorem isLarge_iff (h : a.Twins b) (size : Nat) : a.IsLarge size ↔ b.IsLarge size := by
  rw [IsLarge, IsLarge, h.nextBlockSize]

/-- The same block is ordered. -/
theorem order_eq (h : a.Twins b) (size align : Nat) : a.order size align = b.order size align := by
  have hsize : a.newBlockSize? size align = b.newBlockSize? size align := by
    simp only [newBlockSize?, h.isLarge_iff, h.nextBlockSize]
  have hlimit (blockSize : Nat) : a.violatedLimit? blockSize = b.violatedLimit? blockSize := by
    simp only [violatedLimit?, h.config, h.memoryBytes]
  simp only [order, hsize, hlimit]

theorem addBlock (h : a.Twins b) {x y : Block} (hxy : x.Alike y)
    (hlayout : x.grant.layout = y.grant.layout) (isLarge : Bool) :
    (a.addBlock x isLarge).Twins (b.addBlock y isLarge) := by
  refine ⟨h.config, List.rel_append h.blocks (.cons hxy .nil), ?_, ?_, h.allocatedBytes, ?_⟩
  · simp only [Arena.addBlock, h.index, hxy.available_eq, h.blocks.length_eq]
  · simp only [Arena.addBlock, h.config, h.nextBlockSize]
  · simp only [Arena.addBlock, h.memoryBytes, hlayout]

end Twins

section Place

variable [Source σ] [Source τ] {origin : σ} {origin' : τ}

/-- Two results of placing a range. The same requests were made of both sources, and if they were
answered alike, then the results are the same and the arenas are twins. -/
def InStep (a : Arena σ) (b : Arena τ) (x : Except Failure Placement × Arena σ)
    (y : Except Failure Placement × Arena τ) : Prop :=
  ∃ asked, x.2.source = after a.source asked ∧ y.2.source = after b.source asked ∧
    (answers a.source asked = answers b.source asked → x.1 = y.1 ∧ x.2.Twins y.2)

/-- Results for which no source was asked. -/
theorem InStep.silent {r : Except Failure Placement} (ha : a'.source = a.source)
    (hb : b'.source = b.source) (h : a'.Twins b') : InStep a b (r, a') (r, b') :=
  ⟨[], ha, hb, fun _ => ⟨rfl, h⟩⟩

variable (honest : Honest origin) (honest' : Honest origin') (sound : a.Sound origin)
  (sound' : b.Sound origin') (hsize : 0 < size) (ha : Alignment.IsValid align)
  (hle : align ≤ Alignment.standard)
include honest honest' sound sound' hsize ha hle

/-- A block is taken in step, if it is granted alike. -/
theorem Twins.take (h : a.Twins b) {layout : Layout} (horder : a.order size align = .ok layout) :
    InStep a b (a.take layout size align) (b.take layout size align) := by
  obtain ⟨hvalid, hpos, hstandard⟩ :=
    order_of_ok ha (hle.trans (by decide)) horder hsize
  refine ⟨[layout], a.source_take layout size align, b.source_take layout size align, ?_⟩
  intro hanswers
  simp only [Arena.take]
  rcases halloc : Source.allocate layout a.source with ⟨_ | base, s⟩ <;>
    rcases halloc' : Source.allocate layout b.source with ⟨_ | base', t⟩ <;>
    simp only [answers, halloc, halloc', Option.map_none, Option.map_some, List.cons.injEq,
      Option.some.injEq, reduceCtorEq, and_true] at hanswers
  · exact ⟨rfl, h.withSource s t⟩
  · have hseated := seated_of_grant honest sound.history hvalid hpos hstandard halloc
    have hseated' := seated_of_grant honest' sound'.history hvalid hpos hstandard halloc'
    have hfresh : (Block.mk ⟨base, layout⟩ (max (usableSize layout s) layout.size) 0).Alike
        (Block.mk ⟨base', layout⟩ (max (usableSize layout t) layout.size) 0) :=
      ⟨by rw [hanswers], rfl, hseated, hseated'⟩
    simp only [hanswers] at hfresh ⊢
    rcases openBlock_alike hfresh ha hle size with
      ⟨f, hf, hf'⟩ | ⟨offset, x, y, hx, hy, halike⟩
    · rw [hf, hf']
      exact ⟨rfl, h.withSource s t⟩
    · rw [hx, hy, h.blocks.length_eq, decide_eq_decide.mpr (h.isLarge_iff size)]
      refine ⟨rfl, (h.withSource s t).addBlock halike ?_ _⟩
      rw [(openBlock_of_ok hx).2, (openBlock_of_ok hy).2]

/-- A range is placed in step. -/
theorem Twins.place (h : a.Twins b) :
    InStep a b (a.place size align) (b.place size align) := by
  have hmax : ¬ maxAlign < align := Nat.not_lt.mpr (hle.trans (by decide))
  simp only [Arena.place, if_neg hmax]
  rcases h.reuse ha hle size with
    ⟨f, hf, hf'⟩ | ⟨hnone, hnone'⟩ | ⟨p, a', b', hsome, hsome', hs, ht, htwins⟩
  · simp only [hf, hf']
    exact .silent rfl rfl h
  · simp only [hnone, hnone', grow_eq, h.order_eq]
    cases horder : b.order size align with
    | error e => exact .silent rfl rfl h
    | ok layout =>
        obtain ⟨asked, hs, ht, hsame⟩ := h.take honest honest' sound sound' hsize ha hle
          ((h.order_eq size align).trans horder)
        dsimp only
        generalize a.take layout size align = x at hs hsame ⊢
        generalize b.take layout size align = y at ht hsame ⊢
        obtain ⟨result, a'⟩ := x
        obtain ⟨result', b'⟩ := y
        refine ⟨asked, ?_, ?_, fun hanswers => ?_⟩
        · rcases result <;> exact hs
        · rcases result' <;> exact ht
        · obtain ⟨rfl, htwins⟩ := hsame hanswers
          rcases result with f | p
          · exact ⟨rfl, htwins⟩
          · exact ⟨rfl, htwins.charge size⟩
  · simp only [hsome, hsome']
    exact .silent hs ht (htwins.charge size)

end Place

/-! ## Observations -/

/-- What an arena shows of itself, addresses aside. -/
structure View where
  capacities : List Nat
  available : List Nat
  memoryBytes : Nat
  allocatedBytes : Nat
  usedBytes : Nat
  nextBlockSize : Nat
deriving DecidableEq, Repr

/-- What an arena shows of itself. -/
def view (a : Arena σ) : View where
  capacities := a.blocks.map Block.capacity
  available := a.available
  memoryBytes := a.memoryBytes
  allocatedBytes := a.allocatedBytes
  usedBytes := a.usedBytes
  nextBlockSize := a.nextBlockSize

theorem Twins.view_eq (h : a.Twins b) : a.view = b.view := by
  have hcapacities : a.blocks.map Block.capacity = b.blocks.map Block.capacity :=
    map_eq_of_forall₂ (fun _ _ halike => halike.capacity) h.blocks
  have havailable : a.available = b.available :=
    map_eq_of_forall₂ (fun _ _ halike => halike.available_eq) h.blocks
  have hused : a.blocks.map Block.cursor = b.blocks.map Block.cursor :=
    map_eq_of_forall₂ (fun _ _ halike => halike.cursor) h.blocks
  simp only [view, usedBytes, hcapacities, havailable, hused, h.memoryBytes, h.allocatedBytes,
    h.nextBlockSize]

theorem source_of_create? {config : Config} {source : σ} (h : create? config source = .ok a) :
    a.source = source := by
  obtain ⟨-, rfl⟩ := create?_eq_ok_iff.mp h
  rfl

/-- Arenas that are made alike are twins. -/
theorem twins_of_create? {config : Config} {source : σ} {source' : τ}
    (h : create? config source = .ok a) (h' : create? config source' = .ok b) : a.Twins b := by
  obtain ⟨-, rfl⟩ := create?_eq_ok_iff.mp h
  obtain ⟨-, rfl⟩ := create?_eq_ok_iff.mp h'
  exact ⟨rfl, .nil, rfl, rfl, rfl, rfl⟩

end Arena

/-! ## Sessions -/

/-- A request is modest if it asks for the standard alignment at most. -/
def Request.IsModest (r : Request) : Prop := ∀ demand ∈ r.demand?, demand.2 ≤ Alignment.standard

instance (r : Request) : Decidable r.IsModest :=
  inferInstanceAs (Decidable (∀ demand ∈ r.demand?, _))

namespace Session

variable {σ τ : Type} {s : Session σ} {t : Session τ} {r : Request}

/-- Two sessions that differ in nothing but sources, memory and addresses. -/
structure Twins (s : Session σ) (t : Session τ) : Prop where
  arena : s.arena.Twins t.arena
  slots : s.slots = t.slots

/-- Storing bytes leaves twins. -/
theorem Twins.write (h : s.Twins t) (slot : Nat) (bytes : Bytes) :
    (s.write slot bytes).Twins (t.write slot bytes) := by
  simp only [Session.write, h.slots]
  split
  · exact h
  · split
    · next range _ _ =>
      obtain ⟨m, hm⟩ := s.arena.writeAt_eq range.placement 0 (bytes.map .byte)
      obtain ⟨n, hn⟩ := t.arena.writeAt_eq range.placement 0 (bytes.map .byte)
      simp only [hm, hn]
      exact ⟨h.arena.withMemory m n, rfl⟩
    · exact h

variable [Source σ] [Source τ] {origin : σ} {origin' : τ}

/-- The results of a history, each with what the arena shows afterwards. -/
def trace (s : Session σ) : List Request → List (Except Arena.Failure Grant × Arena.View)
  | [] => []
  | r :: rest => ((s.step r).1, (s.step r).2.arena.view) :: (s.step r).2.trace rest

omit [Source σ] [Source τ] in
/-- The same result is recorded alike. -/
theorem Twins.record (h : s.Twins t) {a : Arena σ} {b : Arena τ} (hab : a.Twins b)
    (size align written : Nat) (result : Except Arena.Failure (Option Placement)) :
    (s.record a size align written result).1 = (t.record b size align written result).1 ∧
      (s.record a size align written result).2.Twins (t.record b size align written result).2 := by
  rcases result with f | _ | p
  · exact ⟨rfl, hab, h.slots⟩
  · exact ⟨rfl, hab, h.slots⟩
  · rw [Session.record, Session.record, h.slots]
    exact ⟨rfl, hab, rfl⟩

omit [Source σ] in
theorem source_record (s : Session σ) (a : Arena σ) (size align written : Nat)
    (result : Except Arena.Failure (Option Placement)) :
    (s.record a size align written result).2.arena.source = a.source := by
  rcases result with f | _ | p <;> rfl

section Step

variable (honest : Honest origin) (honest' : Honest origin') (sound : s.arena.Sound origin)
  (sound' : t.arena.Sound origin')
include honest honest' sound sound'

/-- Plans are followed in step. -/
theorem Twins.follow (h : s.Twins t) {plan : Plan}
    (hplan : ∀ size align written, plan = .place size align written →
      0 < size ∧ Alignment.IsValid align ∧ align ≤ Alignment.standard)
    {x : Except Arena.Failure Grant × Session σ} {y : Except Arena.Failure Grant × Session τ}
    (hx : s.Following plan x) (hy : t.Following plan y) :
    ∃ asked, x.2.arena.source = after s.arena.source asked ∧
      y.2.arena.source = after t.arena.source asked ∧
      (answers s.arena.source asked = answers t.arena.source asked →
        x.1 = y.1 ∧ x.2.Twins y.2) := by
  cases plan with
  | answer reply =>
      cases hx
      cases hy
      exact ⟨[], rfl, rfl, fun _ => ⟨rfl, h⟩⟩
  | place size align written =>
      obtain ⟨hsize, ha, hle⟩ := hplan size align written rfl
      obtain ⟨asked, hs, ht, hsame⟩ := h.arena.place honest honest' sound sound' hsize ha hle
      cases hx with
      | placed m hplace =>
          cases hy with
          | placed n hplace' =>
              rw [hplace] at hs hsame
              rw [hplace'] at ht hsame
              refine ⟨asked, ?_, ?_, fun hanswers => ?_⟩
              · rw [source_record]
                exact hs
              · rw [source_record]
                exact ht
              · obtain ⟨rfl, htwins⟩ := hsame hanswers
                exact h.record (htwins.withMemory m n) size align written _

/-- One step is taken in step. -/
theorem Twins.step (h : s.Twins t) (hr : r.IsModest) :
    ∃ asked, (s.step r).2.arena.source = after s.arena.source asked ∧
      (t.step r).2.arena.source = after t.arena.source asked ∧
      (answers s.arena.source asked = answers t.arena.source asked →
        (s.step r).1 = (t.step r).1 ∧ (s.step r).2.Twins (t.step r).2) := by
  cases hplan : r.plan? with
  | none =>
      refine ⟨[], ?_⟩
      cases r with
      | write slot bytes =>
          obtain ⟨⟨m, hm⟩, -⟩ := s.write_eq slot bytes
          obtain ⟨⟨n, hn⟩, -⟩ := t.write_eq slot bytes
          refine ⟨?_, ?_, fun _ => ⟨rfl, h.write slot bytes⟩⟩
          · simp only [Session.step, hm]
            rfl
          · simp only [Session.step, hn]
            rfl
      | reset => exact ⟨rfl, rfl, fun _ => ⟨rfl, h.arena.reset, rfl⟩⟩
      | _ => cases hplan
  | some plan =>
      refine h.follow honest honest' sound sound' ?_ (following hplan) (following hplan)
      rintro size align written rfl
      obtain ⟨hdemand, hsize, ha⟩ := Request.demand?_of_plan? hplan
      exact ⟨hsize, ha, hr (size, align) hdemand⟩

end Step

/-- The source is asked for blocks, one after another, and for nothing else. -/
theorem exists_asked (honest : Honest origin) (sound : s.arena.Sound origin)
    (requests : List Request) :
    ∃ asked, (s.run requests).arena.source = after s.arena.source asked := by
  induction requests generalizing s with
  | nil => exact ⟨[], rfl⟩
  | cons r rest ih =>
      obtain ⟨later, hlater⟩ := ih (sound_step honest sound r)
      have hnow : ∃ now, (s.step r).2.arena.source = after s.arena.source now := by
        cases step_asking honest sound r with
        | silent hsource _ => exact ⟨[], hsource⟩
        | refused l _ halloc _ => exact ⟨[l], by simp [after, halloc]⟩
        | granted l base _ halloc _ => exact ⟨[l], by simp [after, halloc]⟩
      obtain ⟨now, hnow⟩ := hnow
      refine ⟨now ++ later, ?_⟩
      rw [after_append, ← hnow]
      exact hlater

/-- Twins whose sources answer alike show the same. -/
theorem Twins.run (honest : Honest origin) (honest' : Honest origin')
    (sound : s.arena.Sound origin) (sound' : t.arena.Sound origin') (h : s.Twins t)
    {requests : List Request} (hmodest : ∀ r ∈ requests, r.IsModest) :
    ∃ asked, (s.run requests).arena.source = after s.arena.source asked ∧
      (answers s.arena.source asked = answers t.arena.source asked →
        s.trace requests = t.trace requests) := by
  induction requests generalizing s t with
  | nil => exact ⟨[], rfl, fun _ => rfl⟩
  | cons r rest ih =>
      obtain ⟨now, hs, ht, hsame⟩ :=
        h.step honest honest' sound sound' (hmodest r List.mem_cons_self)
      have sound₁ := sound_step honest sound r
      have sound₁' := sound_step honest' sound' r
      by_cases hnow : answers s.arena.source now = answers t.arena.source now
      · obtain ⟨hreply, htwins⟩ := hsame hnow
        obtain ⟨later, hrun, hrest⟩ :=
          ih sound₁ sound₁' htwins fun q hq => hmodest q (List.mem_cons_of_mem r hq)
        refine ⟨now ++ later, ?_, fun hanswers => ?_⟩
        · rw [after_append, ← hs]
          exact hrun
        · obtain ⟨-, hlater⟩ := answers_append_inj hanswers
          rw [← hs, ← ht] at hlater
          rw [trace, trace, hreply, htwins.arena.view_eq, hrest hlater]
      · -- The sources have parted already, so nothing is left to be shown.
        obtain ⟨later, hrun⟩ := exists_asked honest sound₁ rest
        refine ⟨now ++ later, ?_, fun hanswers => absurd (answers_append_inj hanswers).1 hnow⟩
        rw [after_append, ← hs]
        exact hrun

/-- What an arena shows does not depend on a record that its source keeps. -/
theorem trace_mapSource {f : σ → τ} (renders : Renders f) (s : Session σ)
    (requests : List Request) : (s.mapSource f).trace requests = s.trace requests := by
  induction requests generalizing s with
  | nil => rfl
  | cons r rest ih =>
      have hstep := s.step_mapSource renders r
      rw [trace, trace, hstep, ← ih]
      rfl

/-- Two arenas of the same configuration over honest sources go through the same history of requests
with the standard alignment at most. If the sources give the same answers to what the one arena asks
for, addresses aside, then the results of all requests are the same, and after each of them the
arenas show the same capacities, available bytes and counters. -/
theorem same_trace {config : Config} {source : σ} {source' : τ} {a : Arena σ} {b : Arena τ}
    (honest : Honest source) (honest' : Honest source')
    (created : Arena.create? config source = .ok a)
    (created' : Arena.create? config source' = .ok b) (requests : List Request)
    (hmodest : ∀ r ∈ requests, r.IsModest)
    (hanswers :
      let asked := requested (run { arena := a.watched } requests).arena.source.calls
      answers source asked = answers source' asked) :
    trace { arena := a } requests = trace { arena := b } requests := by
  obtain ⟨createdWatched, -⟩ := Arena.create?_watched created
  have honestWatched : Honest (⟨source, []⟩ : Recorded σ) := Recorded.renders_inner.honest honest
  have htwins : Twins (⟨a.watched, []⟩ : Session (Recorded σ)) ⟨b, []⟩ :=
    ⟨Arena.twins_of_create? createdWatched created', rfl⟩
  obtain ⟨asked, hrun, hsame⟩ := htwins.run honestWatched honest'
    (Arena.sound_of_create? createdWatched) (Arena.sound_of_create? created') hmodest
  have hasked : requested (run ⟨a.watched, []⟩ requests).arena.source.calls = asked := by
    rw [hrun, Recorded.requested_after]
    rfl
  have hsource : a.watched.source.inner = source := Arena.source_of_create? created
  have hwatched : trace ⟨a.watched, []⟩ requests = trace { arena := a } requests :=
    (trace_mapSource Recorded.renders_inner ⟨a.watched, []⟩ requests).symm
  rw [← hwatched]
  refine hsame ?_
  rw [Recorded.answers_eq, hsource, Arena.source_of_create? created', ← hasked]
  exact hanswers

/-- A history over two address spaces, with the blocks of one in its first pages and those of the
other far above, each inside its page. -/
theorem same_trace_far_apart :
    let source : AddressSpace := { slack := 24 }
    let source' : AddressSpace := { slack := 24, skew := 48, frontier := 1 <<< 48 }
    let config : Config := { initialBlockSize := 64, growth := .linear 32 }
    let a : Arena AddressSpace := { config, source, nextBlockSize := 64 }
    let b : Arena AddressSpace := { config, source := source', nextBlockSize := 64 }
    let requests : List Request := [.allocate 5, .array Element.uint64 3, .zeroed 100 2,
      .allocate (1 <<< 61), .allocateAligned 9 3, .reset, .copySlice ⟨[1, 2, 3]⟩,
      .alloc Element.uint128 7, .concat [⟨[4]⟩, ⟨[5, 6]⟩], .array Element.uint32 0]
    (Honest source ∧ Honest source' ∧ Arena.create? config source = .ok a ∧
      Arena.create? config source' = .ok b ∧ ∀ r ∈ requests, r.IsModest) ∧
    requested (run { arena := a.watched } requests).arena.source.calls =
      [⟨64, 16⟩, ⟨112, 16⟩, ⟨1 <<< 61, 16⟩] ∧
    answers source [⟨64, 16⟩, ⟨112, 16⟩, ⟨1 <<< 61, 16⟩] = [some 88, some 136, none] ∧
    (run { arena := a } requests).arena.grants ≠ (run { arena := b } requests).arena.grants ∧
    trace { arena := a } requests = trace { arena := b } requests := by
  intro source source' config a b requests
  have honest := AddressSpace.honest source
  have honest' := AddressSpace.honest source'
  have created : Arena.create? config source = .ok a := rfl
  have created' : Arena.create? config source' = .ok b := rfl
  have hmodest : ∀ r ∈ requests, r.IsModest := by decide +kernel
  have hasked : requested (run { arena := a.watched } requests).arena.source.calls =
      [⟨64, 16⟩, ⟨112, 16⟩, ⟨1 <<< 61, 16⟩] := by decide +kernel
  have hanswers : answers source [⟨64, 16⟩, ⟨112, 16⟩, ⟨1 <<< 61, 16⟩] =
      [some 88, some 136, none] := by decide +kernel
  have hanswers' : answers source' [⟨64, 16⟩, ⟨112, 16⟩, ⟨1 <<< 61, 16⟩] =
      [some 88, some 136, none] := by decide +kernel
  have hmoved : (run { arena := a } requests).arena.grants ≠
      (run { arena := b } requests).arena.grants := by decide +kernel
  refine ⟨⟨honest, honest', created, created', hmodest⟩, hasked, hanswers, hmoved,
    same_trace honest honest' created created' requests hmodest ?_⟩
  rw [hasked]
  exact hanswers.trans hanswers'.symm

end Session

end Lifespan
