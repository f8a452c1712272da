import Lifespan.Proofs.Arena.Requests

/-!
# Ranges are safe

A range that has been handed out lies behind the cursor that its block had before, and cursors only
move forward until the next reset. So the ranges of one block follow one another, those of
different blocks lie in extents that are apart, and all of them stay within the claimed bytes.
-/
namespace Lifespan

namespace Arena

variable {σ : Type} {a a' : Arena σ} {held : List Range} {size align : Nat} {p : Placement}

/-- A range of `size` bytes has been placed: blocks are where they were, no cursor has moved back,
and the range lies between the old cursor of its block and the new one. -/
structure Keeps (a : Arena σ) (size align : Nat) (p : Placement) (a' : Arena σ) : Prop where
  kept : ∀ (i : Nat) (b : Block), a.blocks[i]? = some b →
    ∃ c : Block, a'.blocks[i]? = some c ∧ c.base = b.base ∧ b.cursor ≤ c.cursor
  claimed : ∃ c, a'.blocks[p.block]? = some c ∧ align ∣ c.base + p.offset ∧
    p.offset + size ≤ c.cursor
  fresh : ∀ b, a.blocks[p.block]? = some b → b.cursor ≤ p.offset

/-- The arena and the ranges that it has handed out: each is claimed and aligned in its block, and
the ranges of one block follow one another. -/
structure Holds (a : Arena σ) (held : List Range) : Prop where
  claimed : ∀ r ∈ held, 0 < r.size ∧ ∃ b, a.blocks[r.placement.block]? = some b ∧
    r.align ∣ b.base + r.placement.offset ∧ r.placement.offset + r.size ≤ b.cursor
  inOrder : held.Pairwise fun r t =>
    r.placement.block = t.placement.block → r.placement.offset + r.size ≤ t.placement.offset

/-- A new range keeps the invariant. -/
theorem Holds.of_keeps (h : a.Holds held) (hsize : 0 < size) (hk : a.Keeps size align p a') :
    a'.Holds (held ++ [⟨p, size, align⟩]) where
  claimed := by
    intro r hr
    rcases List.mem_append.mp hr with hr | hr
    · obtain ⟨hpos, b, hb, hdvd, hend⟩ := h.claimed r hr
      obtain ⟨c, hc, hbase, hcursor⟩ := hk.kept _ b hb
      exact ⟨hpos, c, hc, by rwa [hbase], by omega⟩
    · rw [List.mem_singleton.mp hr]
      exact ⟨hsize, hk.claimed⟩
  inOrder := by
    refine List.pairwise_append.mpr ⟨h.inOrder, List.pairwise_singleton _ _, ?_⟩
    intro r hr t ht hblock
    rw [List.mem_singleton.mp ht] at hblock ⊢
    -- The old range ends before the old cursor, and the new one starts behind it.
    obtain ⟨_, b, hb, _, hend⟩ := h.claimed r hr
    rw [hblock] at hb
    exact hend.trans (hk.fresh b hb)

/-- Moving one cursor behind a range that fits at it. -/
theorem keeps_advance {b : Block} (h : a.Chosen size align p b) :
    a.Keeps size align p (a.advance p b size) where
  kept := by
    intro i c hc
    by_cases hi : p.block = i
    · subst hi
      rw [h.block] at hc
      cases hc
      have hlt := (List.getElem?_eq_some_iff.mp h.block).1
      have hcursor : b.cursor ≤ p.offset := h.least.1.1
      exact ⟨_, List.getElem?_set_self hlt, rfl, by dsimp only; omega⟩
    · exact ⟨c, by rwa [advance, List.getElem?_set_ne hi], rfl, Nat.le_refl _⟩
  claimed := by
    have hlt := (List.getElem?_eq_some_iff.mp h.block).1
    exact ⟨_, List.getElem?_set_self hlt, h.least.1.2.1, Nat.le_refl _⟩
  fresh := by
    intro c hc
    rw [h.block] at hc
    cases hc
    exact h.least.1.1

/-- Adding a block with a range at its start. -/
theorem keeps_addBlock {b : Block} (isLarge : Bool) (hdvd : align ∣ b.base)
    (hcursor : size ≤ b.cursor) :
    a.Keeps size align ⟨a.blocks.length, 0⟩ (a.addBlock b isLarge) where
  kept := by
    intro i c hc
    have hlt := (List.getElem?_eq_some_iff.mp hc).1
    exact ⟨c, by rwa [addBlock, List.getElem?_append_left hlt], rfl, Nat.le_refl _⟩
  claimed := ⟨b, List.getElem?_concat_length, hdvd, by simpa using hcursor⟩
  fresh := by
    intro c hc
    rw [List.getElem?_eq_none (Nat.le_refl _)] at hc
    contradiction

variable [Source σ] {origin : σ}

/-- A range that has been placed has been placed afresh. -/
theorem keeps_of_placing (honest : Source.Honest origin) (sound : a.Sound origin)
    (hsize : 0 < size) (ha : Alignment.IsValid align)
    (h : Placing origin a size align (.ok p, a')) : a.Keeps size align p a' := by
  cases h with
  | reused _ hb =>
      have h := keeps_advance hb
      exact ⟨h.kept, h.claimed, h.fresh⟩
  | @grown b a' hmax _ hb =>
      have hgrown := sound.grown hsize ha hmax hb
      have hmem : b ∈ a'.blocks := by
        rw [hb.books]
        exact List.mem_append_right _ (List.mem_singleton_self b)
      have hdvd : align ∣ b.base := by
        have hblockAlign : align ∣ b.grant.layout.align := by
          rw [hb.layout_align]
          exact ha.dvd_of_le (ha.max Alignment.isValid_standard) (le_max_left _ _)
        exact Nat.dvd_trans hblockAlign
          (honest.aligned hgrown.history b.extent (List.mem_map_of_mem hmem))
      have h := keeps_addBlock (a := { a with source := a'.source }) (decide (a.IsLarge size))
        hdvd (Nat.le_of_eq hb.cursor.symm)
      rw [← hb.books] at h
      exact ⟨h.kept, h.claimed, h.fresh⟩

/-- The addresses of a range. -/
def span? (a : Arena σ) (r : Range) : Option Span :=
  (a.address? r.placement).map fun start => ⟨start, r.size⟩

section Holds

variable (honest : Source.Honest origin) (sound : a.Sound origin) (h : a.Holds held)
include honest sound h

/-- A range that is held is aligned, and lies within the claimed bytes of just one block. -/
theorem Holds.safe {r : Range} (hr : r ∈ held) :
    0 < r.size ∧ ∃ start, a.span? r = some ⟨start, r.size⟩ ∧ r.align ∣ start ∧
      ∃! i : Nat, ∃ b : Block, a.blocks[i]? = some b ∧ b.Contains start r.size := by
  obtain ⟨hpos, b, hb, hdvd, hend⟩ := h.claimed r hr
  have hmem := List.mem_of_getElem? hb
  have hcursor := sound.cursor_le b hmem
  have hbound := sound.base_add_capacity_lt honest hmem
  refine ⟨hpos, b.base + r.placement.offset, by simp [span?, address?, hb], hdvd,
    r.placement.block, ⟨b, hb, by omega, by omega, by omega⟩, ?_⟩
  rintro j ⟨c, hc, _, hstart, hstop⟩
  by_contra hj
  -- The range would lie within two extents that are apart.
  have hcle := sound.cursor_le c (List.mem_of_getElem? hc)
  have hapart := sound.extents_apart honest (Ne.symm hj) hb hc
  refine hapart.not_within (r := ⟨b.base + r.placement.offset, r.size⟩) hpos ⟨?_, ?_⟩ ⟨?_, ?_⟩ <;>
    simp only [Block.extent, Source.Extent.span, Span.stop, Block.base] at * <;> omega

/-- Two ranges that are held have no address in common. -/
theorem Holds.apart : held.Pairwise fun r t =>
    ∃ s u, a.span? r = some s ∧ a.span? t = some u ∧ s.Apart u := by
  refine h.inOrder.imp_of_mem ?_
  intro r t hr ht horder
  obtain ⟨_, b, hb, _, hbend⟩ := h.claimed r hr
  obtain ⟨_, c, hc, _, hcend⟩ := h.claimed t ht
  have hbcap := sound.cursor_le b (List.mem_of_getElem? hb)
  have hccap := sound.cursor_le c (List.mem_of_getElem? hc)
  refine ⟨⟨b.base + r.placement.offset, r.size⟩, ⟨c.base + t.placement.offset, t.size⟩,
    by simp [span?, address?, hb], by simp [span?, address?, hc], ?_⟩
  by_cases hblock : r.placement.block = t.placement.block
  · have hstart := horder hblock
    rw [hblock, hc] at hb
    cases hb
    exact Or.inl (by simp only [Span.stop]; omega)
  · refine (sound.extents_apart honest hblock hb hc).mono ⟨?_, ?_⟩ ⟨?_, ?_⟩ <;>
      simp only [Block.extent, Source.Extent.span, Span.stop, Block.base] at * <;> omega

end Holds

end Arena

namespace Session

variable {σ : Type} [Source σ] {origin : σ} {s : Session σ}

/-- One step keeps the invariant of the arena and its ranges. -/
theorem step_holds (honest : Source.Honest origin) (sound : s.arena.Sound origin)
    (h : s.arena.Holds (s.slots.map Slot.range)) (r : Request) :
    (s.step r).2.arena.Holds ((s.step r).2.slots.map Slot.range) := by
  have hend := s.ending honest sound r
  generalize s.step r = next at hend
  cases hend with
  | reset => exact ⟨by simp, List.Pairwise.nil⟩
  | unplaced _ _ hranges =>
      dsimp only
      rw [hranges]
      exact ⟨h.claimed, h.inOrder⟩
  | placed m _ hsize ha hplacing =>
      have hkeeps := Arena.keeps_of_placing honest sound hsize ha hplacing
      have h' := h.of_keeps hsize hkeeps
      rw [List.map_append]
      exact ⟨h'.claimed, h'.inOrder⟩

/-- Every history keeps the invariant of the arena and its ranges. -/
theorem run_holds (honest : Source.Honest origin) (sound : s.arena.Sound origin)
    (h : s.arena.Holds (s.slots.map Slot.range)) (requests : List Request) :
    (s.run requests).arena.Sound origin ∧
      (s.run requests).arena.Holds ((s.run requests).slots.map Slot.range) :=
  run_induction (P := fun s => s.arena.Sound origin ∧ s.arena.Holds (s.slots.map Slot.range))
    (fun _ r h => ⟨sound_step honest h.1 r, step_holds honest h.1 h.2 r⟩) ⟨sound, h⟩ requests

/-- After any history of requests on a new arena over an honest source, every range handed out since
the last reset is aligned as it was asked for and lies within the claimed bytes of exactly one
block, and no two of these ranges have an address in common. -/
theorem handedOut_safe {config : Config} {source : σ} {a : Arena σ}
    (honest : Source.Honest source) (created : Arena.create? config source = .ok a)
    (requests : List Request) :
    let held := handedOut { arena := a } [] requests
    let arena := (run { arena := a } requests).arena
    (∀ r ∈ held, 0 < r.size ∧ ∃ start, arena.span? r = some ⟨start, r.size⟩ ∧ r.align ∣ start ∧
        ∃! i : Nat, ∃ b : Block, arena.blocks[i]? = some b ∧ b.Contains start r.size) ∧
      held.Pairwise fun r t =>
        ∃ s u, arena.span? r = some s ∧ arena.span? t = some u ∧ s.Apart u := by
  intro held arena
  have hslots : (run { arena := a } requests).slots.map Slot.range = held :=
    range_slots_run { arena := a } requests
  have hstart : a.Holds [] := ⟨by simp, List.Pairwise.nil⟩
  obtain ⟨sound, holds⟩ :=
    run_holds (s := { arena := a }) honest (Arena.sound_of_create? created) hstart requests
  rw [hslots] at holds
  exact ⟨fun r hr => holds.safe honest sound hr, holds.apart honest sound⟩

/-- A history with padding, a request that fails, a reset and a block for one large request. -/
theorem handedOut_safe_skewed :
    let source : AddressSpace := { skew := 16 }
    let config : Config := { initialBlockSize := 64, memoryLimit := some 256 }
    let a : Arena AddressSpace := { config, source, nextBlockSize := 64 }
    let requests : List Request := [.allocate 24, .reset, .allocateAligned 3 4, .zeroed 16 32,
      .allocate 300, .array Element.uint64 12, .copySlice ⟨[1, 2, 3]⟩]
    let held := handedOut { arena := a } [] requests
    let arena := (run { arena := a } requests).arena
    Source.Honest source ∧ Arena.create? config source = .ok a ∧
      held = [⟨⟨0, 0⟩, 3, 4⟩, ⟨⟨0, 16⟩, 16, 32⟩, ⟨⟨1, 0⟩, 96, 8⟩, ⟨⟨0, 32⟩, 3, 1⟩] ∧
      (∀ r ∈ held, 0 < r.size ∧ ∃ start, arena.span? r = some ⟨start, r.size⟩ ∧ r.align ∣ start ∧
        ∃! i : Nat, ∃ b : Block, arena.blocks[i]? = some b ∧ b.Contains start r.size) ∧
      held.Pairwise fun r t =>
        ∃ s u, arena.span? r = some s ∧ arena.span? t = some u ∧ s.Apart u := by
  intro source config a requests held arena
  have honest := AddressSpace.honest source
  have created : Arena.create? config source = .ok a := rfl
  exact ⟨honest, created, by decide, handedOut_safe honest created requests⟩

end Session

end Lifespan
