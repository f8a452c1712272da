import Lifespan.Proofs.Arena.Requests

/-!
# The rooms of the blocks

The index is edited in three ways. When a range is claimed in a block, the room of the block is
taken out and what is left of it is put in; when a block is added, its room is put in; and when all
ranges are given up, the index is made anew. After each of them the index lists one room for each
block, the one that it has, and no cursor has left its block. Nothing is asked of the source for
that: whatever it grants, a range is claimed where it was found, so that no claim fails between two
edits.
-/

namespace Lifespan

/-! ## One room for each block -/

namespace Index

variable {l : Index} {blocks : List Block}

theorem perm_insert (l : Index) (r : Room) : (l.insert r).Perm (r :: l) := by
  induction l with
  | nil => exact .refl _
  | cons s rest ih =>
      by_cases h : s.Precedes r
      · rw [insert, if_pos h]
        exact (ih.cons s).trans (.swap r s rest)
      · rw [insert, if_neg h]

theorem map_block_ofBlocks_perm (first : Nat) (blocks : List Block) :
    ((ofBlocks first blocks).map Room.block).Perm (List.range' first blocks.length) := by
  induction blocks generalizing first with
  | nil => exact .refl _
  | cons b rest ih =>
      have hinsert := (perm_insert (ofBlocks (first + 1) rest) ⟨b.available, first⟩).map Room.block
      exact hinsert.trans ((ih (first + 1)).cons first)

/-- The index numbers the blocks, each once. -/
theorem Mirrors.map_block_perm (h : l.Mirrors blocks) :
    (l.map Room.block).Perm (List.range blocks.length) := by
  rw [h.eq_ofBlocks, List.range_eq_range']
  exact map_block_ofBlocks_perm 0 blocks

end Index

/-! ## Arenas -/

namespace Arena

variable {σ : Type} {a a' : Arena σ} {size align : Nat}

theorem indexed_of_create? [Source σ] {config : Config} {source : σ}
    (h : create? config source = .ok a) : a.Indexed :=
  (sound_of_create? h).indexed

namespace Indexed

variable (h : a.Indexed)
include h

/-- All that counts are the blocks and the index. -/
theorem congr (hblocks : a'.blocks = a.blocks) (hindex : a'.index = a.index) : a'.Indexed where
  cursor_le := by
    rw [hblocks]
    exact h.cursor_le
  mirrors := by
    rw [hblocks, hindex]
    exact h.mirrors

variable [Source σ]

theorem grow (size align : Nat) : (a.grow size align).2.Indexed := by
  rw [grow_eq]
  cases a.order size align with
  | error e => exact h
  | ok layout =>
      have htaking := a.taking layout size align
      dsimp only
      generalize a.take layout size align = result at htaking ⊢
      cases htaking with
      | refused _ | faulted _ _ => exact h.congr rfl rfl
      | @opened _ source _ _ hend =>
          exact addBlock (a := { a with source }) (h.congr rfl rfl) hend _

/-- Placing a range, also when it fails. -/
theorem place (size align : Nat) : (a.place size align).2.Indexed := by
  simp only [Arena.place]
  split
  · exact h
  · rcases h.reuse_cases size align with ⟨hnone, -⟩ | ⟨p, b, -, hpeek, -, hsome⟩
    · have hgrow := h.grow size align
      rw [hnone]
      dsimp only
      rcases hresult : a.grow size align with ⟨_ | p, a'⟩
      · rwa [hresult] at hgrow
      · rw [hresult] at hgrow
        exact hgrow.congr rfl rfl
    · rw [hsome]
      exact (h.advance (Block.claim_of_peek hpeek).1).congr rfl rfl

/-- All forms of requests. -/
theorem of_reserving {result : Except Failure (Option Placement) × Arena σ}
    (hreserve : Reserving a size align result) : result.2.Indexed := by
  cases hreserve with
  | empty _ | rejected _ => exact h
  | failed _ _ hplace =>
      have hnext := h.place size align
      rwa [hplace] at hnext
  | placed m _ _ hplace =>
      have hnext := h.place size align
      rw [hplace] at hnext
      exact hnext.congr rfl rfl

end Indexed

end Arena

/-! ## Sessions -/

namespace Session

variable {σ : Type} [Source σ] {s : Session σ}

theorem indexed_step (h : s.arena.Indexed) (r : Request) : (s.step r).2.arena.Indexed := by
  have hmove := s.step_moving r
  generalize s.step r = next at hmove
  cases hmove with
  | reset => exact s.arena.indexed_reset
  | write slot bytes =>
      obtain ⟨⟨m, hm⟩, -⟩ := s.write_eq slot bytes
      rw [hm]
      exact h.congr rfl rfl
  | unplaced _ hreserve _ _ _ => exact h.of_reserving hreserve
  | placed _ hreserve => exact h.of_reserving hreserve

theorem indexed_run (h : s.arena.Indexed) (requests : List Request) :
    (s.run requests).arena.Indexed :=
  run_induction (P := fun s => s.arena.Indexed) (fun _ r h => indexed_step h r) h requests

/-- After any history of requests on a new arena, whatever its source does: the index consists of
the rooms of the blocks, with one room for each block, in descending order. The cursor of a block is
within it, so its room and the bytes that are claimed make up the block. The search for a range and
the claim of it do not fail. -/
theorem index_mirrors_blocks {config : Config} {source : σ} {a : Arena σ}
    (created : Arena.create? config source = .ok a) (requests : List Request) :
    let arena := (run { arena := a } requests).arena
    (∀ r, r ∈ arena.index ↔ ∃ i b, arena.blocks[i]? = some b ∧ r = ⟨b.available, i⟩) ∧
      (arena.index.map Room.block).Perm (List.range arena.blocks.length) ∧
      arena.index.Pairwise Room.Precedes ∧
      (∀ b ∈ arena.blocks, b.cursor ≤ b.capacity ∧ b.cursor + b.available = b.capacity) ∧
      ∀ size align, ∃ found, arena.reuse size align = .ok found := by
  intro arena
  have h : arena.Indexed :=
    indexed_run (s := { arena := a }) (Arena.indexed_of_create? created) requests
  refine ⟨?_, h.mirrors.map_block_perm, h.mirrors.sorted, ?_, ?_⟩
  · intro r
    rw [h.mirrors.eq_ofBlocks, Index.mem_ofBlocks]
    simp only [Nat.zero_add]
  · intro b hb
    have hle := h.cursor_le b hb
    exact ⟨hle, Nat.add_sub_of_le hle⟩
  · intro size align
    rcases h.reuse_cases size align with ⟨hnone, -⟩ | ⟨p, b, -, -, -, hsome⟩
    · exact ⟨_, hnone⟩
    · exact ⟨_, hsome⟩

/-- A source grants the same extent again and again, at an odd address. The blocks are one another's
memory, and a third one cannot hold the range that it is made for; two more requests are refused.
The index lists the two blocks that there are, before and after all ranges are given up. -/
theorem index_mirrors_blocks_overlapping :
    let _ : Source Unit :=
      { allocate := fun _ _ => (some 4097, ()), deallocate := fun _ _ _ => () }
    let config : Config := { initialBlockSize := 64, growth := .linear 6, memoryLimit := some 250 }
    let a : Arena Unit := { config, source := (), nextBlockSize := 64 }
    let requests : List Request := [.allocateAligned 56 1, .allocateAligned 57 1, .allocate 70,
      .zeroed 3 3, .allocate 700, .array (Element.blank 2 2) 3]
    let arena := (run { arena := a } requests).arena
    let again := (run { arena := a } (requests ++ [.reset, .allocateAligned 69 1])).arena
    Arena.create? config () = .ok a ∧
      arena.index = [⟨8, 0⟩, ⟨7, 1⟩] ∧
      (∀ r, r ∈ arena.index ↔ ∃ i b, arena.blocks[i]? = some b ∧ r = ⟨b.available, i⟩) ∧
      again.index = [⟨64, 0⟩, ⟨1, 1⟩] ∧
      (∀ r, r ∈ again.index ↔ ∃ i b, again.blocks[i]? = some b ∧ r = ⟨b.available, i⟩) ∧
      (again.index.map Room.block).Perm (List.range again.blocks.length) ∧
      ∃ found, again.reuse 65 8 = .ok found := by
  intro source config a requests arena again
  have created : Arena.create? config () = .ok a := rfl
  obtain ⟨hbefore, -⟩ := index_mirrors_blocks created requests
  obtain ⟨hafter, hblocks, -, -, hreuse⟩ :=
    index_mirrors_blocks created (requests ++ [.reset, .allocateAligned 69 1])
  exact ⟨created, by decide, hbefore, by decide, hafter, hblocks, hreuse 65 8⟩

end Session

end Lifespan
