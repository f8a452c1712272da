import Lifespan.Proofs.Arena.Requests

/-!
# Placing a range over any source

A source may break its promise: it may grant extents that are not aligned, or that overlap. What an
arena then does to its books is still one of a few things. A range is claimed in an existing block,
or at some offset of a new block, or nothing has changed but the source, which has been asked for
one extent at most.
-/

namespace Lifespan

namespace Source

variable {σ : Type} [Source σ] {origin s t : σ} {held : List Extent}

/-- A source has been asked for one extent at most, and has granted or refused it. -/
def Asked (s t : σ) : Prop :=
  t = s ∨ ∃ l : Layout, l.Valid ∧ 0 < l.size ∧ t = (allocate l s).2

/-- What was held is held still after a source has been asked. -/
theorem History.of_asked (h : History origin s held) (hst : Asked s t) :
    ∃ more, History origin t (held ++ more) := by
  rcases hst with rfl | ⟨l, hvalid, hpos, rfl⟩
  · refine ⟨[], ?_⟩
    rwa [List.append_nil]
  · cases halloc : allocate l s with
    | mk answer t =>
        cases answer with
        | none =>
            refine ⟨[], ?_⟩
            rw [List.append_nil]
            exact h.refuse hvalid hpos halloc
        | some base => exact ⟨_, h.grant hvalid hpos halloc⟩

end Source

open Source

/-! ## Arenas -/

namespace Arena

variable {σ : Type} {a a' : Arena σ} {size align : Nat} {p : Placement}

/-- The block that a range is claimed in keeps its extent. -/
theorem reuse_of_ok (h : a.reuse size align = .ok (some (p, a'))) :
    ∃ b index, a.blocks[p.block]? = some b ∧ b.cursor ≤ p.offset ∧
      p.offset + size ≤ b.capacity ∧
      a' = { a with
        blocks := a.blocks.set p.block { b with cursor := p.offset + size }
        index } := by
  simp only [reuse] at h
  split at h
  · cases h
  · cases h
  · split at h
    · cases h
    · next b hb =>
      split at h
      · cases h
      · next hclaim =>
        obtain ⟨hcursor, hend, rfl⟩ := Block.claim_of_ok hclaim
        cases h
        exact ⟨b, _, hb, hcursor, hend, rfl⟩

variable [Source σ]

/-- A new block with the range that it was made for, and the source that granted it. -/
structure Opened (a : Arena σ) (size align offset : Nat) (b : Block) (source : σ) : Prop where
  le_maxAlign : align ≤ maxAlign
  blockSize : a.newBlockSize? size align = some b.grant.layout.size
  layout_align : b.grant.layout.align = blockAlign align
  valid : b.grant.layout.Valid
  size_pos : 0 < b.grant.layout.size
  granted : Source.allocate b.grant.layout a.source = (some b.grant.base, source)
  capacity : b.capacity = max (Source.usableSize b.grant.layout source) b.grant.layout.size
  cursor : b.cursor = offset + size
  cursor_le : b.cursor ≤ b.capacity

/-- How placing a range can end, whatever the source does. -/
inductive Settling (a : Arena σ) (size align : Nat) :
    Except Failure Placement × Arena σ → Prop where
  | failed (f : Failure) {source : σ} : Asked a.source source →
    Settling a size align (.error f, { a with source })
  | reused {p : Placement} {b : Block} {index : Index} : a.blocks[p.block]? = some b →
    b.cursor ≤ p.offset → p.offset + size ≤ b.capacity →
    Settling a size align (.ok p, { a with
      blocks := a.blocks.set p.block { b with cursor := p.offset + size }
      index
      allocatedBytes := a.allocatedBytes + size })
  | opened {offset : Nat} {b : Block} {source : σ} : a.Opened size align offset b source →
    Settling a size align (.ok ⟨a.blocks.length, offset⟩,
      ({ a with source }.addBlock b (decide (a.IsLarge size))).charge size)

/-- A new block comes about, or nothing has changed but the source. -/
theorem grow_settling (a : Arena σ) (hsize : 0 < size) (ha : Alignment.IsValid align)
    (hmax : align ≤ maxAlign) :
    (∃ f source, a.grow size align = (.error f, { a with source }) ∧ Asked a.source source) ∨
      ∃ offset b source, a.Opened size align offset b source ∧ a.grow size align =
        (.ok ⟨a.blocks.length, offset⟩,
          { a with source }.addBlock b (decide (a.IsLarge size))) := by
  rw [grow_eq]
  cases horder : a.order size align with
  | error e => exact Or.inl ⟨_, a.source, rfl, Or.inl rfl⟩
  | ok layout =>
      obtain ⟨hblock, -, halign, hvalid⟩ := order_eq_ok_iff.mp horder
      obtain ⟨-, hpos, -⟩ := order_of_ok ha hmax horder hsize
      have hasked : ∀ {answer source}, Source.allocate layout a.source = (answer, source) →
          Asked a.source source := fun halloc => Or.inr ⟨layout, hvalid, hpos, by rw [halloc]⟩
      have htaking := a.taking layout size align
      dsimp only
      generalize a.take layout size align = result at htaking ⊢
      cases htaking with
      | refused halloc => exact Or.inl ⟨_, _, rfl, hasked halloc⟩
      | faulted halloc _ => exact Or.inl ⟨_, _, rfl, hasked halloc⟩
      | @opened base source offset halloc hend =>
          exact Or.inr ⟨offset, _, source,
            ⟨hmax, hblock, halign, hvalid, hpos, halloc, rfl, rfl, hend⟩, rfl⟩

theorem settling (a : Arena σ) (hsize : 0 < size) (ha : Alignment.IsValid align) :
    a.Settling size align (a.place size align) := by
  simp only [place]
  split
  · exact .failed _ (Or.inl rfl)
  · next hmax =>
    split
    · exact .failed _ (Or.inl rfl)
    · next hreuse =>
      obtain ⟨b, index, hb, hcursor, hend, rfl⟩ := reuse_of_ok hreuse
      exact .reused hb hcursor hend
    · rcases a.grow_settling hsize ha (Nat.le_of_not_lt hmax) with
        ⟨f, source, hgrow, hasked⟩ | ⟨offset, b, source, hopened, hgrow⟩
      · rw [hgrow]
        exact .failed f hasked
      · rw [hgrow]
        exact .opened hopened

end Arena

/-! ## Sessions -/

namespace Session

variable {σ : Type} [Source σ] {s : Session σ}

/-- How a step of a session can end, whatever the source does. The memory and the slots may be any.
-/
inductive Settling (s : Session σ) : Request → Except Arena.Failure Grant × Session σ → Prop where
  | reset {slots : List Slot} : Settling s .reset (.ok .nothing, ⟨s.arena.reset, slots⟩)
  | unplaced {r : Request} {reply : Except Arena.Failure Grant} {source : σ} {memory : Memory}
    {slots : List Slot} : (∀ i p, reply ≠ .ok (.placed i p)) → Asked s.arena.source source →
    Settling s r (reply, ⟨{ s.arena with source, memory }, slots⟩)
  | reused {r : Request} {size align i : Nat} {p : Placement} {b : Block} {index : Index}
    {memory : Memory} {slots : List Slot} : r.demand? = some (size, align) → 0 < size →
    Alignment.IsValid align → s.arena.blocks[p.block]? = some b → b.cursor ≤ p.offset →
    p.offset + size ≤ b.capacity →
    Settling s r (.ok (.placed i p), ⟨{ s.arena with
      blocks := s.arena.blocks.set p.block { b with cursor := p.offset + size }
      index
      allocatedBytes := s.arena.allocatedBytes + size
      memory }, slots⟩)
  | opened {r : Request} {size align i offset : Nat} {b : Block} {source : σ} {memory : Memory}
    {slots : List Slot} : r.demand? = some (size, align) → 0 < size →
    Alignment.IsValid align → s.arena.Opened size align offset b source →
    Settling s r (.ok (.placed i ⟨s.arena.blocks.length, offset⟩),
      ⟨{ ({ s.arena with source }.addBlock b (decide (s.arena.IsLarge size))).charge size with
        memory }, slots⟩)

theorem settling (s : Session σ) (r : Request) : s.Settling r (s.step r) := by
  have hmove := s.step_moving r
  generalize s.step r = next at hmove
  cases hmove with
  | reset => exact .reset
  | write slot bytes =>
      obtain ⟨m, hwrite⟩ := s.exists_write_eq slot bytes
      rw [hwrite]
      exact .unplaced (by simp) (Or.inl rfl)
  | unplaced hr hreserve hno hreply _ =>
      cases hreserve with
      | empty _ => exact .unplaced hreply (Or.inl rfl)
      | rejected _ => exact .unplaced hreply (Or.inl rfl)
      | failed hsize ha hplace =>
          have hsettling := s.arena.settling hsize ha
          rw [hplace] at hsettling
          cases hsettling with
          | failed _ hasked => exact .unplaced hreply hasked
      | placed _ _ _ _ => exact absurd rfl (hno _)
  | placed hr hreserve =>
      cases hreserve with
      | placed m hsize ha hplace =>
          have hsettling := s.arena.settling hsize ha
          rw [hplace] at hsettling
          cases hsettling with
          | reused hb hcursor hend => exact .reused hr hsize ha hb hcursor hend
          | opened hopened => exact .opened hr hsize ha hopened

theorem next_pos_step (hnext : 0 < s.arena.nextBlockSize) (r : Request) :
    0 < (s.step r).2.arena.nextBlockSize := by
  have hend := s.settling r
  generalize s.step r = next at hend
  cases hend with
  | reset | unplaced | reused => exact hnext
  | @opened _ size _ _ _ b source _ _ _ _ _ _ =>
      exact Arena.next_pos_addBlock (a := { s.arena with source }) hnext b
        (decide (s.arena.IsLarge size))

end Session

end Lifespan
