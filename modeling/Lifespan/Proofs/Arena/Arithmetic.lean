import Lifespan.Proofs.Arena.Accounting
import Lifespan.Proofs.Arena.Settling

/-!
# Unchecked arithmetic

Sums and differences that may leave the range of words are checked. All others are left to the
machine, which computes modulo the number of words and says nothing. None of them ever leaves the
range: cursors stay within their blocks, and what the counters count are bytes of extents, which lie
apart from each other in one address space. Nothing else is needed of the source; its extents may be
aligned or not.
-/

namespace Lifespan

/-! ## Operations of the machine -/

/-- An operation that the machine carries out without a check. -/
inductive Unchecked where
  | add (a b : Nat)
  | sub (a b : Nat)
deriving DecidableEq, Repr

namespace Unchecked

/-- What an operation is applied to. -/
def operands : Unchecked → List Nat
  | add a b => [a, b]
  | sub a b => [a, b]

/-- What the machine computes. -/
def machine : Unchecked → UInt64
  | add a b => .ofNat a + .ofNat b
  | sub a b => .ofNat a - .ofNat b

/-- What was meant. -/
def value : Unchecked → Int
  | add a b => a + b
  | sub a b => a - b

/-- The operands are words, and a number is both what was meant and what the machine computes. -/
structure Exact (u : Unchecked) (n : Nat) : Prop where
  words : ∀ a ∈ u.operands, a < Word.bound
  value : u.value = n
  machine : u.machine.toNat = n

variable {a b : Nat}

theorem bound_eq : Word.bound = 2 ^ 64 := by decide

/-- A sum is exact if it is a word. -/
theorem exact_add (h : a + b < Word.bound) : (add a b).Exact (a + b) where
  words := by
    simp only [operands, List.mem_cons, List.not_mem_nil, or_false]
    omega
  value := by simp [Unchecked.value]
  machine := by
    rw [bound_eq] at h
    simp only [Unchecked.machine, UInt64.toNat_add, UInt64.toNat_ofNat']
    omega

/-- A difference is exact if it is not below zero. -/
theorem exact_sub (ha : a < Word.bound) (hb : b ≤ a) : (sub a b).Exact (a - b) where
  words := by
    simp only [operands, List.mem_cons, List.not_mem_nil, or_false]
    omega
  value := by
    simp only [Unchecked.value]
    omega
  machine := by
    rw [bound_eq] at ha
    simp only [Unchecked.machine, UInt64.toNat_sub, UInt64.toNat_ofNat']
    omega

/-- The last word and one more: the machine computes zero. -/
example : (add Word.max 1).machine = 0 := by decide

end Unchecked

/-! ## What is needed of a source -/

/-- A source whose extents do not wrap and have no address in common while they are held. -/
structure Source.Spaced {σ : Type} [Source σ] (origin : σ) : Prop where
  bounded {s : σ} {held : List Source.Extent} (h : Source.History origin s held) :
    ∀ e ∈ held, e.span.stop < Word.bound
  apart {s : σ} {held : List Source.Extent} (h : Source.History origin s held) :
    held.Pairwise fun e f => e.span.Apart f.span

theorem Source.Honest.spaced {σ : Type} [Source σ] {origin : σ} (h : Source.Honest origin) :
    Source.Spaced origin := ⟨h.bounded, h.apart⟩

open Source

/-! ## Arenas -/

namespace Arena

variable {σ : Type} {a a' : Arena σ} {b : Block}

theorem cursor_le_of_set {i : Nat} {c : Block} (h : ∀ b ∈ a.blocks, b.cursor ≤ b.capacity)
    (hc : c.cursor ≤ c.capacity) : ∀ b ∈ a.blocks.set i c, b.cursor ≤ b.capacity := by
  intro b hb
  rcases List.mem_or_eq_of_mem_set hb with hb | rfl
  · exact h b hb
  · exact hc

variable [Source σ] {origin : σ}

/-- The counters of an arena are bounded by extents that are held from its source. -/
structure Counted (origin : σ) (a : Arena σ) : Prop where
  held : ∃ held, History origin a.source held ∧ (a.blocks.map Block.extent).Sublist held
  cursor_le : ∀ b ∈ a.blocks, b.cursor ≤ b.capacity
  size_le : ∀ b ∈ a.blocks, b.grant.layout.size ≤ b.capacity
  allocated_le : a.allocatedBytes ≤ a.usedBytes
  memory : a.memoryBytes = sum (a.grants.map fun g => g.layout.size)
  next_pos : 0 < a.nextBlockSize

theorem counted_of_create? {config : Config} {source : σ} (h : create? config source = .ok a) :
    a.Counted source := by
  have hnext := (sound_of_create? h).next_pos
  obtain ⟨-, rfl⟩ := create?_eq_ok_iff.mp h
  exact ⟨⟨[], .start, List.Sublist.refl _⟩, by simp, by simp, Nat.le_refl _, rfl, hnext⟩

namespace Counted

/-- Rewinding all blocks keeps the counters bounded. -/
theorem reset (h : a.Counted origin) : a.reset.Counted origin where
  held := by
    have hextents : a.reset.blocks.map Block.extent = a.blocks.map Block.extent := by
      simp only [Arena.reset, List.map_map]
      rfl
    rw [hextents]
    exact h.held
  cursor_le := a.indexed_reset.cursor_le
  size_le := by
    intro b hb
    obtain ⟨c, hc, rfl⟩ := List.mem_map.mp hb
    exact h.size_le c hc
  allocated_le := Nat.zero_le _
  memory := by
    rw [grants_reset]
    exact h.memory
  next_pos := h.next_pos

/-- A source may be asked without any effect on the blocks. -/
theorem asked (h : a.Counted origin) {source : σ} (hasked : Asked a.source source)
    (m : Memory) : Counted origin { a with source, memory := m } where
  held := by
    obtain ⟨held, hheld, hsub⟩ := h.held
    obtain ⟨more, hmore⟩ := hheld.of_asked hasked
    exact ⟨held ++ more, hmore, hsub.trans (List.sublist_append_left _ _)⟩
  cursor_le := h.cursor_le
  size_le := h.size_le
  allocated_le := h.allocated_le
  memory := h.memory
  next_pos := h.next_pos

/-- A range in an existing block is counted. -/
theorem reused (h : a.Counted origin) {p : Placement} {size : Nat}
    (hb : a.blocks[p.block]? = some b) (hcursor : b.cursor ≤ p.offset)
    (hend : p.offset + size ≤ b.capacity) (index : Index) (m : Memory) :
    Counted origin { a with
      blocks := a.blocks.set p.block { b with cursor := p.offset + size }
      index
      allocatedBytes := a.allocatedBytes + size
      memory := m } where
  held := by
    have hextents : (a.blocks.set p.block { b with cursor := p.offset + size }).map Block.extent =
        a.blocks.map Block.extent := map_set_of_eq hb rfl
    rw [hextents]
    exact h.held
  cursor_le := cursor_le_of_set h.cursor_le hend
  size_le := by
    intro c hc
    rcases List.mem_or_eq_of_mem_set hc with hc | rfl
    · exact h.size_le c hc
    · exact h.size_le b (List.mem_of_getElem? hb)
  allocated_le := by
    have hset := sum_map_set Block.cursor hb { b with cursor := p.offset + size }
    have hle := h.allocated_le
    simp only [usedBytes] at hset hle ⊢
    omega
  memory := by
    have hgrants : (a.blocks.set p.block { b with cursor := p.offset + size }).map Block.grant =
        a.grants := map_set_of_eq hb rfl
    rw [grants, hgrants]
    exact h.memory
  next_pos := h.next_pos

/-- A range in a new block is counted, and so is the block. -/
theorem opened (h : a.Counted origin) {size align offset : Nat} {source : σ}
    (hb : a.Opened size align offset b source) (isLarge : Bool) (m : Memory) :
    Counted origin { ({ a with source }.addBlock b isLarge).charge size with memory := m } where
  held := by
    obtain ⟨held, hheld, hsub⟩ := h.held
    have hgrant := hheld.grant hb.valid hb.size_pos hb.granted
    have hextent : Source.extent source b.grant.base b.grant.layout = b.extent := by
      simp only [Source.extent, Block.extent, hb.capacity]
    rw [hextent] at hgrant
    refine ⟨_, hgrant, ?_⟩
    simp only [charge, addBlock, List.map_append, List.map_cons, List.map_nil]
    exact hsub.append (List.Sublist.refl _)
  cursor_le := by
    intro c hc
    rcases List.mem_append.mp hc with hc | hc
    · exact h.cursor_le c hc
    · rw [List.mem_singleton.mp hc]
      exact hb.cursor_le
  size_le := by
    intro c hc
    rcases List.mem_append.mp hc with hc | hc
    · exact h.size_le c hc
    · rw [List.mem_singleton.mp hc, hb.capacity]
      exact le_max_right _ _
  allocated_le := by
    have hle := h.allocated_le
    have hcursor := hb.cursor
    simp only [usedBytes, charge, addBlock, List.map_append, sum_append, List.map_cons,
      List.map_nil, sum_cons, sum_nil] at hle ⊢
    omega
  memory := by
    have hmemory := h.memory
    simp only [grants, charge, addBlock, List.map_append, sum_append, List.map_cons,
      List.map_nil, sum_cons, sum_nil] at hmemory ⊢
    omega
  next_pos := next_pos_addBlock (a := { a with source }) h.next_pos b isLarge

/-! ## Bounds -/

variable (h : a.Counted origin) (spaced : Spaced origin)
include h spaced

theorem base_add_capacity_lt (hb : b ∈ a.blocks) : b.base + b.capacity < Word.bound := by
  obtain ⟨held, hheld, hsub⟩ := h.held
  exact spaced.bounded hheld b.extent (hsub.subset (List.mem_map_of_mem hb))

/-- All blocks together have fewer bytes than there are words, as they lie apart. -/
theorem sum_capacity_lt : sum (a.blocks.map Block.capacity) < Word.bound := by
  obtain ⟨held, hheld, hsub⟩ := h.held
  let spans := a.blocks.map fun b => b.extent.span
  have hapart : spans.Pairwise Span.Apart := by
    have hpairs := List.pairwise_map.mp ((spaced.apart hheld).sublist hsub)
    exact List.pairwise_map.mpr hpairs
  have hstop : ∀ s ∈ spans, s.stop ≤ Word.max := by
    intro s hs
    obtain ⟨b, hb, rfl⟩ := List.mem_map.mp hs
    exact Nat.le_sub_one_of_lt (h.base_add_capacity_lt spaced hb)
  have hsum : sum (spans.map Span.length) ≤ Word.max := Span.sum_length_le hapart hstop
  have hmap : spans.map Span.length = a.blocks.map Block.capacity := by
    simp only [spans, List.map_map]
    rfl
  rw [hmap] at hsum
  exact Nat.lt_of_le_of_lt hsum (by decide)

/-- The used bytes are some of those of the blocks. -/
theorem usedBytes_lt : a.usedBytes < Word.bound := by
  have hcapacity := h.sum_capacity_lt spaced
  have hsum := sum_cursor_add_available h.cursor_le
  simp only [usedBytes]
  omega

theorem allocatedBytes_lt : a.allocatedBytes < Word.bound :=
  Nat.lt_of_le_of_lt h.allocated_le (h.usedBytes_lt spaced)

theorem memoryBytes_lt : a.memoryBytes < Word.bound := by
  refine Nat.lt_of_le_of_lt ?_ (h.sum_capacity_lt spaced)
  rw [h.memory, grants, List.map_map]
  exact sum_map_le_sum_map h.size_le

end Counted

end Arena

/-! ## Sessions -/

namespace Session

variable {σ : Type} [Source σ] {origin : σ} {s : Session σ} {r : Request}

theorem counted_step (h : s.arena.Counted origin) (r : Request) :
    (s.step r).2.arena.Counted origin := by
  have hend := s.settling r
  generalize s.step r = next at hend
  cases hend with
  | reset => exact h.reset
  | unplaced _ hasked => exact h.asked hasked _
  | reused _ _ _ hb hcursor hend => exact h.reused hb hcursor hend _ _
  | opened _ _ _ hb => exact h.opened hb _ _

theorem counted_run (h : s.arena.Counted origin) (requests : List Request) :
    (s.run requests).arena.Counted origin :=
  run_induction (P := fun s => s.arena.Counted origin) (fun _ r h => counted_step h r) h requests

/-- The unchecked operations of an arena, in a state and for a request, each with the number that
is meant by it. -/
inductive Computes (s : Session σ) (r : Request) : Unchecked → Nat → Prop where
  | room {b : Block} : b ∈ s.arena.blocks → Computes s r (.sub b.capacity b.cursor) b.available
  | claimed {b : Block} : b ∈ s.arena.blocks →
    Computes s r (.add b.base b.cursor) (b.base + b.cursor)
  | used {before after : List Block} {b : Block} : s.arena.blocks = before ++ b :: after →
    Computes s r (.add (sum (before.map Block.cursor)) b.cursor)
      (sum ((before ++ [b]).map Block.cursor))
  | mask {align : Nat} : Alignment.IsValid align → align ≤ Arena.maxAlign →
    Computes s r (.sub align 1) (align - 1)
  | padding {b : Block} {align here aligned : Nat} : Alignment.IsValid align →
    align ≤ Arena.maxAlign → Word.add? b.base b.cursor = some here →
    Alignment.roundUp? here align = some aligned → Computes s r (.sub aligned here) (aligned - here)
  | offset {b : Block} {align here aligned : Nat} : Alignment.IsValid align →
    align ≤ Arena.maxAlign → Word.add? b.base b.cursor = some here →
    Alignment.roundUp? here align = some aligned →
    Computes s r (.add b.cursor (aligned - here)) (b.cursor + (aligned - here))
  | allocated {size align i : Nat} {p : Placement} : r.demand? = some (size, align) →
    (s.step r).1 = .ok (.placed i p) →
    Computes s r (.add s.arena.allocatedBytes size) (s.step r).2.arena.allocatedBytes
  | memory {b : Block} : (s.step r).2.arena.blocks = s.arena.blocks ++ [b] →
    Computes s r (.add s.arena.memoryBytes b.grant.layout.size) (s.step r).2.arena.memoryBytes
  | written {before after : List Slice} {part : Slice} {i : Nat} {p : Placement} :
    r = .concat (before ++ part :: after) → (s.step r).1 = .ok (.placed i p) →
    Computes s r (.add (sum (before.map Slice.length)) part.length)
      (sum ((before ++ [part]).map Slice.length))

/-- A range that is placed is counted. -/
theorem allocatedBytes_of_placed {size align i : Nat} {p : Placement}
    (hr : r.demand? = some (size, align))
    (hreply : (s.step r).1 = .ok (.placed i p)) :
    (s.step r).2.arena.allocatedBytes = s.arena.allocatedBytes + size := by
  have hend := s.settling r
  generalize s.step r = next at hend hreply
  cases hend with
  | reset => cases hreply
  | unplaced hno _ => exact absurd hreply (hno i p)
  | reused hr' _ _ _ _ _ =>
      rw [hr] at hr'
      cases hr'
      rfl
  | opened hr' _ _ _ =>
      rw [hr] at hr'
      cases hr'
      rfl

/-- The bytes of a new block are counted. -/
theorem memoryBytes_of_opened {b : Block}
    (h : (s.step r).2.arena.blocks = s.arena.blocks ++ [b]) :
    (s.step r).2.arena.memoryBytes = s.arena.memoryBytes + b.grant.layout.size := by
  have hend := s.settling r
  have hlength := congrArg List.length h
  generalize s.step r = next at hend h hlength
  rw [List.length_append, List.length_singleton] at hlength
  cases hend with
  | reset =>
      simp only [Arena.reset, List.length_map] at hlength
      omega
  | unplaced _ _ =>
      dsimp only at hlength
      omega
  | reused _ _ _ _ _ _ =>
      dsimp only at hlength
      rw [List.length_set] at hlength
      omega
  | opened _ _ _ _ =>
      simp only [Arena.charge, Arena.addBlock, List.append_cancel_left_eq, List.cons.injEq,
        and_true] at h
      rw [← h]
      rfl

/-- An unchecked operation is exact if the counters are bounded. -/
theorem Computes.exact {u : Unchecked} {n : Nat} (h : s.Computes r u n)
    (counted : s.arena.Counted origin) (spaced : Spaced origin) : u.Exact n := by
  have hnext := counted_step counted r
  cases h with
  | room hb =>
      have hbound := counted.base_add_capacity_lt spaced hb
      exact Unchecked.exact_sub (by omega) (counted.cursor_le _ hb)
  | claimed hb =>
      have hbound := counted.base_add_capacity_lt spaced hb
      have hcursor := counted.cursor_le _ hb
      exact Unchecked.exact_add (by omega)
  | @used before after b hblocks =>
      have hused := counted.usedBytes_lt spaced
      simp only [Arena.usedBytes, hblocks, List.map_append, sum_append, List.map_cons,
        sum_cons] at hused
      simp only [List.map_append, sum_append, List.map_cons, List.map_nil, sum_cons, sum_nil,
        Nat.add_zero]
      exact Unchecked.exact_add (by omega)
  | mask ha hmax =>
      exact Unchecked.exact_sub (Nat.lt_of_le_of_lt hmax (by decide)) ha.pos
  | padding ha hmax _ haligned =>
      obtain ⟨hleast, hlt⟩ :=
        (Alignment.roundUp?_eq_some_iff ha (hmax.trans (by decide))).mp haligned
      exact Unchecked.exact_sub hlt hleast.1.1
  | offset ha hmax hhere haligned =>
      obtain ⟨hleast, hlt⟩ :=
        (Alignment.roundUp?_eq_some_iff ha (hmax.trans (by decide))).mp haligned
      obtain ⟨rfl, -⟩ := Word.add?_eq_some_iff.mp hhere
      -- The offset is as far from the base as the address, which is a word.
      have hle := hleast.1.1
      exact Unchecked.exact_add (by omega)
  | allocated hr hreply =>
      have hadded := allocatedBytes_of_placed hr hreply
      have hbound := hnext.allocatedBytes_lt spaced
      rw [hadded] at hbound ⊢
      exact Unchecked.exact_add hbound
  | memory hblocks =>
      have hadded := memoryBytes_of_opened hblocks
      have hbound := hnext.memoryBytes_lt spaced
      rw [hadded] at hbound ⊢
      exact Unchecked.exact_add hbound
  | @written before after part i p hr hreply =>
      -- All slices together are counted as handed out.
      have hdemand : r.demand? = some (sum ((before ++ part :: after).map Slice.length), 1) := by
        rw [hr]
        rfl
      have hadded := allocatedBytes_of_placed hdemand hreply
      have hbound := hnext.allocatedBytes_lt spaced
      rw [hadded] at hbound
      simp only [List.map_append, sum_append, List.map_cons, List.map_nil, sum_cons, sum_nil,
        Nat.add_zero] at hbound ⊢
      exact Unchecked.exact_add (by omega)

/-- After any history of requests on a new arena, over a source whose extents do not wrap and lie
apart, and for any next request: every operation that is left to the machine computes the number
that is meant by it, and the counters are words. -/
theorem arithmetic_exact {config : Config} {source : σ} {a : Arena σ} (spaced : Spaced source)
    (created : Arena.create? config source = .ok a) (requests : List Request) (r : Request) :
    let s := run { arena := a } requests
    (∀ u n, s.Computes r u n → u.Exact n) ∧ s.arena.allocatedBytes < Word.bound ∧
      s.arena.usedBytes < Word.bound ∧ s.arena.memoryBytes < Word.bound := by
  intro s
  have counted : s.arena.Counted source :=
    counted_run (s := { arena := a }) (Arena.counted_of_create? created) requests
  exact ⟨fun u n h => h.exact counted spaced, counted.allocatedBytes_lt spaced,
    counted.usedBytes_lt spaced, counted.memoryBytes_lt spaced⟩

/-- A block that ends at the last word: no page begins behind its ranges, so there is no room for
another aligned one, but there is for two slices. -/
theorem arithmetic_exact_last_word :
    let source : AddressSpace := { frontier := (1 <<< 64) - 8192, slack := 4095 }
    let config : Config := { initialBlockSize := 4096 }
    let a : Arena AddressSpace := { config, source, nextBlockSize := 4096 }
    let requests : List Request := [.allocate 4090, .allocateAligned 8 4096, .zeroed 3905 2,
      .allocateAligned 64 4096]
    let r : Request := .concat [⟨[1, 2, 3]⟩, ⟨[4, 5]⟩]
    let s := run { arena := a } requests
    Spaced source ∧ Arena.create? config source = .ok a ∧
      s.arena.blocks.map Block.extent = [⟨⟨(1 <<< 64) - 8192, ⟨4096, 16⟩⟩, 8191⟩] ∧
      (s.step r).1 = .ok (.placed 3 ⟨0, 8009⟩) ∧
      -- The room in the block, and the end of its claimed bytes.
      (Unchecked.sub 8191 8009).Exact 182 ∧
      (Unchecked.add ((1 <<< 64) - 8192) 8009).Exact ((1 <<< 64) - 183) ∧
      -- The offset of a range with seven bytes of padding.
      (Unchecked.sub ((1 <<< 64) - 176) ((1 <<< 64) - 183)).Exact 7 ∧
      (Unchecked.add 8009 7).Exact 8016 ∧
      -- The bytes that have been handed out, and the second slice.
      (Unchecked.add 8003 5).Exact 8008 ∧ (Unchecked.add 3 2).Exact 5 := by
  intro source config a requests r s
  have created : Arena.create? config source = .ok a := rfl
  have spaced := (AddressSpace.honest source).spaced
  let b : Block := ⟨⟨(1 <<< 64) - 8192, ⟨4096, 16⟩⟩, 8191, 8009⟩
  have hblocks : s.arena.blocks = [b] := by decide +kernel
  have hreply : (s.step r).1 = .ok (.placed 3 ⟨0, 8009⟩) := by decide +kernel
  have hbefore : s.arena.allocatedBytes = 8003 := by decide +kernel
  have hafter : (s.step r).2.arena.allocatedBytes = 8008 := by decide +kernel
  have hb : b ∈ s.arena.blocks := by simp [hblocks]
  have hroom : s.Computes r (.sub 8191 8009) 182 := by
    have havailable : b.available = 182 := by decide
    have h := Computes.room (r := r) hb
    rwa [havailable] at h
  have hclaimed : s.Computes r (.add ((1 <<< 64) - 8192) 8009) ((1 <<< 64) - 183) := by
    have hbase : b.base = (1 <<< 64) - 8192 := by decide
    have hcursor : b.cursor = 8009 := by decide
    have hstop : (1 <<< 64) - 8192 + 8009 = (1 <<< 64) - 183 := by decide
    have h := Computes.claimed (r := r) hb
    rwa [hbase, hcursor, hstop] at h
  have hvalid : Alignment.IsValid 16 := by decide
  have hhere : Word.add? b.base b.cursor = some ((1 <<< 64) - 183) := by decide
  have haligned : Alignment.roundUp? ((1 <<< 64) - 183) 16 = some ((1 <<< 64) - 176) := by decide
  have hallocated : s.Computes r (.add 8003 5) 8008 := by
    have h := Computes.allocated (s := s) (r := r) rfl hreply
    rwa [hbefore, hafter] at h
  have hseven : (1 <<< 64) - 176 - ((1 <<< 64) - 183) = 7 := by decide
  have hpadding : s.Computes r (.sub ((1 <<< 64) - 176) ((1 <<< 64) - 183)) 7 := by
    have h := Computes.padding (s := s) (r := r) hvalid (by decide) hhere haligned
    rwa [hseven] at h
  have hoffset : s.Computes r (.add 8009 7) 8016 := by
    have h := Computes.offset (s := s) (r := r) hvalid (by decide) hhere haligned
    rwa [hseven] at h
  have hconcat : r = .concat ([⟨[1, 2, 3]⟩] ++ ⟨[4, 5]⟩ :: []) := rfl
  obtain ⟨hexact, -⟩ := arithmetic_exact spaced created requests r
  refine ⟨spaced, created, ?_, hreply, hexact _ _ hroom, hexact _ _ hclaimed, hexact _ _ hpadding,
    hexact _ _ hoffset, hexact _ _ hallocated, hexact _ _ (.written hconcat hreply)⟩
  rw [hblocks]
  rfl

end Session

end Lifespan
