import Lifespan.Proofs.Arena.Accounting
import Lifespan.Proofs.Arena.Safety

/-!
# What an arena contains

An arena says that some addresses lie within it by comparing them with the cursor of a block. The
ranges that have been handed out since the last reset say the same: a claimed byte belongs to one of
them or to the padding directly before one, because each range of a block was claimed where the one
before it ends, but for the padding.
-/

namespace Lifespan

/-! ## Ranges in the order in which they were handed out -/

/-- One past the last offset of a range. -/
def Range.stop (r : Range) : Nat := r.placement.offset + r.size

/-- Where the last range of a block ends; at the start of the block if there is none. -/
def lastStop (held : List Range) (block : Nat) : Nat :=
  held.foldl (fun stop r => if r.placement.block = block then r.stop else stop) 0

/-- The offsets of a block that have been taken by ranges. -/
inductive Taken (held : List Range) (block offset : Nat) : Prop where
  | range {r : Range} : r ∈ held → r.placement.block = block → r.placement.offset ≤ offset →
    offset < r.stop → Taken held block offset
  /-- The offset belongs to the padding directly before a range, which begins where the range before
  it in the block ends. -/
  | padding {i : Nat} {r : Range} : held[i]? = some r → r.placement.block = block →
    lastStop (held.take i) block ≤ offset → offset < r.placement.offset → Taken held block offset

/-- Each range begins behind those before it in its block, after less padding than its alignment. -/
def Padded (held : List Range) : Prop :=
  ∀ (i : Nat) (r : Range), held[i]? = some r →
    lastStop (held.take i) r.placement.block ≤ r.placement.offset ∧
      r.placement.offset < lastStop (held.take i) r.placement.block + r.align

section Ranges

variable {held : List Range} {r : Range} {block offset i : Nat}

theorem lastStop_concat (held : List Range) (r : Range) (block : Nat) :
    lastStop (held ++ [r]) block =
      if r.placement.block = block then r.stop else lastStop held block := by
  rw [lastStop, List.foldl_append]
  rfl

/-- A range of a longer list is one of the list, with the same ranges before it, or the last one. -/
theorem getElem?_concat_cases {t : Range} (h : (held ++ [r])[i]? = some t) :
    held[i]? = some t ∧ (held ++ [r]).take i = held.take i ∨
      t = r ∧ (held ++ [r]).take i = held := by
  rcases Nat.lt_or_ge i held.length with hlt | hge
  · rw [List.getElem?_append_left hlt] at h
    exact Or.inl ⟨h, List.take_append_of_le_length (Nat.le_of_lt hlt)⟩
  · rw [List.getElem?_append_right hge, List.getElem?_singleton] at h
    split at h
    · next hzero =>
      obtain rfl : i = held.length := by omega
      exact Or.inr ⟨(Option.some.inj h).symm, List.take_left⟩
    · contradiction

theorem padded_concat : Padded (held ++ [r]) ↔
    Padded held ∧ lastStop held r.placement.block ≤ r.placement.offset ∧
      r.placement.offset < lastStop held r.placement.block + r.align := by
  constructor
  · intro h
    refine ⟨fun i t ht => ?_, ?_⟩
    · have hlt := (List.getElem?_eq_some_iff.mp ht).1
      have hi := h i t (by rw [List.getElem?_append_left hlt, ht])
      rwa [List.take_append_of_le_length (Nat.le_of_lt hlt)] at hi
    · have hi := h held.length r List.getElem?_concat_length
      rwa [List.take_left] at hi
  · rintro ⟨h, hr⟩ i t ht
    rcases getElem?_concat_cases ht with ⟨ht, htake⟩ | ⟨rfl, htake⟩
    · rw [htake]
      exact h i t ht
    · rw [htake]
      exact hr

/-- A new range takes its own offsets and those of its padding. -/
theorem taken_concat (hbehind : lastStop held r.placement.block ≤ r.placement.offset) :
    Taken (held ++ [r]) block offset ↔
      Taken held block offset ∨
        r.placement.block = block ∧ lastStop held block ≤ offset ∧ offset < r.stop := by
  constructor
  · intro h
    cases h with
    | @range t ht hblock hstart hstop =>
        rcases List.mem_append.mp ht with ht | ht
        · exact Or.inl (.range ht hblock hstart hstop)
        · obtain rfl := List.mem_singleton.mp ht
          subst hblock
          exact Or.inr ⟨rfl, hbehind.trans hstart, hstop⟩
    | @padding i t ht hblock hstart hstop =>
        rcases getElem?_concat_cases ht with ⟨ht, htake⟩ | ⟨rfl, htake⟩
        · rw [htake] at hstart
          exact Or.inl (.padding ht hblock hstart hstop)
        · rw [htake] at hstart
          refine Or.inr ⟨hblock, hstart, ?_⟩
          rw [Range.stop]
          omega
  · rintro (h | ⟨hblock, hstart, hstop⟩)
    · cases h with
      | range ht hblock hstart hstop =>
          exact .range (List.mem_append_left _ ht) hblock hstart hstop
      | @padding i t ht hblock hstart hstop =>
          have hlt := (List.getElem?_eq_some_iff.mp ht).1
          refine .padding (i := i) (by rw [List.getElem?_append_left hlt, ht]) hblock ?_ hstop
          rwa [List.take_append_of_le_length (Nat.le_of_lt hlt)]
    · rcases Nat.lt_or_ge offset r.placement.offset with hlt | hge
      · refine .padding (i := held.length) List.getElem?_concat_length hblock ?_ hlt
        rwa [List.take_left]
      · exact .range (List.mem_append_right _ (List.mem_singleton_self r)) hblock hge hstop

/-- Ranges and padding leave no gap before the end of the last range. -/
theorem taken_iff_lt_lastStop (h : Padded held) :
    Taken held block offset ↔ offset < lastStop held block := by
  induction held using List.reverseRecOn with
  | nil =>
      simp only [lastStop, List.foldl_nil, Nat.not_lt_zero, iff_false]
      intro h
      cases h with
      | range ht => simp at ht
      | padding ht => simp at ht
  | append_singleton held r ih =>
      obtain ⟨hheld, hbehind, -⟩ := padded_concat.mp h
      rw [taken_concat hbehind, ih hheld, lastStop_concat]
      split
      · next hblock =>
        subst hblock
        rw [Range.stop]
        omega
      · next hblock => simp [hblock]

end Ranges

/-! ## Arenas -/

/-- A block has the addresses of its extent. -/
def Block.Has (b : Block) (address : Nat) : Prop :=
  b.base ≤ address ∧ address < b.base + b.capacity

namespace Arena

variable {σ : Type} {a a' : Arena σ} {held : List Range} {size align address length : Nat}
  {p : Placement}

/-- Ranges and padding fill each block up to its cursor. -/
structure Tiled (a : Arena σ) (held : List Range) : Prop where
  cursor : ∀ i, lastStop held i = a.cursorAt i
  padded : Padded held

theorem cursorAt_advance {b : Block} (hb : a.blocks[p.block]? = some b) (size i : Nat) :
    (a.advance p b size).cursorAt i = if p.block = i then p.offset + size else a.cursorAt i := by
  have hlt := (List.getElem?_eq_some_iff.mp hb).1
  split
  · next hi =>
    subst hi
    simp only [cursorAt, advance, List.getElem?_set_self hlt, Option.map_some, Option.getD_some]
  · next hi => simp only [cursorAt, advance, List.getElem?_set_ne hi]

theorem cursorAt_addBlock (a : Arena σ) (b : Block) (isLarge : Bool) (i : Nat) :
    (a.addBlock b isLarge).cursorAt i =
      if a.blocks.length = i then b.cursor else a.cursorAt i := by
  split
  · next hi =>
    subst hi
    simp only [cursorAt, addBlock, List.getElem?_concat_length, Option.map_some, Option.getD_some]
  · next hi =>
    rcases Nat.lt_or_gt_of_ne hi with hlt | hgt
    · have hnone : (a.blocks ++ [b])[i]? = none := List.getElem?_eq_none (by simp; omega)
      simp only [cursorAt, addBlock, hnone, List.getElem?_eq_none (Nat.le_of_lt hlt)]
    · simp only [cursorAt, addBlock, List.getElem?_append_left hgt]

/-- With one more range that begins behind the last one of its block and moves the cursor of that
block to its end, ranges and padding still fill the blocks. -/
theorem Tiled.concat (h : a.Tiled held)
    (hbehind : a.cursorAt p.block ≤ p.offset) (hpadding : p.offset < a.cursorAt p.block + align)
    (hcursor : ∀ i, a'.cursorAt i = if p.block = i then p.offset + size else a.cursorAt i) :
    a'.Tiled (held ++ [⟨p, size, align⟩]) where
  cursor i := by
    rw [lastStop_concat, hcursor, h.cursor]
    rfl
  padded := by
    rw [padded_concat, h.cursor]
    exact ⟨h.padded, hbehind, hpadding⟩

theorem tiled_of_create? {config : Config} {source : σ} (h : create? config source = .ok a) :
    a.Tiled [] := by
  obtain ⟨-, rfl⟩ := create?_eq_ok_iff.mp h
  exact ⟨fun i => rfl, by simp [Padded]⟩

theorem tiled_reset (a : Arena σ) : a.reset.Tiled [] where
  cursor i := by
    simp only [lastStop, List.foldl_nil, cursorAt, Arena.reset, List.getElem?_map, Option.map_map]
    cases a.blocks[i]? <;> rfl
  padded := by simp [Padded]

/-- A range that is placed keeps the blocks filled. -/
theorem Tiled.place [Source σ] {origin : σ} (h : a.Tiled held) (ha : Alignment.IsValid align)
    (hplacing : Placing origin a size align (.ok p, a')) :
    a'.Tiled (held ++ [⟨p, size, align⟩]) := by
  cases hplacing with
  | @reused _ b _ hb =>
      have hcursor : a.cursorAt p.block = b.cursor := by simp [cursorAt, hb.block]
      have hbehind : b.cursor ≤ p.offset := hb.least.1.1
      have hpadding := hb.padding_lt ha
      refine h.concat (by rwa [hcursor]) (by omega) fun i => ?_
      exact cursorAt_advance hb.block size i
  | @grown b a' _ _ hb =>
      have hcursor : a.cursorAt a.blocks.length = 0 := by simp [cursorAt]
      have hpos := ha.pos
      refine h.concat (Nat.le_of_eq hcursor) (by dsimp only; omega) fun i => ?_
      have hadded := cursorAt_addBlock { a with source := a'.source } b
        (decide (a.IsLarge size)) i
      rw [hb.cursor] at hadded
      rw [hb.books, Nat.zero_add]
      exact hadded

/-- In a block that is there, what has been taken has been claimed. -/
theorem Tiled.taken_iff (h : a.Tiled held) {i x : Nat} {b : Block} (hb : a.blocks[i]? = some b) :
    Taken held i x ↔ x < b.cursor := by
  rw [taken_iff_lt_lastStop h.padded, h.cursor, cursorAt, hb, Option.map_some, Option.getD_some]

/-- An arena contains some addresses if all of them have been taken within one block. -/
theorem Tiled.contains_iff (h : a.Tiled held) (hlength : 0 < length) :
    a.Contains address length ↔ address + length ≤ Word.max ∧
      ∃ (i : Nat) (b : Block), a.blocks[i]? = some b ∧
        ∀ x, address ≤ x → x < address + length → b.base ≤ x ∧ Taken held i (x - b.base) := by
  have hmax : Word.max + 1 = Word.bound := by decide
  constructor
  · rintro ⟨b, hb, hword, hstart, hstop⟩
    obtain ⟨i, hi⟩ := List.mem_iff_getElem?.mp hb
    refine ⟨by omega, i, b, hi, fun x hx hx' => ⟨by omega, ?_⟩⟩
    rw [h.taken_iff hi]
    omega
  · rintro ⟨hword, i, b, hi, hall⟩
    -- The first and the last address are enough.
    obtain ⟨hstart, -⟩ := hall address (Nat.le_refl _) (by omega)
    obtain ⟨-, hlast⟩ := hall (address + length - 1) (by omega) (by omega)
    rw [h.taken_iff hi] at hlast
    exact ⟨b, List.mem_of_getElem? hi, by omega, hstart, by omega⟩

/-- A range that is held lies within the arena, with all its parts. -/
theorem Holds.contains [Source σ] {origin : σ} (honest : Source.Honest origin)
    (sound : a.Sound origin) (h : a.Holds held) {r : Range} (hr : r ∈ held) :
    ∃ start, a.address? r.placement = some start ∧ ∀ address length, start ≤ address →
      address + length ≤ start + r.size → a.Contains address length := by
  obtain ⟨-, b, hb, -, hend⟩ := h.claimed r hr
  have hmem := List.mem_of_getElem? hb
  have hcursor := sound.cursor_le b hmem
  have hbound := sound.base_add_capacity_lt honest hmem
  refine ⟨b.base + r.placement.offset, by simp [address?, hb], ?_⟩
  intro address length hstart hstop
  exact ⟨b, hmem, by omega, by omega, by omega⟩

/-- Different blocks have no address in common. -/
theorem Sound.not_has_of_ne [Source σ] {origin : σ} (honest : Source.Honest origin)
    (sound : a.Sound origin) {i j x : Nat} {b c : Block} (hij : i ≠ j)
    (hb : a.blocks[i]? = some b) (hc : a.blocks[j]? = some c) (hx : c.Has x) : ¬ b.Has x := by
  have hapart := sound.extents_apart honest hij hb hc
  simp only [Span.Apart, Span.stop, Block.extent, Source.Extent.span, Block.Has,
    Block.base] at *
  omega

/-- Nothing lies within an arena that has an address of a block and one outside of that block. -/
theorem Sound.not_contains_of_has [Source σ] {origin : σ} (honest : Source.Honest origin)
    (sound : a.Sound origin) {b : Block} (hb : b ∈ a.blocks) {x y : Nat} (hx : b.Has x)
    (hy : ¬ b.Has y) (hxs : address ≤ x ∧ x < address + length)
    (hys : address ≤ y ∧ y < address + length) : ¬ a.Contains address length := by
  rintro ⟨c, hc, -, hstart, hstop⟩
  have hcursor := sound.cursor_le c hc
  obtain ⟨i, hi⟩ := List.mem_iff_getElem?.mp hb
  obtain ⟨j, hj⟩ := List.mem_iff_getElem?.mp hc
  by_cases hij : i = j
  · subst hij
    cases hi.symm.trans hj
    exact hy ⟨by omega, by omega⟩
  · exact sound.not_has_of_ne honest hij hi hj ⟨by omega, by omega⟩ hx

/-- Blocks stay where they are, and no cursor moves back. -/
def Advances (a a' : Arena σ) : Prop :=
  ∀ (i : Nat) (b : Block), a.blocks[i]? = some b →
    ∃ c : Block, a'.blocks[i]? = some c ∧ c.base = b.base ∧ b.cursor ≤ c.cursor

/-- What lies within an arena still does when cursors have moved on. -/
theorem Advances.contains (h : a.Advances a') (hcontains : a.Contains address length) :
    a'.Contains address length := by
  obtain ⟨b, hb, hword, hstart, hstop⟩ := hcontains
  obtain ⟨i, hi⟩ := List.mem_iff_getElem?.mp hb
  obtain ⟨c, hc, hbase, hcursor⟩ := h i b hi
  exact ⟨c, List.mem_of_getElem? hc, hword, by omega, by omega⟩

end Arena

/-! ## Sessions -/

namespace Session

variable {σ : Type} [Source σ] {origin : σ} {s : Session σ}

/-- One step keeps the blocks filled. -/
theorem step_tiled (honest : Source.Honest origin) (sound : s.arena.Sound origin)
    (h : s.arena.Tiled (s.slots.map Slot.range)) (r : Request) :
    (s.step r).2.arena.Tiled ((s.step r).2.slots.map Slot.range) := by
  have hend := s.ending honest sound r
  generalize s.step r = next at hend
  cases hend with
  | reset => exact s.arena.tiled_reset
  | unplaced _ _ hranges =>
      dsimp only
      rw [hranges]
      exact ⟨h.cursor, h.padded⟩
  | placed m _ _ ha hplacing =>
      have h' := h.place ha hplacing
      rw [List.map_append]
      exact ⟨h'.cursor, h'.padded⟩

/-- Every history keeps the blocks filled. -/
theorem run_tiled (honest : Source.Honest origin) (sound : s.arena.Sound origin)
    (h : s.arena.Tiled (s.slots.map Slot.range)) (requests : List Request) :
    (s.run requests).arena.Tiled ((s.run requests).slots.map Slot.range) :=
  (run_induction (P := fun s => s.arena.Sound origin ∧ s.arena.Tiled (s.slots.map Slot.range))
    (fun _ r h => ⟨sound_step honest h.1 r, step_tiled honest h.1 h.2 r⟩) ⟨sound, h⟩ requests).2

/-- A step other than a reset moves no cursor back. -/
theorem step_advances (honest : Source.Honest origin) (sound : s.arena.Sound origin) {r : Request}
    (hr : r ≠ .reset) : s.arena.Advances (s.step r).2.arena := by
  have hend := s.ending honest sound r
  generalize s.step r = next at hend
  cases hend with
  | reset => exact absurd rfl hr
  | unplaced _ _ _ => exact fun _ b hb => ⟨b, hb, rfl, Nat.le_refl _⟩
  | placed m _ hsize ha hplacing =>
      exact (Arena.keeps_of_placing honest sound hsize ha hplacing).kept

/-- What lies within an arena stays there until the next reset. -/
theorem contains_run (honest : Source.Honest origin) (sound : s.arena.Sound origin)
    {address length : Nat} (h : s.arena.Contains address length) {later : List Request}
    (hlater : ∀ r ∈ later, r ≠ .reset) : (s.run later).arena.Contains address length := by
  induction later generalizing s with
  | nil => exact h
  | cons r rest ih =>
      have hr := hlater r List.mem_cons_self
      exact ih (sound_step honest sound r) ((step_advances honest sound hr).contains h)
        fun q hq => hlater q (List.mem_cons_of_mem r hq)

/-- After any history of requests on a new arena over an honest source, some addresses lie within
the arena if and only if they end at a word and, within one single block, each of them has been
taken by a range handed out since the last reset: it belongs to the range, or to the padding
directly before it, which is less than its alignment. So all parts of a range lie within the arena,
and what does goes on to until the next reset. Nothing does that has an address that was not taken,
an address of a block and one outside of it, addresses of two blocks, or an end that is no word; and
nothing at all does after a reset. -/
theorem contains_iff_taken {config : Config} {source : σ} {a : Arena σ}
    (honest : Source.Honest source) (created : Arena.create? config source = .ok a)
    (requests : List Request) :
    let s := run { arena := a } requests
    let held := handedOut { arena := a } [] requests
    (∀ address length, 0 < length → (s.arena.Contains address length ↔
      address + length ≤ Word.max ∧ ∃ (i : Nat) (b : Block), s.arena.blocks[i]? = some b ∧
        ∀ x, address ≤ x → x < address + length → b.base ≤ x ∧ Taken held i (x - b.base))) ∧
    Padded held ∧
    (∀ r ∈ held, ∃ start, s.arena.address? r.placement = some start ∧
      ∀ address length, start ≤ address → address + length ≤ start + r.size →
        s.arena.Contains address length) ∧
    (∀ address length, s.arena.Contains address length → ∀ later : List Request,
      (∀ r ∈ later, r ≠ .reset) → (s.run later).arena.Contains address length) ∧
    (∀ address length x, address ≤ x ∧ x < address + length →
      (∀ (i : Nat) (b : Block), s.arena.blocks[i]? = some b → b.base ≤ x →
        ¬ Taken held i (x - b.base)) → ¬ s.arena.Contains address length) ∧
    (∀ address length x y, address ≤ x ∧ x < address + length →
      address ≤ y ∧ y < address + length → ∀ b ∈ s.arena.blocks, b.Has x → ¬ b.Has y →
        ¬ s.arena.Contains address length) ∧
    (∀ address length x y, address ≤ x ∧ x < address + length →
      address ≤ y ∧ y < address + length → ∀ (i j : Nat) (b c : Block), i ≠ j →
        s.arena.blocks[i]? = some b → s.arena.blocks[j]? = some c → b.Has x → c.Has y →
          ¬ s.arena.Contains address length) ∧
    (∀ address length, Word.bound ≤ address + length → ¬ s.arena.Contains address length) ∧
    ∀ address length, 0 < length → ¬ (s.step .reset).2.arena.Contains address length := by
  intro s held
  have soundStart := Arena.sound_of_create? created
  have start : a.Tiled [] := Arena.tiled_of_create? created
  have hslots : s.slots.map Slot.range = held := range_slots_run { arena := a } requests
  have tiled : s.arena.Tiled held :=
    hslots ▸ run_tiled (s := { arena := a }) honest soundStart start requests
  obtain ⟨sound, holds⟩ := run_holds (s := { arena := a }) honest soundStart
    ⟨by simp, List.Pairwise.nil⟩ requests
  rw [range_slots_run] at holds
  refine ⟨fun address length hlength => tiled.contains_iff hlength, tiled.padded,
    fun r hr => holds.contains honest sound hr,
    fun address length h later hlater => contains_run honest sound h hlater, ?_,
    fun address length x y hx hy b hb hbx hby =>
      sound.not_contains_of_has honest hb hbx hby hx hy, ?_, ?_, ?_⟩
  · intro address length x hx htaken h
    obtain ⟨-, i, b, hb, hall⟩ := (tiled.contains_iff (by omega)).mp h
    obtain ⟨hbase, hxtaken⟩ := hall x hx.1 hx.2
    exact htaken i b hb hbase hxtaken
  · intro address length x y hx hy i j b c hij hb hc hbx hcy
    have hby := sound.not_has_of_ne honest hij hb hc hcy
    exact sound.not_contains_of_has honest (List.mem_of_getElem? hb) hbx hby hx hy
  · rintro address length hword ⟨b, -, hbound, -⟩
    omega
  · rintro address length hlength ⟨b, hb, -, hstart, hstop⟩
    obtain ⟨c, -, rfl⟩ := List.mem_map.mp hb
    simp only [Block.rewind, Block.base] at hstart hstop
    omega

/-- Two ranges with thirteen bytes of padding between them, of which all lie within the arena up to
the next reset, and with the end of their block none. -/
theorem contains_iff_taken_padded :
    let source : AddressSpace := { skew := 16 }
    let config : Config := { initialBlockSize := 64 }
    let a : Arena AddressSpace := { config, source, nextBlockSize := 64 }
    let requests : List Request := [.allocate 24, .reset, .allocateAligned 3 4, .zeroed 16 32,
      .array Element.uint64 12, .copySlice ⟨[1, 2, 3]⟩]
    let later : List Request := [.alloc Element.uint32 7, .allocateAligned 9 8192, .allocate 500]
    let s := run { arena := a } requests
    Source.Honest source ∧ Arena.create? config source = .ok a ∧
      handedOut { arena := a } [] requests =
        [⟨⟨0, 0⟩, 3, 4⟩, ⟨⟨0, 16⟩, 16, 32⟩, ⟨⟨1, 0⟩, 96, 8⟩, ⟨⟨0, 32⟩, 3, 1⟩] ∧
      (run { arena := a } requests).arena.blocks =
        [⟨⟨4112, ⟨64, 16⟩⟩, 64, 35⟩, ⟨⟨8208, ⟨96, 16⟩⟩, 96, 96⟩] ∧
      s.arena.Contains 4112 32 ∧ (s.run later).arena.Contains 4112 32 ∧
      ¬ s.arena.Contains 4112 65 ∧ ¬ s.arena.Contains 4112 4112 ∧
      ¬ s.arena.Contains (1 <<< 64 - 1) 1 ∧ ¬ (s.step .reset).2.arena.Contains 4112 32 := by
  intro source config a requests later s
  have honest := AddressSpace.honest source
  have created : Arena.create? config source = .ok a := rfl
  have hheld : handedOut { arena := a } [] requests =
      [⟨⟨0, 0⟩, 3, 4⟩, ⟨⟨0, 16⟩, 16, 32⟩, ⟨⟨1, 0⟩, 96, 8⟩, ⟨⟨0, 32⟩, 3, 1⟩] := by decide
  have hblocks : (run { arena := a } requests).arena.blocks =
      [⟨⟨4112, ⟨64, 16⟩⟩, 64, 35⟩, ⟨⟨8208, ⟨96, 16⟩⟩, 96, 96⟩] := by decide
  obtain ⟨hiff, -, -, hlater, -, hleaves, hbridges, hwraps, hreset⟩ :=
    contains_iff_taken honest created requests
  have hfirst : (run { arena := a } requests).arena.blocks[0]? =
      some ⟨⟨4112, ⟨64, 16⟩⟩, 64, 35⟩ := by rw [hblocks]; rfl
  have hsecond : (run { arena := a } requests).arena.blocks[1]? =
      some ⟨⟨8208, ⟨96, 16⟩⟩, 96, 96⟩ := by rw [hblocks]; rfl
  have hcontains : s.arena.Contains 4112 32 := by
    refine (hiff 4112 32 (by decide)).mpr ⟨by decide, 0, _, hfirst, fun x hx hx' => ⟨hx, ?_⟩⟩
    rw [hheld]
    -- The first range, the padding behind it, and the second range.
    have hbase : (⟨⟨4112, ⟨64, 16⟩⟩, 64, 35⟩ : Block).base = 4112 := rfl
    rw [hbase]
    by_cases hrange : x < 4115
    · exact .range (r := ⟨⟨0, 0⟩, 3, 4⟩) (by simp) rfl (Nat.zero_le _)
        (by simp only [Range.stop]; omega)
    by_cases hpadding : x < 4128
    · have hstop : lastStop [⟨⟨0, 0⟩, 3, 4⟩] 0 = 3 := by decide
      exact .padding (i := 1) (r := ⟨⟨0, 16⟩, 16, 32⟩) rfl rfl (hstop.trans_le (by omega))
        (by dsimp only; omega)
    · exact .range (r := ⟨⟨0, 16⟩, 16, 32⟩) (by simp) rfl (by dsimp only; omega)
        (by simp only [Range.stop]; omega)
  refine ⟨honest, created, hheld, hblocks, hcontains, hlater _ _ hcontains later (by simp [later]),
    ?_, ?_, hwraps _ _ (by decide), hreset _ _ (by decide)⟩
  · exact hleaves 4112 65 4112 4176 (by omega) (by omega) _ (List.mem_of_getElem? hfirst)
      ⟨by decide, by decide⟩ (by unfold Block.Has; decide)
  · exact hbridges 4112 4112 4112 8208 (by omega) (by omega) 0 1 _ _ (by decide) hfirst hsecond
      ⟨by decide, by decide⟩ ⟨by decide, by decide⟩

end Session

end Lifespan
