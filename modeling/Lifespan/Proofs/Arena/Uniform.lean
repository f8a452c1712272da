import Lifespan.Proofs.Arena.Accounting
import Lifespan.Proofs.Arena.Plans
import Lifespan.Proofs.Arena.Rule
import Lifespan.Proofs.Arena.Safety
import Lifespan.Proofs.Arena.Settling

/-!
# Requests of one size and alignment

How many ranges of one size and alignment an arena can still place without a new block is a number
that can be read off its blocks, each on its own: the ranges follow one another from the first
aligned address behind the cursor on, and the distance between two of them is their size, rounded up
to the alignment. It does not matter in which blocks they are placed. A request that is served at
the least offset of some block takes one from the number of that block and leaves the others alone,
and a request finds no room only when the number is zero.

A reset brings back at least what was there before: ranges of this kind that have been handed out
fit into the blocks again, together with all that would still have fitted.
-/

namespace Lifespan

/-! ## Rounding up -/

namespace Alignment

variable {value other align : Nat}

/-- The least multiple of an alignment from a value on. -/
def ceil (value align : Nat) : Nat := clearBelow (value + (align - 1)) align

theorem isLeast_ceil (ha : IsValid align) (value : Nat) :
    IsLeast {m | value ≤ m ∧ align ∣ m} (ceil value align) :=
  isLeast_clearBelow ha value

theorem le_ceil (ha : IsValid align) : value ≤ ceil value align := (isLeast_ceil ha value).1.1

theorem dvd_ceil (ha : IsValid align) : align ∣ ceil value align := (isLeast_ceil ha value).1.2

theorem ceil_le (ha : IsValid align) (hle : value ≤ other) (hdvd : align ∣ other) :
    ceil value align ≤ other :=
  (isLeast_ceil ha value).2 ⟨hle, hdvd⟩

theorem ceil_mono (ha : IsValid align) (h : value ≤ other) : ceil value align ≤ ceil other align :=
  ceil_le ha (h.trans (le_ceil ha)) (dvd_ceil ha)

/-- Multiples of the alignment can be moved out. -/
theorem ceil_add_of_dvd (ha : IsValid align) (hdvd : align ∣ other) :
    ceil (other + value) align = other + ceil value align := by
  refine Nat.le_antisymm (ceil_le ha ?_ (Nat.dvd_add hdvd (dvd_ceil ha))) ?_
  · exact Nat.add_le_add_left (le_ceil ha) other
  · have hle : other + value ≤ ceil (other + value) align := le_ceil ha
    have hrest : ceil value align ≤ ceil (other + value) align - other :=
      ceil_le ha (by omega) (Nat.dvd_sub (dvd_ceil ha) hdvd)
    omega

end Alignment

open Lifespan.Alignment

/-! ## Blocks -/

namespace Block

variable {b : Block} {size align offset k n : Nat}

/-- The first aligned offset that is not before the cursor. -/
def firstOffset (b : Block) (align : Nat) : Nat := ceil (b.base + b.cursor) align - b.base

/-- The number of ranges that fit into a block behind one another, from the first aligned offset on:
none if the first does not fit, and otherwise this one and those for which there is room behind it.
-/
def fitCount (b : Block) (size align : Nat) : Nat :=
  if b.capacity < b.firstOffset align + size then 0
  else 1 + (b.capacity - size - b.firstOffset align) / ceil size align

/-- Ranges of `size` bytes that fit into a block behind one another, at aligned addresses. -/
structure Row (b : Block) (size align : Nat) (offsets : List Nat) : Prop where
  fits : ∀ o ∈ offsets, b.Fits size align o
  inOrder : offsets.Pairwise fun o o' => o + size ≤ o'

theorem base_add_firstOffset (ha : IsValid align) (b : Block) :
    b.base + b.firstOffset align = ceil (b.base + b.cursor) align := by
  have hle : b.base + b.cursor ≤ ceil (b.base + b.cursor) align := le_ceil ha
  rw [firstOffset]
  omega

/-- The first aligned offset is the one that a range is placed at, if it fits there. -/
theorem isLeast_fits_firstOffset (ha : IsValid align) :
    IsLeast {o | b.Fits size align o} offset ↔
      offset = b.firstOffset align ∧ offset + size ≤ b.capacity := by
  rw [isLeast_fits_iff]
  have haddr := base_add_firstOffset ha b
  have hleast := isLeast_ceil ha (b.base + b.cursor)
  refine and_congr_left fun _ => ⟨fun h => ?_, ?_⟩
  · have := h.unique hleast
    omega
  · rintro rfl
    rwa [haddr]

/-- The ranges lie at a fixed distance from one another. -/
theorem lt_fitCount_iff (hsize : 0 < size) (ha : IsValid align) :
    k < b.fitCount size align ↔
      b.firstOffset align + k * ceil size align + size ≤ b.capacity := by
  have hstride : 0 < ceil size align := hsize.trans_le (le_ceil ha)
  rw [fitCount]
  split
  · next hno =>
    omega
  · next hfirst =>
    rw [Nat.add_comm 1, Nat.lt_succ_iff, Nat.le_div_iff_mul_le hstride]
    omega

theorem exists_fits_iff (hsize : 0 < size) (ha : IsValid align) :
    (∃ o, b.Fits size align o) ↔ 0 < b.fitCount size align := by
  rw [lt_fitCount_iff hsize ha, Nat.zero_mul, Nat.add_zero]
  constructor
  · rintro ⟨o, hcursor, hdvd, hend⟩
    have haddr := base_add_firstOffset ha b
    have hle : ceil (b.base + b.cursor) align ≤ b.base + o := ceil_le ha (by omega) hdvd
    omega
  · intro hend
    exact ⟨_, ((isLeast_fits_firstOffset ha).mpr ⟨rfl, hend⟩).1⟩

/-- A range at the least offset takes one from the number. -/
theorem fitCount_claim (hsize : 0 < size) (ha : IsValid align)
    (h : IsLeast {o | b.Fits size align o} offset) :
    fitCount { b with cursor := offset + size } size align + 1 = b.fitCount size align := by
  obtain ⟨rfl, hend⟩ := (isLeast_fits_firstOffset ha).mp h
  have hdvd : align ∣ b.base + b.firstOffset align := h.1.2.1
  -- The next range begins where this one does, but for one distance.
  have hnext : firstOffset { b with cursor := b.firstOffset align + size } align =
      b.firstOffset align + ceil size align := by
    have hmove : ceil (b.base + (b.firstOffset align + size)) align =
        b.base + b.firstOffset align + ceil size align := by
      rw [← Nat.add_assoc, ceil_add_of_dvd ha hdvd]
    rw [firstOffset]
    change ceil (b.base + (b.firstOffset align + size)) align - b.base = _
    omega
  have hshift : ∀ k, k < fitCount { b with cursor := b.firstOffset align + size } size align ↔
      k + 1 < b.fitCount size align := by
    intro k
    rw [lt_fitCount_iff hsize ha, lt_fitCount_iff hsize ha, hnext, Nat.succ_mul]
    dsimp only
    omega
  have hpos : 0 < b.fitCount size align := (exists_fits_iff hsize ha).mp ⟨_, h.1⟩
  have hless := hshift (b.fitCount size align - 1)
  have hmore := hshift (fitCount { b with cursor := b.firstOffset align + size } size align)
  omega

/-- The further the cursor, the fewer ranges fit. -/
theorem fitCount_le_of_cursor_le (hsize : 0 < size) (ha : IsValid align) {c : Block}
    (hbase : c.base = b.base) (hcapacity : c.capacity = b.capacity)
    (hcursor : b.cursor ≤ c.cursor) : c.fitCount size align ≤ b.fitCount size align := by
  by_contra hlt
  have hc := (lt_fitCount_iff hsize ha).mp (Nat.lt_of_not_le hlt)
  have hoffset : b.firstOffset align ≤ c.firstOffset align := by
    have hmono : ceil (b.base + b.cursor) align ≤ ceil (c.base + c.cursor) align :=
      ceil_mono ha (by omega)
    rw [firstOffset, firstOffset]
    omega
  have hb : b.fitCount size align < b.fitCount size align :=
    (lt_fitCount_iff hsize ha).mpr (by omega)
  exact Nat.lt_irrefl _ hb

/-- No row comes earlier than the one that begins at the first aligned offset and goes on at the
fixed distance. -/
theorem Row.le_getElem (ha : IsValid align) {offsets : List Nat} (h : b.Row size align offsets)
    (hk : k < offsets.length) : b.firstOffset align + k * ceil size align ≤ offsets[k] := by
  have haddr := base_add_firstOffset ha b
  induction k with
  | zero =>
      obtain ⟨hcursor, hdvd, -⟩ := h.fits _ (List.getElem_mem hk)
      have hle : ceil (b.base + b.cursor) align ≤ b.base + offsets[0] := ceil_le ha (by omega) hdvd
      omega
  | succ k ih =>
      have hprev : k < offsets.length := by omega
      have hle := ih hprev
      obtain ⟨-, hdvd, -⟩ := h.fits _ (List.getElem_mem hprev)
      obtain ⟨-, hdvd', -⟩ := h.fits _ (List.getElem_mem hk)
      have hstop : offsets[k] + size ≤ offsets[k + 1] :=
        List.pairwise_iff_getElem.mp h.inOrder k (k + 1) hprev hk (by omega)
      -- The distance between two aligned addresses is a multiple of the alignment.
      have hdistance : ceil (b.base + offsets[k] + size) align ≤ b.base + offsets[k + 1] :=
        ceil_le ha (by omega) hdvd'
      rw [ceil_add_of_dvd ha hdvd] at hdistance
      rw [Nat.succ_mul]
      omega

/-- The number of ranges that fit is the length of the longest row. -/
theorem exists_row_iff (hsize : 0 < size) (ha : IsValid align) :
    (∃ offsets, b.Row size align offsets ∧ offsets.length = n) ↔ n ≤ b.fitCount size align := by
  constructor
  · rintro ⟨offsets, h, rfl⟩
    rcases Nat.eq_zero_or_pos offsets.length with hzero | hpos
    · omega
    · have hlast : offsets.length - 1 < offsets.length := by omega
      have hle := h.le_getElem ha hlast
      obtain ⟨-, -, hend⟩ := h.fits _ (List.getElem_mem hlast)
      have hcount : offsets.length - 1 < b.fitCount size align :=
        (lt_fitCount_iff hsize ha).mpr (by omega)
      omega
  · intro hn
    refine ⟨(List.range n).map fun k => b.firstOffset align + k * ceil size align, ⟨?_, ?_⟩,
      by simp⟩
    · intro o ho
      obtain ⟨k, hk, rfl⟩ := List.mem_map.mp ho
      have hlt : k < b.fitCount size align := (List.mem_range.mp hk).trans_le hn
      have haddr := base_add_firstOffset ha b
      have hle : b.base + b.cursor ≤ ceil (b.base + b.cursor) align := le_ceil ha
      refine ⟨by omega, ?_, (lt_fitCount_iff hsize ha).mp hlt⟩
      rw [← Nat.add_assoc, haddr]
      exact Nat.dvd_add (dvd_ceil ha) ((dvd_ceil ha).mul_left k)
    · rw [List.pairwise_map]
      refine List.pairwise_lt_range.imp ?_
      intro k l hkl
      have hstride : size ≤ ceil size align := le_ceil ha
      have hmul : (k + 1) * ceil size align ≤ l * ceil size align :=
        Nat.mul_le_mul_right _ hkl
      rw [Nat.succ_mul] at hmul
      omega

/-- A block that was opened for a range has room for one less than it had before. -/
theorem fitCount_opened {size' align' : Nat} (hsize : 0 < size) (ha : IsValid align)
    (hdvd : align' ∣ b.base) (hcursor : b.cursor = size') (hend : size' ≤ b.capacity) :
    b.fitCount size align + (if size' = size ∧ align' = align then 1 else 0) ≤
      b.rewind.fitCount size align := by
  split
  · next hlike =>
    obtain ⟨rfl, rfl⟩ := hlike
    have hleast : IsLeast {o | b.rewind.Fits size' align' o} 0 :=
      ⟨⟨Nat.le_refl _, hdvd, by simpa [rewind] using hend⟩, fun _ _ => Nat.zero_le _⟩
    have hclaim := fitCount_claim hsize ha hleast
    have hb : { b.rewind with cursor := 0 + size' } = b := by
      rw [Nat.zero_add, ← hcursor]
      rfl
    rw [hb] at hclaim
    exact Nat.le_of_eq hclaim
  · exact fitCount_le_of_cursor_le hsize ha rfl rfl (Nat.zero_le _)

end Block

/-! ## Arenas -/

namespace Arena

variable {σ : Type} {a a' : Arena σ} {size align : Nat} {p : Placement}

/-- The number of ranges that fit into the blocks. -/
def fitCount (a : Arena σ) (size align : Nat) : Nat :=
  sum (a.blocks.map fun b => b.fitCount size align)

theorem fitCount_pos_iff (hsize : 0 < size) (ha : IsValid align) :
    0 < a.fitCount size align ↔ ∃ b ∈ a.blocks, ∃ o, b.Fits size align o := by
  constructor
  · intro hpos
    by_contra hno
    have hzero : a.fitCount size align = 0 := by
      refine sum_eq_zero fun n hn => ?_
      obtain ⟨b, hb, rfl⟩ := List.mem_map.mp hn
      by_contra hne
      exact hno ⟨b, hb, (Block.exists_fits_iff hsize ha).mpr (Nat.pos_of_ne_zero hne)⟩
    omega
  · rintro ⟨b, hb, hfits⟩
    have hpos := (Block.exists_fits_iff hsize ha).mp hfits
    exact hpos.trans_le (le_sum_of_mem (List.mem_map_of_mem hb))

/-- A range in the chosen block takes one from the number. -/
theorem Chosen.fitCount_advance {b : Block} (hsize : 0 < size) (ha : IsValid align)
    (h : a.Chosen size align p b) :
    (a.advance p b size).fitCount size align + 1 = a.fitCount size align := by
  have hset := sum_map_set (fun c => c.fitCount size align) h.block
    { b with cursor := p.offset + size }
  have hclaim := Block.fitCount_claim hsize ha h.least
  simp only [fitCount, advance] at hset ⊢
  omega

/-- A range of another kind may take more, but adds none. -/
theorem Chosen.fitCount_advance_le {size' align' : Nat} {b : Block} (hsize : 0 < size)
    (ha : IsValid align) (h : a.Chosen size' align' p b) :
    (a.advance p b size').fitCount size align ≤ a.fitCount size align := by
  have hset := sum_map_set (fun c => c.fitCount size align) h.block
    { b with cursor := p.offset + size' }
  have hcursor : b.cursor ≤ p.offset := h.least.1.1
  have hle : Block.fitCount { b with cursor := p.offset + size' } size align ≤
      b.fitCount size align :=
    Block.fitCount_le_of_cursor_le hsize ha rfl rfl (by dsimp only; omega)
  simp only [fitCount, advance] at hset ⊢
  omega

theorem fitCount_addBlock (a : Arena σ) (b : Block) (isLarge : Bool) (size align : Nat) :
    (a.addBlock b isLarge).fitCount size align =
      a.fitCount size align + b.fitCount size align := by
  simp [fitCount, addBlock, sum_append]

/-- The number of ranges of one size and alignment among those that are held. -/
def likeCount (held : List Range) (size align : Nat) : Nat :=
  held.countP fun r => decide (r.size = size ∧ r.align = align)

theorem likeCount_concat (held : List Range) (p : Placement) (size' align' : Nat) :
    likeCount (held ++ [⟨p, size', align'⟩]) size align =
      likeCount held size align + if size' = size ∧ align' = align then 1 else 0 := by
  rw [likeCount, List.countP_append, List.countP_singleton]
  simp only [decide_eq_true_eq]
  rfl

/-- The ranges of one size and alignment that are held would fit again if all ranges were given up,
with those that still fit. -/
def Refits (a : Arena σ) (held : List Range) (size align : Nat) : Prop :=
  likeCount held size align + a.fitCount size align ≤ a.reset.fitCount size align

section Refits

variable [Source σ] {origin : σ} {held : List Range}

/-- A range that is placed fits again. -/
theorem Refits.place (honest : Source.Honest origin) (sound : a.Sound origin) (hsize : 0 < size)
    (ha : IsValid align) {size' align' : Nat} (hsize' : 0 < size') (ha' : IsValid align')
    (h : a.Refits held size align) (hplacing : Placing origin a size' align' (.ok p, a')) :
    a'.Refits (held ++ [⟨p, size', align'⟩]) size align := by
  have hkeeps := keeps_of_placing honest sound hsize' ha' hplacing
  rw [Refits, likeCount_concat]
  rw [Refits] at h
  cases hplacing with
  | @reused _ b _ hb =>
      have hblocks : (a.advance p b size').reset.blocks = a.reset.blocks :=
        map_set_of_eq hb.block rfl
      have hreset : (a.advance p b size').reset.fitCount size align =
          a.reset.fitCount size align := by
        rw [fitCount, fitCount, hblocks]
      have hroom : (a.advance p b size').fitCount size align +
          (if size' = size ∧ align' = align then 1 else 0) ≤ a.fitCount size align := by
        split
        · next hlike =>
          obtain ⟨rfl, rfl⟩ := hlike
          exact Nat.le_of_eq (hb.fitCount_advance hsize ha)
        · exact hb.fitCount_advance_le hsize ha
      change _ + (a.advance p b size').fitCount size align ≤
        (a.advance p b size').reset.fitCount size align
      omega
  | @grown b a' hmax _ hb =>
      have hopened : b.fitCount size align + (if size' = size ∧ align' = align then 1 else 0) ≤
          b.rewind.fitCount size align := by
        obtain ⟨c, hc, hdvd, -⟩ := hkeeps.claimed
        have hcb : c = b := by
          rw [hb.books] at hc
          simpa [charge, addBlock, eq_comm] using hc
        subst hcb
        have hfit := ((newBlockSize?_eq_some_iff ha' hmax).mp hb.blockSize).1.size_le
        have hcapacity := hb.capacity
        exact Block.fitCount_opened hsize ha hdvd hb.cursor (by omega)
      have hadded := fitCount_addBlock { a with source := a'.source } b
        (decide (a.IsLarge size')) size align
      have hreset : ({ a with source := a'.source }.addBlock b
          (decide (a.IsLarge size'))).reset.fitCount size align =
          a.reset.fitCount size align + b.rewind.fitCount size align := by
        simp [fitCount, addBlock, Arena.reset, sum_append]
      have hsame : Arena.fitCount { a with source := a'.source } size align =
          a.fitCount size align := rfl
      rw [← hb.books] at hadded hreset
      change _ + a'.fitCount size align ≤ a'.reset.fitCount size align
      omega

end Refits

end Arena

/-! ## Sessions -/

namespace Session

variable {σ : Type} [Source σ] {origin : σ} {s : Session σ} {r : Request} {size align : Nat}

/-- A request is served from the blocks that are there, and its source plays no part in it. -/
structure ServedAtHand (s : Session σ) (r : Request) : Prop where
  placed : ∃ i p, (s.step r).1 = .ok (.placed i p) ∧ p.block < s.arena.blocks.length
  grants : (s.step r).2.arena.grants = s.arena.grants
  source : (s.step r).2.arena.source = s.arena.source
  anySource : ∀ other : Source σ, @step σ other s r = s.step r

/-- A request is not served from the blocks that are there: it is refused, or a block is made for
it. -/
inductive NeedsBlock (s : Session σ) (r : Request) : Prop where
  | refused (e : Arena.Error) : (s.step r).1 = .error (.error e) →
    (s.step r).2.arena.grants = s.arena.grants → NeedsBlock s r
  | opened (i : Nat) (p : Placement) (g : Source.Grant) : (s.step r).1 = .ok (.placed i p) →
    p.block = s.arena.blocks.length → (s.step r).2.arena.grants = s.arena.grants ++ [g] →
    NeedsBlock s r

omit [Source σ] in
/-- What becomes of a request for a range that is placed, over any source. -/
theorem step_of_place (other : Source σ) {written : Nat} {p : Placement} {a : Arena σ}
    (hplan : r.plan? = some (.place size align written))
    (hplace : @Arena.place σ other s.arena size align = (.ok p, a)) :
    @step σ other s r = s.record (r.fill p a) size align written (.ok (some p)) := by
  rw [@step_eq_follow σ other s r _ hplan]
  simp only [follow, hplace]

section Steps

variable (honest : Source.Honest origin) (sound : s.arena.Sound origin)
  (hasks : r.Asks size align) (hmax : align ≤ Arena.maxAlign)
include honest sound hasks hmax

/-- As long as a range fits, a request is served at hand, and one range less fits after it. -/
theorem step_of_fitCount_pos (hpos : 0 < s.arena.fitCount size align) :
    s.ServedAtHand r ∧
      (s.step r).2.arena.fitCount size align + 1 = s.arena.fitCount size align := by
  obtain ⟨written, hplan⟩ := Request.asks_iff.mp hasks
  rcases Arena.reuse_cases honest sound size hasks.valid (hmax.trans (by decide)) with
    ⟨-, hno⟩ | ⟨p, b, hb, hreuse⟩
  · obtain ⟨b, hb, o, ho⟩ := (Arena.fitCount_pos_iff hasks.pos hasks.valid).mp hpos
    exact absurd ho (hno b hb o)
  · have hstep : ∀ other : Source σ, @step σ other s r =
        s.record (r.fill p ((s.arena.advance p b size).charge size)) size align written
          (.ok (some p)) := fun other =>
      step_of_place other hplan (Arena.place_of_reuse_eq_some hmax hreuse)
    obtain ⟨hlt, -⟩ := List.getElem?_eq_some_iff.mp hb.block
    obtain ⟨m, hm⟩ := r.fill_eq p ((s.arena.advance p b size).charge size)
    refine ⟨⟨⟨s.slots.length, p, ?_, hlt⟩, ?_, ?_, fun other => ?_⟩, ?_⟩
    · rw [hstep]
      rfl
    · rw [hstep, hm]
      exact map_set_of_eq hb.block rfl
    · rw [hstep, hm]
      rfl
    · exact (hstep other).trans (hstep _).symm
    · rw [hstep, hm]
      exact hb.fitCount_advance hasks.pos hasks.valid

/-- When no range fits, a request is not served at hand. -/
theorem step_of_fitCount_eq_zero (hzero : s.arena.fitCount size align = 0) : s.NeedsBlock r := by
  obtain ⟨written, hplan⟩ := Request.asks_iff.mp hasks
  have hno : ∀ b ∈ s.arena.blocks, ∀ o, ¬ b.Fits size align o := by
    intro b hb o ho
    have hpos := (Arena.fitCount_pos_iff hasks.pos hasks.valid).mpr ⟨b, hb, o, ho⟩
    omega
  have hplacing := Arena.placing honest sound hasks.pos hasks.valid
  have hend := following (s := s) hplan
  generalize hnext : s.step r = next at hend
  cases hend with
  | @placed _ _ _ result a m hplace =>
      rw [hplace] at hplacing
      cases hplacing with
      | misaligned hreach => omega
      | @reused p b _ hb =>
          exact absurd hb.least.1 (hno b (List.mem_of_getElem? hb.block) p.offset)
      | @refused e _ _ _ _ =>
          exact .refused e (by rw [hnext]; rfl) (by rw [hnext]; rfl)
      | @grown b a' hreach _ hb =>
          refine .opened s.slots.length _ b.grant (by rw [hnext]; rfl) rfl ?_
          rw [hnext]
          change Arena.grants a' = _
          rw [hb.books]
          simp [Arena.grants, Arena.addBlock]

end Steps

/-- As long as ranges fit, each request takes one from their number. -/
theorem run_fitCount (honest : Source.Honest origin) (sound : s.arena.Sound origin)
    (hmax : align ≤ Arena.maxAlign) {more : List Request}
    (hasks : ∀ q ∈ more, q.Asks size align) (hroom : more.length ≤ s.arena.fitCount size align) :
    (s.run more).arena.fitCount size align + more.length = s.arena.fitCount size align := by
  induction more generalizing s with
  | nil => rfl
  | cons q rest ih =>
      rw [List.length_cons] at hroom ⊢
      obtain ⟨-, hless⟩ := step_of_fitCount_pos honest sound (hasks q List.mem_cons_self) hmax
        (by omega)
      have hrest := ih (sound_step honest sound q) (fun t ht => hasks t (List.mem_cons_of_mem q ht))
        (by omega)
      change ((s.step q).2.run rest).arena.fitCount size align + _ = _
      omega

/-- Exactly as many requests are served at hand as ranges fit. -/
theorem served_or_needs (honest : Source.Honest origin) (sound : s.arena.Sound origin)
    (hmax : align ≤ Arena.maxAlign) {more : List Request}
    (hmore : ∀ q ∈ more, q.Asks size align) (hr : r.Asks size align) :
    (more.length < s.arena.fitCount size align → (s.run more).ServedAtHand r) ∧
      (more.length = s.arena.fitCount size align → (s.run more).NeedsBlock r) := by
  have sound' := sound_run honest sound more
  constructor
  · intro hlt
    have hroom := run_fitCount honest sound hmax hmore (Nat.le_of_lt hlt)
    exact (step_of_fitCount_pos honest sound' hr hmax (by omega)).1
  · intro heq
    have hroom := run_fitCount honest sound hmax hmore (Nat.le_of_eq heq)
    exact step_of_fitCount_eq_zero honest sound' hr hmax (by omega)

/-- One step keeps what has been handed out such that it fits again. -/
theorem step_refits (honest : Source.Honest origin) (sound : s.arena.Sound origin)
    (hsize : 0 < size) (ha : IsValid align)
    (h : s.arena.Refits (s.slots.map Slot.range) size align) (r : Request) :
    (s.step r).2.arena.Refits ((s.step r).2.slots.map Slot.range) size align := by
  have hend := s.ending honest sound r
  generalize s.step r = next at hend
  cases hend with
  | reset =>
      have hblocks : s.arena.reset.reset.blocks = s.arena.reset.blocks := by
        simp only [Arena.reset, List.map_map]
        rfl
      simp [Arena.Refits, Arena.fitCount, Arena.likeCount, hblocks]
  | unplaced _ _ hranges =>
      dsimp only
      rw [hranges]
      exact h
  | placed m _ hsize' ha' hplacing =>
      have h' := h.place honest sound hsize ha hsize' ha' hplacing
      rw [List.map_append]
      exact h'

/-- Every history keeps what has been handed out such that it fits again. -/
theorem run_refits (honest : Source.Honest origin) (sound : s.arena.Sound origin)
    (hsize : 0 < size) (ha : IsValid align)
    (h : s.arena.Refits (s.slots.map Slot.range) size align) (requests : List Request) :
    (s.run requests).arena.Refits ((s.run requests).slots.map Slot.range) size align :=
  (run_induction (P := fun s => s.arena.Sound origin ∧
      s.arena.Refits (s.slots.map Slot.range) size align)
    (fun _ r h => ⟨sound_step honest h.1 r, step_refits honest h.1 hsize ha h.2 r⟩) ⟨sound, h⟩
    requests).2

/-- With nothing claimed in them, blocks stay what they are through any step. -/
theorem reset_blocks_step (s : Session σ) (r : Request) :
    s.arena.reset.blocks <+: (s.step r).2.arena.reset.blocks := by
  have hend := s.settling r
  generalize s.step r = next at hend
  cases hend with
  | reset =>
      simp only [Arena.reset, List.map_map]
      exact List.prefix_rfl
  | unplaced _ _ => exact List.prefix_rfl
  | @reused _ size' _ _ p b _ _ _ _ _ _ hb _ _ =>
      have hblocks : (s.arena.blocks.set p.block { b with cursor := p.offset + size' }).map
          Block.rewind = s.arena.blocks.map Block.rewind := map_set_of_eq hb rfl
      simp only [Arena.reset, hblocks]
      exact List.prefix_rfl
  | opened _ _ _ _ =>
      simp only [Arena.reset, Arena.charge, Arena.addBlock, List.map_append]
      exact List.prefix_append _ _

/-- What fits after a reset fits after every later one. -/
theorem reset_fitCount_le_run (s : Session σ) (later : List Request) (size align : Nat) :
    s.arena.reset.fitCount size align ≤ (s.run later).arena.reset.fitCount size align := by
  induction later generalizing s with
  | nil => exact Nat.le_refl _
  | cons q rest ih =>
      refine Nat.le_trans ?_ (ih (s.step q).2)
      obtain ⟨more, hmore⟩ := s.reset_blocks_step q
      rw [Arena.fitCount, Arena.fitCount, ← hmore, List.map_append, sum_append]
      exact Nat.le_add_right _ _

/-- After any history of requests on a new arena over an honest source, for ranges of some bytes at
a power of two within reach: how many fit into a block behind one another is what `Block.fitCount`
says. Requests for such a range, of whatever form, are served from the blocks that are there,
without a word to the source, as many times as the sum over the blocks says, and the next one is
not. Once all ranges have been given up again, however much later, there is room for all of them
that had been handed out and for all that had still fitted. -/
theorem served_while_fitting {config : Config} {source : σ} {a : Arena σ}
    (honest : Source.Honest source) (created : Arena.create? config source = .ok a)
    (requests : List Request) {size align : Nat} (hsize : 0 < size) (ha : IsValid align)
    (hmax : align ≤ Arena.maxAlign) :
    let s := run { arena := a } requests
    let held := handedOut { arena := a } [] requests
    (∀ b ∈ s.arena.blocks, ∀ n,
      (∃ offsets, b.Row size align offsets ∧ offsets.length = n) ↔ n ≤ b.fitCount size align) ∧
    (∀ more r, (∀ q ∈ more, q.Asks size align) → r.Asks size align →
      (more.length < s.arena.fitCount size align → (s.run more).ServedAtHand r) ∧
      (more.length = s.arena.fitCount size align → (s.run more).NeedsBlock r)) ∧
    ∀ later more r, (∀ q ∈ more, q.Asks size align) → r.Asks size align →
      more.length < Arena.likeCount held size align + s.arena.fitCount size align →
        (((s.run later).step .reset).2.run more).ServedAtHand r := by
  intro s held
  have soundStart := Arena.sound_of_create? created
  have sound : s.arena.Sound source := sound_run (s := { arena := a }) honest soundStart requests
  refine ⟨fun b _ n => Block.exists_row_iff hsize ha,
    fun more r hmore hr => served_or_needs honest sound hmax hmore hr, ?_⟩
  intro later more r hmore hr hlt
  have start : a.Refits [] size align := by
    obtain ⟨-, rfl⟩ := Arena.create?_eq_ok_iff.mp created
    exact Nat.le_refl _
  have refits : s.arena.Refits held size align := by
    have h := run_refits (s := { arena := a }) honest soundStart hsize ha start requests
    rwa [range_slots_run] at h
  have soundLater := sound_run honest sound later
  have hkept := s.reset_fitCount_le_run later size align
  exact (served_or_needs honest (sound_step honest soundLater .reset) hmax hmore hr).1
    (hlt.trans_le (Nat.le_trans refits hkept))

/-- Two blocks with room for two ranges of a kind each, one behind two bytes of padding, and neither
with room for a third. -/
theorem served_while_fitting_apart :
    let source : AddressSpace := { skew := 16, slack := 21 }
    let config : Config := { initialBlockSize := 64 }
    let a : Arena AddressSpace := { config, source, nextBlockSize := 64 }
    let requests : List Request := [.allocateAligned 3 1, .allocateAligned 6 4, .zeroed 50 1,
      .array Element.uint64 12, .allocateAligned 6 4]
    let r : Request := .allocateAligned 6 4
    let more : List Request := [.zeroed 6 4, .allocateAligned 6 4, .zeroed 6 4]
    let s := run { arena := a } requests
    Source.Honest source ∧ Arena.create? config source = .ok a ∧
      (run { arena := a } requests).arena.blocks.map (fun b => b.fitCount 6 4) = [2, 2] ∧
      (s.run more).ServedAtHand r ∧ (s.run (r :: more)).NeedsBlock r ∧
      (((s.run (r :: more)).step .reset).2.run (r :: r :: more)).ServedAtHand r := by
  intro source config a requests r more s
  have honest := AddressSpace.honest source
  have created : Arena.create? config source = .ok a := rfl
  obtain ⟨-, hserved, hagain⟩ := served_while_fitting honest created requests
    (by decide : 0 < 6) (by decide : IsValid 4) (by decide)
  have hfit : (run { arena := a } requests).arena.fitCount 6 4 = 4 := by decide
  have hlike : Arena.likeCount (handedOut { arena := a } [] requests) 6 4 = 2 := by decide
  have hr : r.Asks 6 4 := ⟨rfl, by decide, by decide, trivial⟩
  have hzeroed : (Request.zeroed 6 4).Asks 6 4 := ⟨rfl, by decide, by decide, trivial⟩
  have hmore : ∀ q ∈ more, q.Asks 6 4 := by simp [more, hzeroed, hr, r]
  refine ⟨honest, created, by decide, ?_, ?_, ?_⟩
  · exact (hserved more r hmore hr).1 (by rw [hfit]; decide)
  · exact (hserved (r :: more) r (List.forall_mem_cons.mpr ⟨hr, hmore⟩) hr).2 (by rw [hfit]; rfl)
  · refine hagain (r :: more) (r :: r :: more) r ?_ hr (by rw [hfit, hlike]; decide)
    exact List.forall_mem_cons.mpr ⟨hr, List.forall_mem_cons.mpr ⟨hr, hmore⟩⟩

end Session

end Lifespan
