import Lifespan.Proofs.Arena.Growth
import Lifespan.Proofs.Arena.Plans
import Lifespan.Proofs.Arena.Rule

/-!
# The outcome of a request that needs a new block

When no block at hand can hold a range, five things can become of it, and the reasons for them
overlap: the size that is due may be no word, the limit may not admit it, no layout may have it, the
source may refuse it, or there is a new block. Which of them it is can be said over all numbers,
without a word in sight: no check that is made in words refuses too much or too little.
-/

namespace Lifespan

namespace Arena

variable {σ : Type} {a : Arena σ} {size align blockSize : Nat}

/-- Whether a block of the due size may be asked for. The reasons why it may not are looked at one
after another: a multiple that is no word, the limit, and a size that no layout may have. -/
def verdict (a : Arena σ) (size align blockSize : Nat) : Except Error Layout :=
  if a.nextBlockSize < size ∧ 2 ^ 64 ≤ blockSize then .error (.outOfMemory size size)
  else match a.config.memoryLimit.filter (· < a.memoryBytes + blockSize) with
    | some limit => .error (.capacityExceeded size limit)
    | none =>
      if 2 ^ 63 - blockAlign align < blockSize then .error (.outOfMemory size blockSize)
      else .ok ⟨blockSize, blockAlign align⟩

/-- What becomes of a request that no block at hand can hold. Without a new block nothing has
changed, unless the source has been asked for one; the range is all that is claimed in a new block.
-/
def outcome [Source σ] (a : Arena σ) (size align blockSize : Nat) :
    Except Failure Placement × Arena σ :=
  match a.verdict size align blockSize with
  | .error e => (.error (.error e), a)
  | .ok layout =>
    match Source.allocate layout a.source with
    | (none, source) => (.error (.error (.outOfMemory size blockSize)), { a with source })
    | (some base, source) =>
      let capacity := max (Source.usableSize layout source) blockSize
      let b : Block := { grant := ⟨base, layout⟩, capacity, cursor := size }
      (.ok ⟨a.blocks.length, 0⟩,
        ({ a with source }.addBlock b (decide (a.IsLarge size))).charge size)

/-! ## What is ordered -/

/-- A due size that is no word is found out. -/
theorem newBlockSize?_eq (ha : Alignment.IsValid align) (hmax : align ≤ maxAlign)
    (hdue : a.IsDue size align blockSize) :
    a.newBlockSize? size align =
      if a.nextBlockSize < size ∧ 2 ^ 64 ≤ blockSize then none else some blockSize := by
  have hbound : Word.bound = 2 ^ 64 := rfl
  split
  · next hnone =>
    rw [Option.eq_none_iff_forall_ne_some]
    intro n hn
    obtain ⟨hdue', hlt⟩ := (newBlockSize?_eq_some_iff ha hmax).mp hn
    rw [hdue'.unique hdue, hbound] at hlt
    exact absurd (hlt hnone.1) (Nat.not_lt.mpr hnone.2)
  · next hsome =>
    exact (newBlockSize?_eq_some_iff ha hmax).mpr ⟨hdue, fun hlarge => by omega⟩

/-- The check of the limit is exact, since the limit is a word. -/
theorem violatedLimit?_eq (hword : ∀ limit ∈ a.config.memoryLimit, limit < Word.bound) :
    a.violatedLimit? blockSize =
      a.config.memoryLimit.filter (· < a.memoryBytes + blockSize) := by
  ext limit
  rw [violatedLimit?_eq_some_iff, Option.filter_eq_some_iff, decide_eq_true_eq]
  refine and_congr_right fun hlimit => ?_
  have := hword limit hlimit
  omega

/-- A block has a valid layout if it leaves room for its alignment below the limit of spans. -/
theorem valid_layout_iff (ha : Alignment.IsValid align) (hmax : align ≤ maxAlign) :
    Layout.Valid ⟨blockSize, blockAlign align⟩ ↔ ¬ 2 ^ 63 - blockAlign align < blockSize := by
  have hvalid : Alignment.IsValid (blockAlign align) := ha.max Alignment.isValid_standard
  have hle : blockAlign align ≤ 4096 := max_le hmax (by decide)
  have hspan : Word.maxSpan + 1 = 2 ^ 63 := rfl
  simp only [Layout.Valid, hvalid, true_and, hspan]
  omega

/-- What is ordered is decided over all numbers. -/
theorem order_eq_verdict (ha : Alignment.IsValid align) (hmax : align ≤ maxAlign)
    (hword : ∀ limit ∈ a.config.memoryLimit, limit < Word.bound)
    (hdue : a.IsDue size align blockSize) :
    a.order size align = a.verdict size align blockSize := by
  have hblock := newBlockSize?_eq ha hmax hdue
  by_cases hnone : a.nextBlockSize < size ∧ 2 ^ 64 ≤ blockSize
  · rw [if_pos hnone] at hblock
    simp only [order, verdict, hblock, if_pos hnone]
  · rw [if_neg hnone] at hblock
    simp only [order, verdict, hblock, if_neg hnone, violatedLimit?_eq hword]
    cases a.config.memoryLimit.filter (· < a.memoryBytes + blockSize) with
    | some limit => rfl
    | none =>
        dsimp only [Layout.of?]
        by_cases hlayout : 2 ^ 63 - blockAlign align < blockSize
        · rw [if_pos hlayout, if_neg (mt (valid_layout_iff ha hmax).mp (not_not_intro hlayout))]
        · rw [if_neg hlayout, if_pos ((valid_layout_iff ha hmax).mpr hlayout)]

/-! ## What becomes of it -/

section Sound

variable [Source σ] {origin : σ} (honest : Source.Honest origin) (sound : a.Sound origin)
include honest sound

/-- If no block can hold a range, there is the one outcome. -/
theorem place_eq_outcome (hsize : 0 < size) (ha : Alignment.IsValid align)
    (hmax : align ≤ maxAlign) (hno : ∀ b ∈ a.blocks, ∀ o, ¬ b.Fits size align o)
    (hword : ∀ limit ∈ a.config.memoryLimit, limit < Word.bound)
    (hdue : a.IsDue size align blockSize) :
    a.place size align = a.outcome size align blockSize := by
  have hreuse : a.reuse size align = .ok none := by
    rcases reuse_cases honest sound size ha (hmax.trans (by decide)) with
      ⟨hnone, -⟩ | ⟨p, b, hchosen, -⟩
    · exact hnone
    · exact absurd hchosen.least.1 (hno b (List.mem_of_getElem? hchosen.block) p.offset)
  have horder := order_eq_verdict ha hmax hword hdue
  rw [place_of_reuse_eq_none hmax hreuse, grow_eq, outcome, ← horder]
  cases hresult : a.order size align with
  | error e => rfl
  | ok layout =>
      have hlayout : layout.size = blockSize := (isDue_of_order ha hmax hresult).unique hdue
      dsimp only
      rcases halloc : Source.allocate layout a.source with ⟨_ | base, source⟩
      · simp only [take, halloc, hlayout]
      · have htake := take_of_granted honest sound hsize ha hmax hresult halloc
        simp only [htake, hlayout]

end Sound

end Arena

/-! ## Sessions -/

namespace Session

variable {σ : Type} [Source σ]

/-- After any history of requests, let some bytes at a power of two be asked for that no block can
hold. Then, over all numbers, the size of a new block for them is the running size or, for a larger
request, the least multiple of the alignment of the block that is not below their number, and there
is one outcome: out of memory if that multiple is no word; else the limit, if the bytes of all
blocks would exceed it; else out of memory without a question to the source, if no layout has this
size; else out of memory if the source refuses it; and else the range lies at the start of a new
block. -/
theorem new_block_outcome {config : Config} {source : σ} {a : Arena σ}
    (honest : Source.Honest source) (created : Arena.create? config source = .ok a)
    (hword : ∀ limit ∈ config.memoryLimit, limit < Word.bound) (requests : List Request)
    {size align : Nat} (hsize : 0 < size) (ha : Alignment.IsValid align)
    (hmax : align ≤ Arena.maxAlign) :
    let s := run { arena := a } requests
    (∀ b ∈ s.arena.blocks, ∀ o, ¬ b.Fits size align o) →
      ∃ blockSize, s.arena.IsDue size align blockSize ∧
        let outcome := s.arena.outcome size align blockSize
        s.arena.place size align = outcome ∧
        ∀ r written, r.plan? = some (.place size align written) →
          (s.step r).1 = outcome.1.map (Grant.placed s.slots.length) ∧
            ∃ m, (s.step r).2.arena = { outcome.2 with memory := m } := by
  intro s hno
  have start := Arena.sound_of_create? created
  have sound : s.arena.Sound source := sound_run (s := { arena := a }) honest start requests
  have hconfig : s.arena.config = config := by
    obtain ⟨-, rfl⟩ := Arena.create?_eq_ok_iff.mp created
    exact config_run { arena := _ } requests
  obtain ⟨blockSize, hdue⟩ := s.arena.exists_isDue size ha
  have hplace := Arena.place_eq_outcome honest sound hsize ha hmax hno (hconfig ▸ hword) hdue
  refine ⟨blockSize, hdue, hplace, fun r written hplan => ?_⟩
  have hend := following (s := s) hplan
  generalize s.step r = next at hend ⊢
  cases hend with
  | @placed _ _ _ result a' m hstep =>
      rw [← hplace, hstep]
      rcases result with f | p
      · exact ⟨rfl, m, rfl⟩
      · exact ⟨rfl, m, rfl⟩

/-- With sizes near the bounds of words and of spans, each reason is the one that decides. -/
theorem new_block_outcome_near_bounds :
    let source : AddressSpace := { slack := 24 }
    let config : Config := { initialBlockSize := 64, memoryLimit := some (1 <<< 64 - 1) }
    let a : Arena AddressSpace := { config, source, nextBlockSize := 64 }
    let arena := (run { arena := a } [.allocate 40]).arena
    Source.Honest source ∧ Arena.create? config source = .ok a ∧
    (arena.place (1 <<< 64 - 8) 8).1 =
      .error (.error (.outOfMemory (1 <<< 64 - 8) (1 <<< 64 - 8))) ∧
    (arena.place (1 <<< 64 - 16) 8).1 =
      .error (.error (.capacityExceeded (1 <<< 64 - 16) (1 <<< 64 - 1))) ∧
    (arena.place (1 <<< 63 - 15) 8).1 =
      .error (.error (.outOfMemory (1 <<< 63 - 15) (1 <<< 63))) ∧
    (arena.place (1 <<< 63 - 17) 8).1 =
      .error (.error (.outOfMemory (1 <<< 63 - 17) (1 <<< 63 - 16))) ∧
    (arena.place 100 8).1 = .ok ⟨1, 0⟩ ∧
    (arena.place 100 8).2.blocks = arena.blocks ++ [⟨⟨8192, ⟨112, 16⟩⟩, 136, 100⟩] := by
  intro source config a arena
  have honest := AddressSpace.honest source
  have created : Arena.create? config source = .ok a := rfl
  have hword : ∀ limit ∈ config.memoryLimit, limit < Word.bound := by decide
  have hnext : arena.nextBlockSize = 64 := by decide +kernel
  have hcapacity : ∀ b ∈ arena.blocks, b.capacity = 88 := by decide +kernel
  -- No size above the capacity of the only block fits into it.
  have key : ∀ size blockSize, 88 < size → size ≤ blockSize → 16 ∣ blockSize →
      blockSize < size + 16 → arena.place size 8 = arena.outcome size 8 blockSize := by
    intro size blockSize hsize hle hdvd hlt
    have hno : ∀ b ∈ arena.blocks, ∀ o, ¬ b.Fits size 8 o := by
      rintro b hb o ⟨-, -, hend⟩
      rw [hcapacity b hb] at hend
      omega
    obtain ⟨due, hdue, hplace, -⟩ :=
      new_block_outcome honest created hword [.allocate 40] (by omega) (by decide) (by decide) hno
    have hlarge : arena.IsLarge size := by
      rw [Arena.IsLarge, hnext]
      omega
    rw [hdue.unique (.of_dvd hlarge hle hdvd hlt)] at hplace
    exact hplace
  have hmultiple := key (1 <<< 64 - 8) (1 <<< 64) (by decide) (by decide) (by decide) (by decide)
  have hlimit := key (1 <<< 64 - 16) (1 <<< 64 - 16) (by decide) (by decide) (by decide) (by decide)
  have hlayout := key (1 <<< 63 - 15) (1 <<< 63) (by decide) (by decide) (by decide) (by decide)
  have hrefused := key (1 <<< 63 - 17) (1 <<< 63 - 16) (by decide) (by decide) (by decide)
    (by decide)
  have hopened := key 100 112 (by decide) (by decide) (by decide) (by decide)
  rw [hmultiple, hlimit, hlayout, hrefused, hopened]
  exact ⟨honest, created, by decide +kernel, by decide +kernel, by decide +kernel,
    by decide +kernel, by decide +kernel, by decide +kernel⟩

end Session

end Lifespan
