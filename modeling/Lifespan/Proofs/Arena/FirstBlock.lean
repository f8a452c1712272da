import Lifespan.Proofs.Arena.Growth
import Lifespan.Proofs.Arena.Plans
import Lifespan.Proofs.Arena.Rule

/-!
# The first block of an arena

A configuration is checked before there is a block, and the size of its first block is checked again
when the block is ordered. The two checks do not meet: the first one admits all sizes that one
object may span, while a layout has to leave room for its alignment below that. So there are fifteen
sizes with which an arena can be made, but no block for a first request. With any other size the
first request within it gets a block of just that size.
-/

namespace Lifespan

/-! ## Valid configurations -/

/-- The check of a configuration, without the order in which flaws are looked for. -/
theorem Config.valid_iff {config : Config} :
    config.Valid ↔
      0 < config.initialBlockSize ∧ config.initialBlockSize ≤ Word.maxSpan ∧
        config.growth ≠ .linear 0 ∧
        ∀ limit ∈ config.memoryLimit, config.initialBlockSize ≤ limit := by
  simp only [Valid, flaw?]
  cases config.memoryLimit with
  | none => grind
  | some limit =>
      have hmem : (∀ n ∈ some limit, config.initialBlockSize ≤ n) ↔
          config.initialBlockSize ≤ limit := by simp
      rw [hmem]
      grind

/-! ## Sources that grant what they can -/

namespace Source

variable {σ : Type} [Source σ]

/-- A source that grants every valid layout that is not empty, when it is asked first. -/
def Generous (s : σ) : Prop :=
  ∀ l : Layout, l.Valid → 0 < l.size → ∃ base t, allocate l s = (some base, t)

end Source

/-- A source of one extent at a time, which starts at its own alignment. -/
structure Single where
  isHeld : Bool := false
deriving DecidableEq, Repr

namespace Single

open Source

variable {origin s t : Single} {l : Layout} {base : Nat} {held : List Extent}

instance : Source Single where
  allocate l s := if s.isHeld then (none, s) else (some l.align, ⟨true⟩)
  deallocate _ _ _ := ⟨false⟩

theorem allocate_eq_some (h : Source.allocate l s = (some base, t)) :
    s.isHeld = false ∧ base = l.align ∧ t = ⟨true⟩ := by
  simp only [Source.allocate] at h
  split at h
  · cases h
  · next hfree =>
    cases h
    exact ⟨by simpa using hfree, rfl, rfl⟩

theorem allocate_eq_none (h : Source.allocate l s = (none, t)) : t = s := by
  simp only [Source.allocate] at h
  split at h
  · cases h
    rfl
  · cases h

theorem generous {s : Single} (h : s.isHeld = false) : Generous s := by
  intro l _ _
  exact ⟨l.align, ⟨true⟩, by simp [Source.allocate, h]⟩

/-- At most one extent is held, and the source knows of it. It has a valid layout, and starts at its
alignment. -/
theorem held_of_history (h : History origin s held) :
    held = [] ∨ s.isHeld = true ∧ ∃ l : Layout, l.Valid ∧ held = [⟨⟨l.align, l⟩, l.size⟩] := by
  induction h with
  | start => exact Or.inl rfl
  | @grant s t held l base _ hvalid _ halloc ih =>
      obtain ⟨hfree, rfl, rfl⟩ := allocate_eq_some halloc
      rcases ih with rfl | ⟨hheld, -⟩
      · exact Or.inr ⟨rfl, l, hvalid, by simp [extent, Source.usableSize]⟩
      · rw [hfree] at hheld
        cases hheld
  | refuse _ _ _ halloc ih =>
      obtain rfl := allocate_eq_none halloc
      exact ih
  | giveBack _ he ih =>
      rcases ih with rfl | ⟨-, l, -, rfl⟩
      · cases he
      · rw [List.mem_singleton.mp he]
        exact Or.inl (List.erase_cons_head ..)

theorem honest (origin : Single) : Honest origin where
  aligned h e he := by
    rcases held_of_history h with rfl | ⟨-, l, -, rfl⟩
    · cases he
    · obtain rfl := List.mem_singleton.mp he
      exact Nat.dvd_refl _
  bounded h e he := by
    rcases held_of_history h with rfl | ⟨-, l, ⟨-, hspan⟩, rfl⟩
    · cases he
    · obtain rfl := List.mem_singleton.mp he
      have hword : Word.maxSpan + 1 < Word.bound := by decide
      simp only [Extent.span, Span.stop]
      omega
  apart h := by
    rcases held_of_history h with rfl | ⟨-, l, -, rfl⟩
    · exact .nil
    · exact List.pairwise_singleton _ _

end Single

/-! ## The first order -/

namespace Arena

variable {σ : Type} {config : Config} {source : σ} {a : Arena σ} {size align : Nat}

/-- A block for a request at no more than the standard alignment has the standard alignment. -/
theorem blockAlign_of_le (hmax : align ≤ Alignment.standard) :
    blockAlign align = Alignment.standard := max_eq_right hmax

/-- For a request within the initial block size, a new arena orders a block of this size, if there
is a layout for it. The limit admits it. -/
theorem order_of_create? (created : create? config source = .ok a)
    (hle : size ≤ config.initialBlockSize) (hmax : align ≤ Alignment.standard) :
    a.order size align =
      if config.initialBlockSize ≤ 2 ^ 63 - 16 then .ok ⟨config.initialBlockSize, 16⟩
      else .error (.outOfMemory size config.initialBlockSize) := by
  obtain ⟨hvalid, rfl⟩ := create?_eq_ok_iff.mp created
  obtain ⟨-, hspan, -, hlimit⟩ := Config.valid_iff.mp hvalid
  have hword : Word.maxSpan < Word.bound := by decide
  have hordinary : ¬ config.initialBlockSize < size := Nat.not_lt.mpr hle
  have hadmitted : violatedLimit? (σ := σ)
      { config, source, nextBlockSize := config.initialBlockSize } config.initialBlockSize =
        none := by
    rw [violatedLimit?_eq_none_iff]
    intro limit hmem
    have := hlimit limit hmem
    dsimp only
    omega
  have hlayout : Layout.Valid ⟨config.initialBlockSize, 16⟩ ↔
      config.initialBlockSize ≤ 2 ^ 63 - 16 := by
    have hstandard : Alignment.IsValid 16 := Alignment.isValid_standard
    have hmost : Word.maxSpan + 1 = 2 ^ 63 := rfl
    simp only [Layout.Valid, hstandard, true_and, hmost]
    omega
  have halign : blockAlign align = 16 := blockAlign_of_le hmax
  simp only [order, newBlockSize?, IsLarge, if_neg hordinary, hadmitted, halign, Layout.of?,
    hlayout]
  by_cases hfits : config.initialBlockSize ≤ 2 ^ 63 - 16
  · simp only [if_pos hfits]
  · simp only [if_neg hfits]

/-- A new arena has no block at hand, so everything rests on the first order. -/
theorem place_of_create? [Source σ] (created : create? config source = .ok a) (size : Nat)
    (hmax : align ≤ maxAlign) :
    a.place size align =
      match a.order size align with
      | .error e => (.error (.error e), a)
      | .ok layout =>
        match a.take layout size align with
        | (.error e, a') => (.error e, a')
        | (.ok p, a') => (.ok p, a'.charge size) := by
  have hreuse : a.reuse size align = .ok none := by
    obtain ⟨-, rfl⟩ := create?_eq_ok_iff.mp created
    rfl
  rw [place_of_reuse_eq_none hmax hreuse, grow_eq]
  cases a.order size align with
  | error e => rfl
  | ok layout => rfl

/-- If there is a layout for the first block, a generous source grants it, and the range is at its
start. -/
theorem place_first_block [Source σ] (honest : Source.Honest source)
    (generous : Source.Generous source) (created : create? config source = .ok a)
    (hsize : 0 < size) (hle : size ≤ config.initialBlockSize) (ha : Alignment.IsValid align)
    (hmax : align ≤ Alignment.standard) (hlayout : config.initialBlockSize ≤ 2 ^ 63 - 16) :
    ∃ b a', a.place size align = (.ok ⟨0, 0⟩, a') ∧ a'.blocks = [b] ∧
      b.grant.layout = ⟨config.initialBlockSize, 16⟩ ∧
      b.capacity = max (Source.usableSize b.grant.layout a'.source) config.initialBlockSize ∧
      a'.memoryBytes = config.initialBlockSize := by
  have hreach : align ≤ maxAlign := hmax.trans (by decide)
  have horder := order_of_create? created hle hmax
  rw [if_pos hlayout] at horder
  have hpos : 0 < config.initialBlockSize := by omega
  obtain ⟨base, t, halloc⟩ := generous _ (order_eq_ok_iff.mp horder).2.2.2 hpos
  have hplace := place_of_create? created size hreach
  have sound := sound_of_create? created
  obtain ⟨-, rfl⟩ := create?_eq_ok_iff.mp created
  rw [horder] at hplace
  simp only [take_of_granted honest sound hsize ha hreach horder halloc] at hplace
  exact ⟨_, _, hplace, rfl, rfl, rfl, Nat.zero_add _⟩

/-- If there is no layout for the first block, nothing happens. -/
theorem place_without_layout [Source σ] (created : create? config source = .ok a)
    (hle : size ≤ config.initialBlockSize) (hmax : align ≤ Alignment.standard)
    (hlayout : ¬ config.initialBlockSize ≤ 2 ^ 63 - 16) :
    a.place size align = (.error (.error (.outOfMemory size config.initialBlockSize)), a) := by
  have horder := order_of_create? created hle hmax
  rw [if_neg hlayout] at horder
  rw [place_of_create? created size (hmax.trans (by decide)), horder]

end Arena

/-! ## Sessions -/

namespace Session

variable {σ : Type} [Source σ]

/-- Let a new arena from a valid configuration take its blocks from an honest source that grants
every valid layout when it is asked first. Then, if the initial block size is at most `2 ^ 63 - 16`,
the first request, for some bytes within that size at no more than the standard alignment, is
served, from the start of the only block, which was asked for with exactly the initial size and has
that many bytes, or more if the source says so. All larger sizes that the check of the configuration
admits are sizes that no layout of the standard alignment has: then the request is refused as out of
memory, and nothing has changed. -/
theorem first_block_of_layout {config : Config} {source : σ} {a : Arena σ}
    (honest : Source.Honest source) (generous : Source.Generous source)
    (created : Arena.create? config source = .ok a) {size align : Nat} (hsize : 0 < size)
    (hle : size ≤ config.initialBlockSize) (ha : Alignment.IsValid align)
    (hmax : align ≤ Alignment.standard) {r : Request} (hr : r.Asks size align) :
    let next := step { arena := a } r
    (config.initialBlockSize ≤ 2 ^ 63 - 16 →
      next.1 = .ok (.placed 0 ⟨0, 0⟩) ∧ ∃ b, next.2.arena.blocks = [b] ∧
        b.grant.layout = ⟨config.initialBlockSize, 16⟩ ∧
        b.capacity = max (Source.usableSize b.grant.layout next.2.arena.source)
          config.initialBlockSize ∧
        next.2.arena.memoryBytes = config.initialBlockSize) ∧
    (2 ^ 63 - 16 < config.initialBlockSize →
      next = (.error (.error (.outOfMemory size config.initialBlockSize)), { arena := a })) := by
  obtain ⟨written, hplan⟩ := Request.asks_iff.mp hr
  rw [step_eq_follow hplan, follow]
  constructor
  · intro hlayout
    obtain ⟨b, a', hplace, hblocks, hgrant, hcapacity, hmemory⟩ :=
      Arena.place_first_block honest generous created hsize hle ha hmax hlayout
    obtain ⟨m, hm⟩ := r.fill_eq ⟨0, 0⟩ a'
    simp only [hplace, record, hm]
    exact ⟨rfl, b, hblocks, hgrant, hcapacity, hmemory⟩
  · intro hlayout
    simp only [Arena.place_without_layout created hle hmax (Nat.not_le.mpr hlayout)]

/-- The largest size of a first block that has a layout, over a source that grants it. -/
theorem first_block_of_layout_largest :
    let source : Single := {}
    let config : Config := { initialBlockSize := 2 ^ 63 - 16 }
    let a : Arena Single := { config, source, nextBlockSize := 2 ^ 63 - 16 }
    let next := step { arena := a } (.zeroed 3 8)
    Source.Honest source ∧ Source.Generous source ∧ Arena.create? config source = .ok a ∧
      (Request.zeroed 3 8).Asks 3 8 ∧ next.1 = .ok (.placed 0 ⟨0, 0⟩) ∧
      next.2.arena.memoryBytes = 2 ^ 63 - 16 := by
  intro source config a next
  have honest := Single.honest source
  have generous : Source.Generous source := Single.generous rfl
  have created : Arena.create? config source = .ok a := rfl
  have hr : (Request.zeroed 3 8).Asks 3 8 := ⟨rfl, by decide, by decide, trivial⟩
  obtain ⟨hserved, -⟩ := first_block_of_layout honest generous created (by decide) (by decide)
    (by decide) (by decide) hr
  obtain ⟨hreply, b, -, -, -, hmemory⟩ := hserved (Nat.le_refl _)
  exact ⟨honest, generous, created, hr, hreply, hmemory⟩

/-- A configuration is valid whose first block has no layout, so that not even a single byte can be
had, although the source would grant every valid layout. -/
theorem first_block_unserved :
    let source : Single := {}
    let config : Config := { initialBlockSize := 2 ^ 63 - 1 }
    let a : Arena Single := { config, source, nextBlockSize := 2 ^ 63 - 1 }
    config.Valid ∧ Source.Honest source ∧ Source.Generous source ∧
      Arena.create? config source = .ok a ∧
      a.allocate 1 1 = (.error (.error (.outOfMemory 1 (2 ^ 63 - 1))), a) ∧
      step { arena := a } (.allocateAligned 1 1) =
        (.error (.error (.outOfMemory 1 (2 ^ 63 - 1))), { arena := a }) := by
  intro source config a
  have created : Arena.create? config source = .ok a := rfl
  have hplace : a.place 1 1 = (.error (.error (.outOfMemory 1 (2 ^ 63 - 1))), a) :=
    Arena.place_without_layout created (by decide) (by decide) (by decide)
  have hrefused : a.allocate 1 1 = (.error (.error (.outOfMemory 1 (2 ^ 63 - 1))), a) := by
    rw [Arena.allocate, if_neg (by decide), if_neg (by decide), hplace]
  refine ⟨by decide, Single.honest source, Single.generous rfl, created, hrefused, ?_⟩
  simp only [step, hrefused, record]

end Session

end Lifespan
