import Lifespan.Proofs.Arena.Accounting
import Lifespan.Proofs.Arena.Refusal
import Lifespan.Proofs.Arena.Rendering

/-!
# The life of blocks

Seen from its source, an arena asks for blocks and nothing else until it is released, and then gives
all of them back. What it asks for has a layout that every source can be asked for. The blocks are
the extents that it was granted at any time before, and they are given back as they were granted.

The calls are those in the record of a source that keeps one. Keeping it does not change anything
that the arena does.
-/

namespace Lifespan

open Source

namespace Arena

variable {σ : Type} {a a' : Arena σ} {size align : Nat}

/-- The layouts that an arena may ask for. -/
structure Proper (l : Layout) : Prop where
  size_pos : 0 < l.size
  isValid : Alignment.IsValid l.align
  standard_le : Alignment.standard ≤ l.align
  le_maxAlign : l.align ≤ maxAlign
  size_le : l.size ≤ (1 <<< 63) - l.align

/-- What is ordered is proper. -/
theorem proper_of_order {layout : Layout} (hsize : 0 < size) (ha : Alignment.IsValid align)
    (hmax : align ≤ maxAlign) (horder : a.order size align = .ok layout) : Proper layout := by
  obtain ⟨-, -, halign, -⟩ := order_eq_ok_iff.mp horder
  obtain ⟨⟨hvalid, hspan⟩, hpos, hstandard⟩ := order_of_ok ha hmax horder hsize
  have hbound : Word.maxSpan + 1 = 1 <<< 63 := by decide
  refine ⟨hpos, hvalid, hstandard, ?_, by omega⟩
  rw [halign]
  exact max_le hmax (by decide)

/-- What a request does to the source of an arena, and to its blocks. -/
inductive Asking [Source σ] (a a' : Arena σ) : Prop where
  | silent : a'.source = a.source → a'.grants = a.grants → Asking a a'
  | refused (l : Layout) : Proper l → Source.allocate l a.source = (none, a'.source) →
    a'.grants = a.grants → Asking a a'
  | granted (l : Layout) (base : Nat) : Proper l →
    Source.allocate l a.source = (some base, a'.source) →
    a'.grants = a.grants ++ [⟨base, l⟩] → Asking a a'

section Asking

variable [Source σ] {origin : σ}

/-- Only the source and the blocks matter. -/
theorem Asking.congr {c : Arena σ} (h : a.Asking a') (hsource : c.source = a'.source)
    (hgrants : c.grants = a'.grants) : a.Asking c := by
  cases h with
  | silent hs hg => exact .silent (hsource.trans hs) (hgrants.trans hg)
  | refused l hl halloc hg => exact .refused l hl (hsource ▸ halloc) (hgrants.trans hg)
  | granted l base hl halloc hg => exact .granted l base hl (hsource ▸ halloc) (hgrants.trans hg)

theorem Grown.asking {b : Block} (hsize : 0 < size) (ha : Alignment.IsValid align)
    (hmax : align ≤ maxAlign) (h : a.Grown size align b a') : a.Asking a' := by
  have horder : a.order size align = .ok b.grant.layout :=
    order_eq_ok_iff.mpr ⟨h.blockSize, h.limit, h.layout_align, h.valid⟩
  refine .granted _ _ (proper_of_order hsize ha hmax horder) h.granted ?_
  rw [h.books]
  simp [grants, addBlock]

theorem grow_asking_of_error {e : Error} (hsize : 0 < size) (ha : Alignment.IsValid align)
    (hmax : align ≤ maxAlign) (h : a.grow size align = (.error (.error e), a')) :
    a.Asking a' := by
  rcases grow_refusal h (.error e) with rfl | ⟨layout, _, horder, halloc, rfl⟩
  · exact .silent rfl rfl
  · exact .refused layout (proper_of_order hsize ha hmax horder) halloc rfl

/-- Placing a range asks for one block at most, and takes what it is granted. -/
theorem place_asking (honest : Honest origin) (sound : a.Sound origin) (hsize : 0 < size)
    (ha : Alignment.IsValid align) : a.Asking (a.place size align).2 := by
  simp only [place]
  split
  · exact .silent rfl rfl
  · next hmax =>
    have hle := Nat.le_of_not_lt hmax
    rcases reuse_cases honest sound size ha (hle.trans (by decide)) with
      ⟨hnone, -⟩ | ⟨p, b, hb, hsome⟩
    · simp only [hnone]
      rcases grow_cases honest sound hsize ha hle with
        ⟨e, source, hgrow, -⟩ | ⟨b, a', hb, hgrow⟩
      · have hasking := grow_asking_of_error hsize ha hle hgrow
        simpa only [hgrow] using hasking
      · have hasking := hb.asking hsize ha hle
        simp only [hgrow]
        exact hasking.congr rfl rfl
    · simp only [hsome]
      exact .silent rfl (map_set_of_eq hb.block rfl)

theorem Reserving.asking (honest : Honest origin) (sound : a.Sound origin)
    {result : Except Failure (Option Placement) × Arena σ} (h : a.Reserving size align result) :
    a.Asking result.2 := by
  cases h with
  | empty _ => exact .silent rfl rfl
  | rejected _ => exact .silent rfl rfl
  | failed hsize ha hplace =>
      have hasking := place_asking honest sound hsize ha
      rwa [hplace] at hasking
  | placed m hsize ha hplace =>
      have hasking := place_asking honest sound hsize ha
      rw [hplace] at hasking
      exact hasking.congr rfl rfl

end Asking

/-! ## The record of a source -/

/-- The arena over a source that records calls from now on. -/
def watched (a : Arena σ) : Arena (Recorded σ) := a.mapSource fun source => { inner := source }

/-- The record of the source in terms of the blocks, before the arena is released. -/
structure Logged (a : Arena (Recorded σ)) : Prop where
  asked : ∀ c ∈ a.source.calls, ∃ l answer, c = .allocate l answer ∧ Proper l
  granted : granted a.source.calls = a.grants

/-- A request keeps the record in terms of the blocks. -/
theorem Logged.asking [Source σ] {a a' : Arena (Recorded σ)} (h : a.Logged) (hask : a.Asking a') :
    a'.Logged := by
  have hconcat {l : Layout} {answer : Option Nat} (hl : Proper l)
      (hcalls : a'.source.calls = a.source.calls ++ [.allocate l answer]) :
      ∀ c ∈ a'.source.calls, ∃ l answer, c = .allocate l answer ∧ Proper l := by
    intro c hc
    rw [hcalls] at hc
    rcases List.mem_append.mp hc with hc | hc
    · exact h.asked c hc
    · exact ⟨l, answer, List.mem_singleton.mp hc, hl⟩
  cases hask with
  | silent hsource hgrants => exact ⟨hsource ▸ h.asked, by rw [hsource, hgrants, h.granted]⟩
  | refused l hl halloc hgrants =>
      have hcalls : a'.source.calls = a.source.calls ++ [.allocate l none] :=
        Recorded.calls_of_allocate halloc
      exact ⟨hconcat hl hcalls, by simp [hcalls, Call.grant?, h.granted, hgrants]⟩
  | granted l base hl halloc hgrants =>
      have hcalls : a'.source.calls = a.source.calls ++ [.allocate l (some base)] :=
        Recorded.calls_of_allocate halloc
      exact ⟨hconcat hl hcalls, by simp [hcalls, Call.grant?, h.granted, hgrants]⟩

/-- A new arena has not asked for anything. -/
theorem create?_watched {config : Config} {source : σ} (h : create? config source = .ok a) :
    create? config (⟨source, []⟩ : Recorded σ) = .ok a.watched ∧ a.watched.Logged := by
  obtain ⟨hvalid, rfl⟩ := create?_eq_ok_iff.mp h
  exact ⟨create?_eq_ok_iff.mpr ⟨hvalid, rfl⟩, by simp [watched, mapSource], rfl⟩

/-- The release gives the blocks back, the oldest first. -/
theorem release_eq [Source σ] (a : Arena σ) :
    a.release = a.grants.foldl (fun s g => Source.deallocate g.base g.layout s) a.source := by
  rw [grants, List.foldl_map]
  rfl

theorem calls_release [Source σ] (a : Arena (Recorded σ)) :
    a.release.calls = a.source.calls ++ a.grants.map Source.Grant.giveBack := by
  rw [release_eq, Recorded.foldl_deallocate]

end Arena

namespace Session

variable {σ : Type} [Source σ] {origin : σ} {s : Session σ}

/-- A request asks for one block at most, and takes what it is granted. -/
theorem step_asking (honest : Honest origin) (sound : s.arena.Sound origin) (r : Request) :
    s.arena.Asking (s.step r).2.arena := by
  have hmove := s.step_moving r
  generalize s.step r = next at hmove
  cases hmove with
  | reset => exact .silent rfl (Arena.grants_reset _)
  | write slot bytes =>
      obtain ⟨⟨m, hm⟩, -⟩ := s.write_eq slot bytes
      rw [hm]
      exact .silent rfl rfl
  | unplaced _ hreserve _ _ _ => exact hreserve.asking honest sound
  | placed _ hreserve => exact hreserve.asking honest sound

/-- The blocks are what was granted, after any history. -/
theorem logged_run {origin : Recorded σ} {s : Session (Recorded σ)} (honest : Honest origin)
    (sound : s.arena.Sound origin) (h : s.arena.Logged) (requests : List Request) :
    (s.run requests).arena.Logged := by
  have hboth : (s.run requests).arena.Sound origin ∧ (s.run requests).arena.Logged :=
    run_induction (P := fun s => s.arena.Sound origin ∧ s.arena.Logged)
      (fun _ r hs => ⟨sound_step honest hs.1 r, hs.2.asking (step_asking honest hs.1 r)⟩)
      ⟨sound, h⟩ requests
  exact hboth.2

/-- Over an honest source, let an arena go through any history of requests and then be released.
Until the release it asks for blocks of proper layouts and gives none back; the release gives each
extent back that was granted, as it was granted, once, and does nothing else. -/
theorem blocks_returned {config : Config} {source : σ} {a : Arena σ} (honest : Honest source)
    (created : Arena.create? config source = .ok a) (requests : List Request) :
    let plain := run { arena := a } requests
    let watched := run { arena := a.watched } requests
    let calls := watched.arena.source.calls
    -- To record the calls does not change anything else.
    watched.mapSource Recorded.inner = plain ∧
    watched.arena.release.inner = plain.arena.release ∧
    -- Until the release there are no calls but requests for blocks of proper layouts.
    (∀ c ∈ calls, ∃ l answer, c = .allocate l answer ∧ Arena.Proper l) ∧
    -- The release gives back what was granted.
    watched.arena.release.calls = calls ++ (granted calls).map Source.Grant.giveBack ∧
    (granted calls).Nodup := by
  intro plain watched calls
  obtain ⟨createdWatched, loggedStart⟩ := Arena.create?_watched created
  have honestWatched : Honest (⟨source, []⟩ : Recorded σ) := Recorded.renders_inner.honest honest
  have start := Arena.sound_of_create? createdWatched
  have sound : watched.arena.Sound ⟨source, []⟩ :=
    sound_run (s := { arena := a.watched }) honestWatched start requests
  have logged : watched.arena.Logged :=
    logged_run (s := { arena := a.watched }) honestWatched start loggedStart requests
  have hplain : watched.mapSource Recorded.inner = plain :=
    (run_mapSource _ Recorded.renders_inner requests).symm
  refine ⟨hplain, ?_, logged.asked, ?_, ?_⟩
  · rw [← hplain]
    exact (Arena.release_mapSource _ Recorded.renders_inner).symm
  · rw [logged.granted]
    exact watched.arena.calls_release
  · have hnodup := honestWatched.nodup_grants sound.history
    rw [logged.granted]
    simpa [Arena.grants, Function.comp_def, Block.extent] using hnodup

/-- A history with a block for an aligned request, a reset, and a block that the source refuses. -/
theorem blocks_returned_refused :
    let source : AddressSpace := { skew := 16 }
    let config : Config := { initialBlockSize := 64, growth := .exponential }
    let a : Arena AddressSpace := { config, source, nextBlockSize := 64 }
    let requests : List Request := [.allocate 24, .allocateAligned 100 1024, .reset,
      .allocate (1 <<< 61), .zeroed 40 8, .array Element.uint64 12, .allocate 60]
    let calls : List Call := [.allocate ⟨64, 16⟩ (some 4112), .allocate ⟨128, 1024⟩ (some 8192),
      .allocate ⟨1 <<< 61, 16⟩ none, .allocate ⟨256, 16⟩ (some 12304)]
    Honest source ∧ Arena.create? config source = .ok a ∧
      (run { arena := a.watched } requests).arena.source.calls = calls ∧
      (run { arena := a.watched } requests).arena.release.calls = calls ++
        [.deallocate 4112 ⟨64, 16⟩, .deallocate 8192 ⟨128, 1024⟩, .deallocate 12304 ⟨256, 16⟩] := by
  intro source config a requests calls
  have honest := AddressSpace.honest source
  have created : Arena.create? config source = .ok a := rfl
  have hcalls : (run { arena := a.watched } requests).arena.source.calls = calls := by
    decide +kernel
  obtain ⟨-, -, -, hrelease, -⟩ := blocks_returned honest created requests
  refine ⟨honest, created, hcalls, ?_⟩
  rw [hrelease, hcalls]
  rfl

end Session

end Lifespan
