import Lifespan.Proofs.Arena.Arithmetic
import Lifespan.Proofs.Arena.Plans

/-!
# Faults

An arena checks itself where it claims a range: the block of a room is there, a range does not begin
before the cursor nor end past the block, and a new block can hold the request that it was made for.
Over an honest source none of these checks ever fails, whatever size the source says that an extent
may be used for. So there is one way to make an arena fault: to ask for some bytes at a power of two
that is out of reach.
-/

namespace Lifespan

/-! ## Arenas -/

namespace Arena

variable {σ : Type} [Source σ] {origin : σ} {a : Arena σ} {size align : Nat} {f : Fault}
  (honest : Source.Honest origin) (sound : a.Sound origin)
include honest sound

/-- A new block that is granted holds the request that it was made for. -/
theorem grow_ne_fault (hsize : 0 < size) (ha : Alignment.IsValid align) (hmax : align ≤ maxAlign)
    (f : Fault) : (a.grow size align).1 ≠ .error (.fault f) := by
  rcases grow_cases honest sound hsize ha hmax with ⟨e, source, hgrow, -⟩ | ⟨b, a', -, hgrow⟩
  · rw [hgrow]
    simp
  · rw [hgrow]
    simp

/-- Existing blocks are searched, and a range in them is claimed, without a fault. -/
theorem exists_reuse (size : Nat) (ha : Alignment.IsValid align) (hmax : align ≤ maxAlign) :
    ∃ found, a.reuse size align = .ok found := by
  rcases reuse_cases honest sound size ha (hmax.trans (by decide)) with
    ⟨hnone, -⟩ | ⟨p, b, -, hsome⟩
  · exact ⟨_, hnone⟩
  · exact ⟨_, hsome⟩

/-- Placing a range faults when its alignment is out of reach, and not otherwise. -/
theorem place_eq_fault_iff (hsize : 0 < size) (ha : Alignment.IsValid align) :
    (a.place size align).1 = .error (.fault f) ↔
      maxAlign < align ∧ f = .alignment align maxAlign := by
  have h := placing honest sound hsize ha
  generalize a.place size align = result at h ⊢
  cases h with
  | misaligned hmax => simp [hmax, eq_comm]
  | reused hmax _ | refused hmax _ _ | grown hmax _ _ => simp [Nat.not_lt.mpr hmax]

end Arena

/-! ## Sessions -/

/-- What is answered at once is no fault. -/
theorem Request.ne_fault_of_plan? {r : Request} {reply : Except Arena.Failure Grant}
    (h : r.plan? = some (.answer reply)) (f : Fault) : reply ≠ .error (.fault f) := by
  rintro rfl
  have hbytes : ∀ size align written, Plan.bytes size align written ≠
      .answer (.error (.fault f)) := by
    intro size align written h
    simp only [Plan.bytes] at h
    split at h
    · cases h
    · split at h <;> cases h
  have hvalues : ∀ {α : Type} (e : Element α) count known, Plan.values e count known ≠
      .answer (.error (.fault f)) := by
    intro α e count known h
    simp only [Plan.values] at h
    split at h
    · cases h
    · split at h <;> cases h
  cases r with
  | allocate | allocateAligned | zeroed => exact hbytes _ _ _ (Option.some.inj h)
  | copySlice s =>
      simp only [plan?, Option.some.injEq] at h
      split at h
      · cases h
      · exact hbytes _ _ _ h
  | concat parts =>
      simp only [plan?, Option.some.injEq] at h
      split at h
      · cases h
      · exact hbytes _ _ _ h
  | array | alloc | allocCopy | allocFill => exact hvalues _ _ _ (Option.some.inj h)
  | write | reset => cases h

namespace Session

variable {σ : Type} [Source σ] {origin : σ} {s : Session σ} {r : Request}

/-- A request that does not come down to a range is answered without a fault. -/
theorem step_ne_fault (hno : ∀ size align, ¬ r.Asks size align) (f : Fault) :
    (s.step r).1 ≠ .error (.fault f) := by
  cases hplan : r.plan? with
  | none =>
      cases r with
      | write slot bytes => simp [step]
      | reset => simp [step]
      | _ => cases hplan
  | some plan =>
      have hend := following (s := s) hplan
      generalize s.step r = next at hend ⊢
      cases hend with
      | answered reply => exact Request.ne_fault_of_plan? hplan f
      | placed _ _ => exact absurd (Request.asks_iff.mpr ⟨_, hplan⟩) (hno _ _)

/-- A step faults when its request comes down to a range whose alignment is out of reach, and not
otherwise. -/
theorem step_eq_fault_iff (honest : Source.Honest origin) (sound : s.arena.Sound origin)
    {f : Fault} : (s.step r).1 = .error (.fault f) ↔
      ∃ size align, r.Asks size align ∧ Arena.maxAlign < align ∧
        f = .alignment align Arena.maxAlign := by
  by_cases hasks : ∃ size align, r.Asks size align
  · obtain ⟨size, align, hasks⟩ := hasks
    obtain ⟨written, hplan⟩ := Request.asks_iff.mp hasks
    have hplace := Arena.place_eq_fault_iff (f := f) honest sound hasks.pos hasks.valid
    have hreply : (s.step r).1 = .error (.fault f) ↔
        (s.arena.place size align).1 = .error (.fault f) := by
      have hend := following (s := s) hplan
      generalize s.step r = next at hend ⊢
      cases hend with
      | @placed _ _ _ result a m hstep =>
          rw [hstep]
          rcases result with f' | p <;> simp [Except.map, record]
    rw [hreply, hplace]
    constructor
    · exact fun h => ⟨size, align, hasks, h⟩
    · rintro ⟨size', align', hasks', h⟩
      cases hasks.demand.symm.trans hasks'.demand
      exact h
  · have hno : ∀ size align, ¬ r.Asks size align := fun size align h => hasks ⟨size, align, h⟩
    simp only [step_ne_fault hno f, hno, false_and, exists_false]

/-- After any history of requests on a new arena over an honest source: the search for a block and
the claim in it pass all checks, and so does a new block for any request within reach; every block
may be used at least as far as was asked for; and no operation that is left to the machine leaves
the range of words. So a request faults exactly when it is for some bytes at a power of two that is
out of reach, with a valid layout if they are values of a type, and says so. -/
theorem only_alignment_faults {config : Config} {source : σ} {a : Arena σ}
    (honest : Source.Honest source) (created : Arena.create? config source = .ok a)
    (requests : List Request) :
    let s := run { arena := a } requests
    (∀ size align, 0 < size → Alignment.IsValid align → align ≤ Arena.maxAlign →
      (∃ found, s.arena.reuse size align = .ok found) ∧
        ∀ f, (s.arena.grow size align).1 ≠ .error (.fault f)) ∧
    (∀ b ∈ s.arena.blocks, b.grant.layout.size ≤ b.capacity) ∧
    (∀ r u n, s.Computes r u n → u.Exact n) ∧
    ∀ r f, (s.step r).1 = .error (.fault f) ↔
      ∃ size align, r.Asks size align ∧ Arena.maxAlign < align ∧
        f = .alignment align Arena.maxAlign := by
  intro s
  have sound : s.arena.Sound source :=
    sound_run (s := { arena := a }) honest (Arena.sound_of_create? created) requests
  have counted : s.arena.Counted source :=
    counted_run (s := { arena := a }) (Arena.counted_of_create? created) requests
  refine ⟨fun size align hsize ha hmax => ⟨?_, ?_⟩, counted.size_le,
    fun r u n h => h.exact counted honest.spaced, fun r f => step_eq_fault_iff honest sound⟩
  · exact Arena.exists_reuse honest sound size ha hmax
  · exact Arena.grow_ne_fault honest sound hsize ha hmax

/-- A source says that its extents may be used for less than was asked for. Values that no block is
aligned for fault, unless they have no layout; the same values at a page do not, nor do bytes that
take a whole block. -/
theorem only_alignment_faults_underreported :
    let source : AddressSpace := { slack := -40, skew := 8 }
    let config : Config := { initialBlockSize := 64 }
    let a : Arena AddressSpace := { config, source, nextBlockSize := 64 }
    let requests : List Request := [.allocateAligned 64 1, .reset, .allocateAligned 3 2,
      .zeroed 5 8192, .allocate 1000]
    let s := run { arena := a } requests
    Source.Honest source ∧ Arena.create? config source = .ok a ∧
      (s.step (.array (Element.blank 48 8192) 3)).1 =
        .error (.fault (.alignment 8192 Arena.maxAlign)) ∧
      (∀ f, (s.step (.array (Element.blank 48 8192) (1 <<< 60))).1 ≠ .error (.fault f)) ∧
      (∀ f, (s.step (.array (Element.blank 48 4096) 3)).1 ≠ .error (.fault f)) ∧
      ∀ f, (s.step (.allocateAligned 64 1)).1 ≠ .error (.fault f) := by
  intro source config a requests s
  have honest := AddressSpace.honest source
  have created : Arena.create? config source = .ok a := rfl
  obtain ⟨-, -, -, hfault⟩ := only_alignment_faults honest created requests
  have hfine : ∀ r : Request, (∀ size align, r.Asks size align → align ≤ Arena.maxAlign) →
      ∀ f, (s.step r).1 ≠ .error (.fault f) := by
    intro r hreach f h
    obtain ⟨size, align, hasks, hmax, -⟩ := (hfault r f).mp h
    exact absurd (hreach size align hasks) (Nat.not_le.mpr hmax)
  refine ⟨honest, created, ?_, hfine _ ?_, hfine _ ?_, hfine _ ?_⟩
  · have hlayout : Layout.Valid ⟨144, 8192⟩ := by decide
    exact (hfault _ _).mpr ⟨144, 8192, ⟨rfl, by decide, by decide, hlayout⟩, by decide, rfl⟩
  · rintro _ _ ⟨⟨⟩, -, -, hlayout⟩
    have hno : ¬ Layout.Valid ⟨1 <<< 60 * 48, 8192⟩ := by decide
    exact absurd hlayout hno
  · rintro _ _ ⟨⟨⟩, -, -, -⟩
    exact Nat.le_refl _
  · rintro _ _ ⟨⟨⟩, -, -, -⟩
    decide

end Session

end Lifespan
