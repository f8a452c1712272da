import Lifespan.Proofs.Arena.Settling
import Lifespan.Proofs.Source.Layers

/-!
# Requests that yield no range

Whatever a request has changed by the time at which it fails would be seen afterwards. It has
changed nothing: all checks come before the first change, and the last thing that can fail, asking
the source for a block, is also the first thing that is done to it. This does not rest on any
promise of the source.
-/
namespace Lifespan

/-! ## Arenas -/

namespace Arena

variable {σ : Type} [Source σ] {a a' : Arena σ} {size align : Nat} {f : Failure}

/-- A failure that a user has to reckon with: an error, or an alignment out of reach. -/
inductive Failure.Foreseen : Failure → Prop where
  | error (e : Error) : Foreseen (.error e)
  | alignment (align maximum : Nat) : Foreseen (.fault (.alignment align maximum))

/-- Nothing has changed, but what the source counts of the requests that it refuses. -/
structure Traceless (a a' : Arena σ) : Prop where
  books : a' = { a with source := a'.source }
  source : Source.Ungranted a.source a'.source

theorem Traceless.refl (a : Arena σ) : a.Traceless a := ⟨rfl, Or.inl rfl⟩

/-- A new block that cannot hold the request it was made for is not a failure to reckon with. -/
theorem openBlock_unforeseen {grant : Source.Grant} {capacity : Nat} {fault : Fault}
    (h : openBlock grant capacity size align = .error fault) :
    ¬ Failure.Foreseen (.fault fault) := by
  rintro ⟨_⟩
  simp only [openBlock] at h
  split at h
  · cases h
  · split at h
    · next hclaim =>
      cases h
      simp only [Block.claim] at hclaim
      split at hclaim
      · cases hclaim
      · split at hclaim
        · cases hclaim
        · split at hclaim <;> cases hclaim
    · cases h

/-- How a new block can fail to come about: before the source is asked for it, or because the source
refuses it. -/
theorem grow_refusal (h : a.grow size align = (.error f, a')) (hf : f.Foreseen) :
    a' = a ∨ ∃ layout source, a.order size align = .ok layout ∧
      Source.allocate layout a.source = (none, source) ∧ a' = { a with source } := by
  rw [grow_eq] at h
  cases horder : a.order size align with
  | error e =>
      rw [horder] at h
      cases h
      exact Or.inl rfl
  | ok layout =>
      have htaking := a.taking layout size align
      simp only [horder] at h
      rw [h] at htaking
      cases htaking with
      | refused halloc => exact Or.inr ⟨layout, _, rfl, halloc, rfl⟩
      | faulted _ hopen => exact absurd hf (openBlock_unforeseen hopen)

/-- Without a new block nothing has changed. -/
theorem grow_traceless (hsize : 0 < size) (ha : Alignment.IsValid align)
    (hmax : align ≤ maxAlign) (h : a.grow size align = (.error f, a')) (hf : f.Foreseen) :
    a.Traceless a' := by
  rcases grow_refusal h hf with rfl | ⟨layout, _, horder, halloc, rfl⟩
  · exact .refl _
  · obtain ⟨hvalid, hpos, -⟩ := order_of_ok ha hmax horder hsize
    exact ⟨rfl, Or.inr ⟨layout, hvalid, hpos, halloc⟩⟩

/-- Without a range nothing has changed. -/
theorem place_traceless (hsize : 0 < size) (ha : Alignment.IsValid align)
    (h : a.place size align = (.error f, a')) (hf : f.Foreseen) : a.Traceless a' := by
  simp only [place] at h
  split at h
  · cases h
    exact .refl a
  · next hmax =>
    split at h
    · cases h
      exact .refl a
    · cases h
    · split at h
      · next hgrow =>
        cases h
        exact grow_traceless hsize ha (Nat.le_of_not_lt hmax) hgrow hf
      · cases h

/-- A form of request that yields no range leaves no trace. -/
theorem Reserving.traceless {result : Except Failure (Option Placement)}
    (h : a.Reserving size align (result, a')) (hno : ∀ p, result ≠ .ok (some p))
    (hf : ∀ f, result = .error f → f.Foreseen) :
    a.Traceless a' := by
  cases h with
  | empty _ => exact .refl a
  | rejected _ => exact .refl a
  | failed hsize ha hplace => exact place_traceless hsize ha hplace (hf _ rfl)
  | placed _ _ _ _ => exact absurd rfl (hno _)

end Arena

/-! ## Sessions -/

namespace Session

variable {σ : Type} [Source σ] {s : Session σ} {r : Request} {size align : Nat}

/-- The replies to a request for some bytes at an alignment that yield no range. -/
inductive Fruitless (size align : Nat) : Except Arena.Failure Grant → Prop where
  | empty {g : Grant} : size = 0 → (∀ i p, g ≠ .placed i p) → Fruitless size align (.ok g)
  | refused (e : Arena.Error) : Fruitless size align (.error (.error e))
  | misaligned : Arena.maxAlign < align →
    Fruitless size align (.error (.fault (.alignment align Arena.maxAlign)))

/-- A request that yields no range leaves no trace. -/
theorem step_traceless (hr : r.demand? = some (size, align))
    (h : Fruitless size align (s.step r).1) :
    (s.step r).2.slots = s.slots ∧ s.arena.Traceless (s.step r).2.arena := by
  have hmove := s.step_moving r
  generalize s.step r = next at hmove h
  cases hmove with
  | reset => contradiction
  | write => contradiction
  | unplaced _ hreserve hno _ hfailure =>
      refine ⟨rfl, hreserve.traceless hno fun f hf => ?_⟩
      have hf := (hfailure f).mpr hf
      dsimp only at h
      rw [hf] at h
      cases h with
      | refused e => exact .error e
      | misaligned _ => exact .alignment _ _
  | placed _ _ =>
      cases h with
      | empty _ hno => exact absurd rfl (hno _ _)

/-- Over an honest source a request yields a range, or one of the replies that yield none. -/
theorem step_fruitless {origin : σ} (honest : Source.Honest origin)
    (sound : s.arena.Sound origin) (hr : r.demand? = some (size, align)) :
    (∃ i p, (s.step r).1 = .ok (.placed i p)) ∨ Fruitless size align (s.step r).1 := by
  have hmove := s.step_moving r
  generalize s.step r = next at hmove
  cases hmove with
  | reset => contradiction
  | write => contradiction
  | @unplaced _ _ _ _ _ reply hr' hreserve hno hreply hfailure =>
      rw [hr] at hr'
      cases hr'
      refine Or.inr ?_
      cases hreserve with
      | empty hsize =>
          rcases reply with f | g
          · exact absurd ((hfailure f).mp rfl) (by simp)
          · exact .empty hsize fun i p h => hreply i p (by rw [h])
      | rejected e =>
          dsimp only
          rw [(hfailure _).mpr rfl]
          exact .refused e
      | failed hsize ha hplace =>
          have hplacing := Arena.placing honest sound hsize ha
          rw [hplace] at hplacing
          dsimp only
          rw [(hfailure _).mpr rfl]
          cases hplacing with
          | misaligned hmax => exact .misaligned hmax
          | refused _ _ _ => exact .refused _
      | placed _ _ _ _ => exact absurd rfl (hno _)
  | placed _ _ => exact Or.inl ⟨_, _, rfl⟩

/-- After any history of requests on a new arena, let a request for a range be answered with an
error, with the fault of an alignment out of reach, or with nothing because it was for no bytes;
over an honest source these are all the answers without a range. Then the blocks with their cursors
and contents, the index, the running size and the counters are as they were, and so are the ranges;
the same extents are held from the source, of which no block was granted or given back; and a budget
within the source has the same counts, up to one more refusal. -/
theorem failed_without_trace {config : Config} {source : σ} {arena : Arena σ}
    (created : Arena.create? config source = .ok arena) (requests : List Request)
    (hr : r.demand? = some (size, align)) :
    let s := run { arena } requests
    let reply := (s.step r).1
    let s' := (s.step r).2
    (Source.Honest source → (∃ i p, reply = .ok (.placed i p)) ∨ Fruitless size align reply) ∧
      (Fruitless size align reply →
        s'.slots = s.slots ∧ s'.arena = { s.arena with source := s'.arena.source } ∧
        Source.Ungranted s.arena.source s'.arena.source ∧
        (∀ origin held, Source.History origin s.arena.source held →
          Source.History origin s'.arena.source held) ∧
        ∀ {τ : Type} [Source τ] (within : σ → Budgeted τ), Source.Passes within →
          let b := within s.arena.source
          let b' := within s'.arena.source
          b'.budget = b.budget ∧ b'.used = b.used ∧ b'.live = b.live ∧
            b.refusals ≤ b'.refusals ∧ b'.refusals ≤ b.refusals + 1) := by
  intro s reply s'
  refine ⟨fun honest => ?_, fun hfruitless => ?_⟩
  · have sound : s.arena.Sound source :=
      sound_run honest (Arena.sound_of_create? created) requests
    exact step_fruitless honest sound hr
  · obtain ⟨hslots, htrace⟩ := step_traceless hr hfruitless
    refine ⟨hslots, htrace.books, htrace.source, fun _ _ h => h.of_ungranted htrace.source, ?_⟩
    intro τ _ within hpasses
    obtain ⟨hcounts, hle, hge, _⟩ := Budgeted.eq_of_ungranted (hpasses htrace.source)
    refine ⟨?_, ?_, ?_, hle, hge⟩
    · rw [hcounts]
    · rw [hcounts]
    · rw [hcounts]

/-- A request for forty numbers that exceeds a budget, after another one that did. -/
theorem failed_without_trace_over_budget :
    let source : Budgeted AddressSpace := { budget := 300, inner := {} }
    let config : Config := { initialBlockSize := 64 }
    let arena : Arena (Budgeted AddressSpace) := { config, source, nextBlockSize := 64 }
    let requests : List Request := [.allocate 24, .zeroed 200 8, .reset, .allocateAligned 8 8192,
      .copySlice ⟨[1, 2, 3]⟩, .allocate 1000]
    let s := run { arena } requests
    let r : Request := .array Element.uint64 40
    let s' := (s.step r).2
    Arena.create? config source = .ok arena ∧ r.demand? = some (320, 8) ∧
      Source.Honest source ∧ (s.step r).1 = .error (.error (.outOfMemory 320 320)) ∧
      s'.slots = s.slots ∧ s'.arena = { s.arena with source := s'.arena.source } ∧
      s'.arena.source.used = s.arena.source.used ∧ s'.arena.source.live = s.arena.source.live ∧
      s.arena.source.refusals = 1 ∧ s'.arena.source.refusals = 2 := by
  intro source config arena requests s r s'
  have created : Arena.create? config source = .ok arena := rfl
  have hreply : (s.step r).1 = .error (.error (.outOfMemory 320 320)) := by decide +kernel
  have hbefore : s.arena.source.refusals = 1 := by decide +kernel
  have hafter : s'.arena.source.refusals = 2 := by decide +kernel
  have hr : r.demand? = some (320, 8) := rfl
  obtain ⟨_, htrace⟩ := failed_without_trace created requests hr
  have hfruitless : Fruitless 320 8 (s.step r).1 := by
    rw [hreply]
    exact .refused _
  obtain ⟨hslots, hbooks, _, _, hbudget⟩ := htrace hfruitless
  obtain ⟨_, hused, hlive, _, _⟩ := hbudget id Source.passes_id
  simp only [id] at hused hlive
  have honest : Source.Honest source := Budgeted.honest (AddressSpace.honest source.inner)
  dsimp only [s', s] at hreply hbefore hafter ⊢
  exact ⟨created, hr, honest, hreply, hslots, hbooks, hused, hlive, hbefore, hafter⟩

end Session

end Lifespan
