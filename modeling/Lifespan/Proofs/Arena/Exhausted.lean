import Lifespan.Proofs.Arena.Accounting
import Lifespan.Proofs.Arena.Limit

/-!
# Exhausted arenas

When the memory limit does not admit the next block of the growth policy, it admits no block at all:
a block that is made for one large request is larger still. No request then changes what the
decision rests on, since without a new block neither the bytes of all blocks nor the running size
changes. So an arena that has refused a block of the policy for the sake of its limit makes no block
any more. From then on its source is not asked for anything, and may behave in any way.
-/

namespace Lifespan

namespace Arena

variable {σ : Type} {a b : Arena σ} {size align : Nat}

/-- The limit does not admit the next block of the policy. -/
def Exhausted (a : Arena σ) : Prop := ∃ limit, a.violatedLimit? a.nextBlockSize = some limit

/-- An exhausted arena orders no block, of whatever size. -/
theorem Exhausted.order_eq_error (h : a.Exhausted) (size : Nat) (ha : Alignment.IsValid align)
    (hmax : align ≤ maxAlign) : ∃ e, a.order size align = .error e := by
  obtain ⟨limit, hlimit⟩ := h
  obtain ⟨hconfig, hover⟩ := violatedLimit?_eq_some_iff.mp hlimit
  cases horder : a.order size align with
  | error e => exact ⟨e, rfl⟩
  | ok layout =>
      obtain ⟨-, hadmitted, -⟩ := order_eq_ok_iff.mp horder
      have hle := (isDue_of_order ha hmax horder).nextBlockSize_le
      obtain ⟨hword, hwithin⟩ := violatedLimit?_eq_none_iff.mp hadmitted limit hconfig
      omega

/-! ## What stays as it is -/

/-- Two arenas hold the same blocks, with anything in them, from the same source. -/
structure SameHoldings (a b : Arena σ) : Prop where
  config : b.config = a.config
  source : b.source = a.source
  grants : b.grants = a.grants
  memoryBytes : b.memoryBytes = a.memoryBytes
  nextBlockSize : b.nextBlockSize = a.nextBlockSize

theorem SameHoldings.refl (a : Arena σ) : a.SameHoldings a := ⟨rfl, rfl, rfl, rfl, rfl⟩

theorem SameHoldings.blocks_length (h : a.SameHoldings b) : b.blocks.length = a.blocks.length := by
  have hlength := congrArg List.length h.grants
  simpa only [Arena.grants, List.length_map] using hlength

/-- Whether an arena is exhausted is a matter of what it holds. -/
theorem SameHoldings.exhausted (h : a.SameHoldings b) (ha : a.Exhausted) : b.Exhausted := by
  obtain ⟨limit, hlimit⟩ := ha
  refine ⟨limit, ?_⟩
  rw [violatedLimit?_eq_some_iff] at hlimit ⊢
  rwa [h.config, h.memoryBytes, h.nextBlockSize]

theorem SameHoldings.withMemory (h : a.SameHoldings b) (m : Memory) :
    a.SameHoldings { b with memory := m } :=
  ⟨h.config, h.source, h.grants, h.memoryBytes, h.nextBlockSize⟩

theorem SameHoldings.reset (h : a.SameHoldings b) : a.SameHoldings b.reset :=
  ⟨h.config, h.source, (grants_reset b).trans h.grants, h.memoryBytes, h.nextBlockSize⟩

variable [Source σ]

/-- An exhausted arena places a range in an existing block, or stays as it is. -/
theorem Exhausted.place (h : a.Exhausted) (size : Nat) (ha : Alignment.IsValid align) :
    (∃ f, a.place size align = (.error f, a)) ∨
      ∃ p a', a.reuse size align = .ok (some (p, a')) ∧
        a.place size align = (.ok p, a'.charge size) := by
  simp only [Arena.place]
  split
  · exact Or.inl ⟨_, rfl⟩
  · next hmax =>
    rcases a.reuse size align with f | _ | ⟨p, a'⟩
    · exact Or.inl ⟨_, rfl⟩
    · obtain ⟨e, horder⟩ := h.order_eq_error size ha (Nat.le_of_not_lt hmax)
      simp only [grow_eq, horder]
      exact Or.inl ⟨_, rfl⟩
    · exact Or.inr ⟨p, a', rfl, rfl⟩

/-- To place a range leaves an exhausted arena with what it holds. -/
theorem SameHoldings.place (h : a.SameHoldings b) (hexhausted : a.Exhausted)
    (ha : Alignment.IsValid align) : a.SameHoldings (b.place size align).2 := by
  rcases (h.exhausted hexhausted).place size ha with ⟨f, hplace⟩ | ⟨p, b', hreuse, hplace⟩
  · rwa [hplace]
  · obtain ⟨c, index, hc, -, -, rfl⟩ := reuse_of_ok hreuse
    have hgrants : (b.blocks.set p.block { c with cursor := p.offset + size }).map Block.grant =
        b.blocks.map Block.grant := map_set_of_eq hc rfl
    rw [hplace]
    exact ⟨h.config, h.source, hgrants.trans h.grants, h.memoryBytes, h.nextBlockSize⟩

/-- If no block comes about for a request that is not large, for the sake of the limit, then the
arena is exhausted. -/
theorem exhausted_of_place (hle : size ≤ a.nextBlockSize)
    (h : OverLimit (a.place size align).1) : a.Exhausted := by
  obtain ⟨-, -, hgrow⟩ := overLimit_place_iff.mp h
  obtain ⟨requested, limit, horder⟩ := overLimit_grow_iff.mp hgrow
  obtain ⟨-, blockSize, hblock, hlimit⟩ := order_eq_capacityExceeded_iff.mp horder
  have hpolicy : a.newBlockSize? size align = some a.nextBlockSize := if_neg (Nat.not_lt.mpr hle)
  rw [hpolicy] at hblock
  cases hblock
  exact ⟨limit, hlimit⟩

end Arena

/-! ## Sessions -/

open Arena (OverLimit)

/-- No request is refused for the sake of the limit before a block is looked for. -/
theorem Request.not_overLimit_of_plan? {r : Request} {reply : Except Arena.Failure Grant}
    (h : r.plan? = some (.answer reply)) : ¬ OverLimit reply := by
  cases r <;> simp only [plan?, Plan.bytes, Plan.values] at h <;> grind [OverLimit]

namespace Session

variable {σ : Type} [Source σ] {s : Session σ} {a : Arena σ}

theorem exhausted_of_step {r : Request} {size align : Nat} (hr : r.demand? = some (size, align))
    (hle : size ≤ s.arena.nextBlockSize) (h : OverLimit (s.step r).1) : s.arena.Exhausted := by
  cases hplan : r.plan? with
  | none => cases r <;> cases hplan <;> cases hr
  | some plan =>
      rw [step_eq_follow hplan] at h
      cases plan with
      | answer reply => exact absurd h (Request.not_overLimit_of_plan? hplan)
      | place n m written =>
          obtain ⟨hdemand, -, -⟩ := Request.demand?_of_plan? hplan
          rw [hr] at hdemand
          cases hdemand
          exact Arena.exhausted_of_place hle (overLimit_follow_iff.mp h)

/-- No history of requests changes what an exhausted arena holds. -/
theorem sameHoldings_run (hexhausted : a.Exhausted) (h : a.SameHoldings s.arena)
    (requests : List Request) : a.SameHoldings (s.run requests).arena :=
  run_induction (P := fun s => a.SameHoldings s.arena)
    (fun _ r h => step_keeps (fun m h => h.withMemory m) (fun h => h.reset)
      (fun _ ha h => h.place hexhausted ha) h r) h requests

/-- A request for some bytes is served from an existing block of an exhausted arena, or it fails and
leaves everything as it was. -/
theorem step_of_exhausted (h : s.arena.Exhausted) {r : Request} {size align : Nat}
    (hr : r.demand? = some (size, align)) (hsize : 0 < size) :
    (∃ f, s.step r = (.error f, s)) ∨
      ∃ i p, (s.step r).1 = .ok (.placed i p) ∧ p.block < s.arena.blocks.length := by
  have hmove := s.step_moving r
  generalize s.step r = next at hmove
  cases hmove with
  | reset => cases hr
  | write => cases hr
  | @unplaced _ _ _ _ _ reply hr' hreserve hno _ hfailure =>
      rw [hr] at hr'
      cases hr'
      cases hreserve with
      | empty hempty => exact absurd hempty (Nat.ne_of_gt hsize)
      | rejected e => exact Or.inl ⟨.error e, by rw [(hfailure (.error e)).mpr rfl]⟩
      | @failed f _ _ ha hplace =>
          refine Or.inl ⟨f, ?_⟩
          rcases h.place size ha with ⟨f', hstay⟩ | ⟨p, a', -, hplaced⟩
          · rw [hstay] at hplace
            cases hplace
            rw [(hfailure f).mpr rfl]
          · rw [hplaced] at hplace
            cases hplace
      | placed _ _ _ _ => exact absurd rfl (hno _)
  | @placed _ _ _ _ _ p hr' hreserve =>
      rw [hr] at hr'
      cases hr'
      refine Or.inr ⟨_, p, rfl, ?_⟩
      cases hreserve with
      | placed _ _ ha hplace =>
          rcases h.place size ha with ⟨f, hstay⟩ | ⟨q, a', hreuse, hplaced⟩
          · rw [hstay] at hplace
            cases hplace
          · rw [hplaced] at hplace
            cases hplace
            obtain ⟨b, -, hb, -⟩ := Arena.reuse_of_ok hreuse
            exact (List.getElem?_eq_some_iff.mp hb).1

/-- Once a request that is not larger than the running size has been refused for the sake of the
memory limit, that is final. Whatever is asked for afterwards, and however a source behaves from
then on, no block is made: the blocks, the bytes that they have, the running size and the source
stay as they are. Every request for some bytes is served from one of these blocks, or it fails and
leaves everything as it was. -/
theorem policy_refusal_final {r : Request} {size align : Nat} (hr : r.demand? = some (size, align))
    (hle : size ≤ s.arena.nextBlockSize) (hrefused : OverLimit (s.step r).1) :
    let s' := (s.step r).2
    ∀ (other : Source σ) (later : List Request),
      let t := @run σ other s' later
      t.arena.grants = s.arena.grants ∧ t.arena.blocks.length = s.arena.blocks.length ∧
        t.arena.memoryBytes = s.arena.memoryBytes ∧
        t.arena.nextBlockSize = s.arena.nextBlockSize ∧ t.arena.source = s.arena.source ∧
        ∀ q n m, q.demand? = some (n, m) → 0 < n →
          (∃ f, @step σ other t q = (.error f, t)) ∨
            ∃ i p, (@step σ other t q).1 = .ok (.placed i p) ∧ p.block < t.arena.blocks.length := by
  intro s'
  have hexhausted := exhausted_of_step hr hle hrefused
  have hstep : s.arena.SameHoldings s'.arena := sameHoldings_run hexhausted (.refl _) [r]
  intro other later t
  have hrun : s.arena.SameHoldings t.arena := sameHoldings_run hexhausted hstep later
  refine ⟨hrun.grants, hrun.blocks_length, hrun.memoryBytes, hrun.nextBlockSize, hrun.source, ?_⟩
  intro q n m hq hn
  exact step_of_exhausted (hrun.exhausted hexhausted) hq hn

/-- The limit does not admit a third block of the policy. Not even a source that grants the same
extent over and over is asked for another one. -/
theorem policy_refusal_final_any_source :
    let config : Config := { initialBlockSize := 64, growth := .linear 32, memoryLimit := some 320 }
    let a : Arena AddressSpace := { config, source := { slack := 24 }, nextBlockSize := 64 }
    let s := run { arena := a } [.allocate 5, .zeroed 100 2, .array Element.uint64 12]
    let s' := (s.step (.allocate 90)).2
    s.arena.nextBlockSize = 128 ∧
    (s.step (.allocate 90)).1 = .error (.error (.capacityExceeded 90 320)) ∧
    let other : Source AddressSpace :=
      ⟨fun _ a => (some 4096, a), fun _ _ a => a, fun _ _ => 1 <<< 20⟩
    let later : List Request := [.allocate 3, .reset, .zeroed 200 8, .allocate (1 <<< 64 - 8)]
    let t := @run _ other s' later
    t.arena.grants = [⟨4096, ⟨64, 16⟩⟩, ⟨8192, ⟨112, 16⟩⟩, ⟨12288, ⟨96, 16⟩⟩] ∧
    t.arena.grants = s.arena.grants ∧ t.arena.memoryBytes = s.arena.memoryBytes ∧
    t.arena.nextBlockSize = s.arena.nextBlockSize ∧
    (@step _ other t (.allocate 136)).1 = .ok (.placed 0 ⟨1, 0⟩) ∧
    (@step _ other t (.allocate 137)).1 = .error (.error (.capacityExceeded 137 320)) ∧
    (@step _ other t (.allocate (1 <<< 64 - 8))).1 =
      .error (.error (.outOfMemory (1 <<< 64 - 8) (1 <<< 64 - 8))) := by
  intro config a s s'
  have hnext : s.arena.nextBlockSize = 128 := by decide +kernel
  have hreply : (s.step (.allocate 90)).1 = .error (.error (.capacityExceeded 90 320)) := by
    decide +kernel
  have hle : 90 ≤ s.arena.nextBlockSize := by
    rw [hnext]
    decide
  have hfinal := policy_refusal_final (s := s) (r := .allocate 90) rfl hle ⟨90, 320, hreply⟩
  refine ⟨hnext, hreply, ?_⟩
  intro other later t
  have hblocks : t.arena.grants =
      [⟨4096, ⟨64, 16⟩⟩, ⟨8192, ⟨112, 16⟩⟩, ⟨12288, ⟨96, 16⟩⟩] := by decide +kernel
  have hserved : (@step _ other t (.allocate 136)).1 = .ok (.placed 0 ⟨1, 0⟩) := by decide +kernel
  have hlarge : (@step _ other t (.allocate 137)).1 =
      .error (.error (.capacityExceeded 137 320)) := by decide +kernel
  have hhuge : (@step _ other t (.allocate (1 <<< 64 - 8))).1 =
      .error (.error (.outOfMemory (1 <<< 64 - 8) (1 <<< 64 - 8))) := by decide +kernel
  obtain ⟨hgrants, -, hmemory, hsame, -, -⟩ := hfinal other later
  refine ⟨hblocks, hgrants, ?_, ?_, hserved, hlarge, hhuge⟩
  -- Written out, so that they are compared without being evaluated.
  · dsimp only [t, s']
    exact hmemory
  · dsimp only [t, s']
    exact hsame

end Session

end Lifespan
