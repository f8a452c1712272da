import Lifespan.Proofs.Arena.Plans
import Lifespan.Proofs.Arena.Settling
import Lifespan.Source.AddressSpace

/-!
# The memory limit

The limit is looked at in one place, before a block is ordered, and the answer is either a refusal
or nothing at all. So the bytes of all blocks never exceed it, whatever the source does; and as long
as no request has been refused for its sake, an arena that has a limit goes through the same states
as one that has none.
-/

namespace Lifespan

namespace Arena

variable {σ : Type} {α : Type} {a : Arena σ} {size align limit : Nat} {layout : Layout}

/-! ## Within the limit -/

/-- The blocks of an arena are within its limit. -/
structure Within (limit : Nat) (a : Arena σ) : Prop where
  memoryLimit : a.config.memoryLimit = some limit
  memoryBytes_le : a.memoryBytes ≤ limit

/-- An arena is within its limit to begin with. -/
theorem within_of_create? {config : Config} {source : σ} (h : create? config source = .ok a)
    (hlimit : config.memoryLimit = some limit) : a.Within limit := by
  obtain ⟨-, rfl⟩ := create?_eq_ok_iff.mp h
  exact ⟨hlimit, Nat.zero_le limit⟩

section Place

variable [Source σ]

/-- What is ordered within the limit is taken within the limit. -/
theorem Within.take (h : a.Within limit) (horder : a.order size align = .ok layout) :
    (a.take layout size align).2.Within limit := by
  obtain ⟨-, hadmitted, -⟩ := order_eq_ok_iff.mp horder
  obtain ⟨-, hle⟩ := violatedLimit?_eq_none_iff.mp hadmitted limit h.memoryLimit
  have htaking := a.taking layout size align
  generalize a.take layout size align = result at htaking ⊢
  cases htaking with
  | refused _ | faulted _ _ => exact ⟨h.memoryLimit, h.memoryBytes_le⟩
  | opened _ _ => exact ⟨h.memoryLimit, hle⟩

theorem Within.grow (h : a.Within limit) : (a.grow size align).2.Within limit := by
  rw [grow_eq]
  cases horder : a.order size align with
  | error e => exact h
  | ok layout => exact h.take horder

/-- Placing a range keeps the blocks within the limit, whatever the source does. -/
theorem Within.place (h : a.Within limit) : (a.place size align).2.Within limit := by
  simp only [Arena.place]
  split
  · exact h
  · split
    · exact h
    · next hreuse =>
      obtain ⟨b, index, -, -, -, rfl⟩ := reuse_of_ok hreuse
      exact ⟨h.memoryLimit, h.memoryBytes_le⟩
    · have hgrow : (a.grow size align).2.Within limit := h.grow
      rcases hresult : a.grow size align with ⟨f | p, a'⟩
      · rwa [hresult] at hgrow
      · rw [hresult] at hgrow
        exact ⟨hgrow.memoryLimit, hgrow.memoryBytes_le⟩

end Place

/-! ## Without the limit -/

/-- A reply that refuses a request for the sake of the limit. -/
def OverLimit (reply : Except Failure α) : Prop :=
  ∃ requested limit, reply = .error (.error (.capacityExceeded requested limit))

/-- It does not matter what the refused request was to yield. -/
@[simp] theorem overLimit_error_iff {f : Failure} :
    OverLimit (.error f : Except Failure α) ↔
      ∃ requested limit, f = .error (.capacityExceeded requested limit) := by
  simp only [OverLimit, Except.error.injEq]

@[simp] theorem not_overLimit_ok (x : α) : ¬ OverLimit (.ok x : Except Failure α) := by
  rintro ⟨requested, limit, h⟩
  cases h

section Place

variable [Source σ]

/-- The source refuses nothing for the sake of the limit. -/
theorem not_overLimit_take (a : Arena σ) (layout : Layout) (size align : Nat) :
    ¬ OverLimit (a.take layout size align).1 := by
  have h := a.taking layout size align
  generalize a.take layout size align = result at h ⊢
  cases h <;> simp

/-- Of a new block, the order is refused. -/
theorem overLimit_grow_iff : OverLimit (a.grow size align).1 ↔
    ∃ requested limit, a.order size align = .error (.capacityExceeded requested limit) := by
  rw [grow_eq]
  cases a.order size align with
  | error e => simp
  | ok layout => simp [not_overLimit_take]

/-- Of a range, the new block is refused that no other block makes unnecessary. -/
theorem overLimit_place_iff : OverLimit (a.place size align).1 ↔
    align ≤ maxAlign ∧ a.reuse size align = .ok none ∧ OverLimit (a.grow size align).1 := by
  simp only [place]
  split
  · next hmax => simp [Nat.not_le.mpr hmax]
  · next hmax =>
    rw [and_iff_right (Nat.le_of_not_lt hmax)]
    rcases a.reuse size align with f | _ | ⟨p, a'⟩
    · simp
    · rcases a.grow size align with ⟨f | p, a'⟩ <;> simp
    · simp

end Place

/-- The arena without its limit. -/
def unlimited (a : Arena σ) : Arena σ := { a with config := { a.config with memoryLimit := none } }

/-- Without a limit, that is all that a new arena lacks. -/
theorem create?_unlimited {config : Config} {source : σ} (h : create? config source = .ok a) :
    create? { config with memoryLimit := none } source = .ok a.unlimited := by
  obtain ⟨hvalid, rfl⟩ := create?_eq_ok_iff.mp h
  refine create?_eq_ok_iff.mpr ⟨?_, rfl⟩
  simp only [Config.Valid, Config.flaw?] at hvalid ⊢
  split_ifs at hvalid ⊢
  rfl

/-- Existing blocks are searched without regard to the limit. -/
theorem reuse_unlimited (a : Arena σ) (size align : Nat) :
    a.unlimited.reuse size align =
      (a.reuse size align).map (Option.map fun found => (found.1, found.2.unlimited)) := by
  simp only [reuse, unlimited]
  rcases a.index.search a.blocks size align with f | _ | ⟨room, offset⟩
  · rfl
  · rfl
  · dsimp only
    cases a.blocks[room.block]? with
    | none => rfl
    | some b =>
        dsimp only
        cases b.claim offset size with
        | error f => rfl
        | ok c => rfl

/-- What may be ordered under a limit may be ordered without one, and other refusals stay. -/
theorem order_unlimited
    (h : ∀ requested limit, a.order size align ≠ .error (.capacityExceeded requested limit)) :
    a.unlimited.order size align = a.order size align := by
  have hnewSize : a.unlimited.newBlockSize? size align = a.newBlockSize? size align := rfl
  have hnone : ∀ blockSize, a.unlimited.violatedLimit? blockSize = none := fun _ => rfl
  simp only [order, hnewSize, hnone] at h ⊢
  cases hblock : a.newBlockSize? size align with
  | none => rfl
  | some blockSize =>
      cases hlimit : a.violatedLimit? blockSize with
      | none => simp only [hlimit]
      | some limit =>
          simp only [hblock, hlimit] at h
          exact absurd rfl (h size limit)

section Place

variable [Source σ]

/-- An order is taken to the source without regard to the limit. -/
theorem take_unlimited (a : Arena σ) (layout : Layout) (size align : Nat) :
    a.unlimited.take layout size align =
      ((a.take layout size align).1, (a.take layout size align).2.unlimited) := by
  simp only [take, unlimited]
  rcases Source.allocate layout a.source with ⟨_ | base, source⟩
  · rfl
  · dsimp only
    split <;> rfl

theorem grow_unlimited (h : ¬ OverLimit (a.grow size align).1) :
    a.unlimited.grow size align = ((a.grow size align).1, (a.grow size align).2.unlimited) := by
  have horder : a.unlimited.order size align = a.order size align :=
    order_unlimited fun requested limit hover =>
      h (overLimit_grow_iff.mpr ⟨requested, limit, hover⟩)
  rw [grow_eq, grow_eq, horder]
  cases a.order size align with
  | error e => rfl
  | ok layout => exact a.take_unlimited layout size align

/-- A range that is not refused for the sake of the limit is placed as without it. -/
theorem place_unlimited (h : ¬ OverLimit (a.place size align).1) :
    a.unlimited.place size align = ((a.place size align).1, (a.place size align).2.unlimited) := by
  rw [overLimit_place_iff] at h
  simp only [place]
  split
  · rfl
  · next hmax =>
    rw [reuse_unlimited]
    rcases hreuse : a.reuse size align with f | _ | ⟨p, a'⟩
    · rfl
    · have hgrow : ¬ OverLimit (a.grow size align).1 := fun hover =>
        h ⟨Nat.le_of_not_lt hmax, hreuse, hover⟩
      simp only [Except.map, Option.map, grow_unlimited hgrow]
      rcases a.grow size align with ⟨f | p, a'⟩ <;> rfl
    · rfl

end Place

/-! ### Writing -/

/-- Cells are written without regard to the limit. -/
theorem writeAt_unlimited (a : Arena σ) (p : Placement) (offset : Nat) (cells : List Cell) :
    a.unlimited.writeAt p offset cells = (a.writeAt p offset cells).unlimited := by
  have haddress : a.unlimited.address? p = a.address? p := rfl
  simp only [writeAt, haddress]
  cases a.address? p <;> rfl

theorem writeParts_unlimited (p : Placement) (written : Nat) (parts : List Slice) (a : Arena σ) :
    writeParts p written parts a.unlimited = (writeParts p written parts a).unlimited := by
  induction parts generalizing written a with
  | nil => rfl
  | cons part rest ih => rw [writeParts, writeParts, writeAt_unlimited, ih]

end Arena

open Arena (OverLimit)

/-- A range is filled without regard to the limit. -/
theorem Request.fill_unlimited {σ : Type} (r : Request) (p : Placement) (a : Arena σ) :
    r.fill p a.unlimited = (r.fill p a).unlimited := by
  cases r with
  | zeroed | copySlice | alloc | allocCopy | allocFill => exact a.writeAt_unlimited p 0 _
  | concat parts => exact Arena.writeParts_unlimited p 0 parts a
  | allocate | allocateAligned | array | write | reset => rfl

/-! ## Sessions -/

namespace Session

variable {σ : Type} {s : Session σ}

/-- The session without the limit of its arena. -/
def unlimited (s : Session σ) : Session σ := { s with arena := s.arena.unlimited }

theorem write_unlimited (s : Session σ) (slot : Nat) (bytes : Bytes) :
    s.unlimited.write slot bytes = (s.write slot bytes).unlimited := by
  simp only [write, unlimited]
  cases s.slots[slot]? with
  | none => rfl
  | some range =>
      dsimp only
      split
      · rw [Arena.writeAt_unlimited]
      · rfl

variable [Source σ]

/-- The replies to a history of requests. -/
def replies (s : Session σ) : List Request → List (Except Arena.Failure Grant)
  | [] => []
  | r :: rest => (s.step r).1 :: (s.step r).2.replies rest

theorem overLimit_follow_iff {fill : Placement → Arena σ → Arena σ} {size align written : Nat} :
    OverLimit (s.follow fill (.place size align written)).1 ↔
      OverLimit (s.arena.place size align).1 := by
  simp only [follow]
  rcases s.arena.place size align with ⟨f | p, a⟩ <;> simp [record]

/-- A plan is followed as without the limit, unless it is refused for the sake of the limit. -/
theorem follow_unlimited {fill : Placement → Arena σ → Arena σ} {plan : Plan}
    (hfill : ∀ p a, fill p a.unlimited = (fill p a).unlimited)
    (h : ¬ OverLimit (s.follow fill plan).1) :
    s.unlimited.follow fill plan = ((s.follow fill plan).1, (s.follow fill plan).2.unlimited) := by
  cases plan with
  | answer reply => rfl
  | place size align written =>
      rw [overLimit_follow_iff] at h
      simp only [follow, unlimited, Arena.place_unlimited h]
      rcases s.arena.place size align with ⟨f | p, a⟩
      · rfl
      · simp only [hfill]
        rfl

/-- A request that is not refused for the sake of the limit is carried out as without it. -/
theorem step_unlimited {r : Request} (h : ¬ OverLimit (s.step r).1) :
    s.unlimited.step r = ((s.step r).1, (s.step r).2.unlimited) := by
  cases hplan : r.plan? with
  | none =>
      cases r with
      | write slot bytes => rw [step, write_unlimited]; rfl
      | reset => rfl
      | _ => cases hplan
  | some plan =>
      rw [step_eq_follow hplan] at h ⊢
      rw [step_eq_follow hplan]
      exact follow_unlimited r.fill_unlimited h

theorem run_unlimited {requests : List Request}
    (h : ∀ reply ∈ s.replies requests, ¬ OverLimit reply) :
    s.unlimited.replies requests = s.replies requests ∧
      s.unlimited.run requests = (s.run requests).unlimited := by
  induction requests generalizing s with
  | nil => exact ⟨rfl, rfl⟩
  | cons r rest ih =>
      have hstep := step_unlimited (h _ List.mem_cons_self)
      obtain ⟨hreplies, hrun⟩ := ih fun reply hreply => h reply (List.mem_cons_of_mem _ hreply)
      refine ⟨?_, ?_⟩
      · rw [replies, replies, hstep, hreplies]
      · rw [run, List.foldl_cons, hstep]
        exact hrun

/-- Every request keeps the blocks within the limit. -/
theorem within_step {limit : Nat} (h : s.arena.Within limit) (r : Request) :
    (s.step r).2.arena.Within limit :=
  step_keeps (fun _ h => ⟨h.memoryLimit, h.memoryBytes_le⟩)
    (fun h => ⟨h.memoryLimit, h.memoryBytes_le⟩) (fun _ _ h => h.place) h r

/-- An arena that was made with a memory limit never holds more bytes of blocks than the limit
admits, whatever its source does. As long as it has not refused a request for the sake of the limit,
an arena that was made without the limit from the same source gives the same replies to the same
requests, and is in the same state but for the limit: it has the same blocks, index, counters,
running size, source and memory. -/
theorem limit_hard_and_unseen {config : Config} {source : σ} {a : Arena σ} {limit : Nat}
    (created : Arena.create? config source = .ok a) (hlimit : config.memoryLimit = some limit) :
    (∀ requests, (run { arena := a } requests).arena.memoryBytes ≤ limit) ∧
    ∃ b, Arena.create? { config with memoryLimit := none } source = .ok b ∧
      ∀ requests, (∀ reply ∈ replies { arena := a } requests, ¬ OverLimit reply) →
        replies { arena := b } requests = replies { arena := a } requests ∧
        run { arena := b } requests = (run { arena := a } requests).unlimited := by
  refine ⟨fun requests => ?_, a.unlimited, Arena.create?_unlimited created, fun requests h => ?_⟩
  · have hwithin : (run { arena := a } requests).arena.Within limit :=
      run_induction (P := fun s => s.arena.Within limit) (fun _ r h => within_step h r)
        (Arena.within_of_create? created hlimit) requests
    exact hwithin.memoryBytes_le
  · exact run_unlimited h

/-- The limit admits a block for one large request and two of the policy, but not a third one, and
not a block whose bytes are a word only without the others. -/
theorem limit_hard_and_unseen_until_hit :
    let source : AddressSpace := { slack := 24 }
    let config : Config := { initialBlockSize := 64, growth := .linear 32, memoryLimit := some 320 }
    let a : Arena AddressSpace := { config, source, nextBlockSize := 64 }
    let requests : List Request := [.allocate 5, .zeroed 100 2, .allocateAligned 8 3, .reset,
      .copySlice ⟨List.replicate 70 1⟩, .array Element.uint64 11, .allocate 90]
    let s := run { arena := a } requests
    let large := Request.allocate (1 <<< 64 - 16)
    Arena.create? config source = .ok a ∧ config.memoryLimit = some 320 ∧
    replies { arena := a } requests = [.ok (.placed 0 ⟨0, 0⟩), .ok (.placed 1 ⟨1, 0⟩),
      .error (.error (.invalidAlignment 3)), .ok .nothing, .ok (.placed 0 ⟨1, 0⟩),
      .ok (.placed 1 ⟨0, 0⟩), .ok (.placed 2 ⟨2, 0⟩)] ∧
    s.arena.memoryBytes = 272 ∧
    (s.step (.allocate 100)).1 = .error (.error (.capacityExceeded 100 320)) ∧
    (s.step large).1 = .error (.error (.capacityExceeded (1 <<< 64 - 16) 320)) ∧
    (s.unlimited.step (.allocate 100)).1 = .ok (.placed 3 ⟨3, 0⟩) ∧
    (run { arena := a } (requests ++ [.allocate 100])).arena.memoryBytes ≤ 320 ∧
    ∃ b, Arena.create? { config with memoryLimit := none } source = .ok b ∧
      run { arena := b } requests = s.unlimited := by
  intro source config a requests s large
  have created : Arena.create? config source = .ok a := rfl
  have hreplies : replies { arena := a } requests = [.ok (.placed 0 ⟨0, 0⟩),
      .ok (.placed 1 ⟨1, 0⟩), .error (.error (.invalidAlignment 3)), .ok .nothing,
      .ok (.placed 0 ⟨1, 0⟩), .ok (.placed 1 ⟨0, 0⟩), .ok (.placed 2 ⟨2, 0⟩)] := by
    decide +kernel
  have hunseen : ∀ reply ∈ replies { arena := a } requests, ¬ OverLimit reply := by
    rw [hreplies]
    simp [OverLimit]
  have hmemory : s.arena.memoryBytes = 272 := by decide +kernel
  have hhit : (s.step (.allocate 100)).1 = .error (.error (.capacityExceeded 100 320)) := by
    decide +kernel
  have hlarge : (s.step large).1 = .error (.error (.capacityExceeded (1 <<< 64 - 16) 320)) := by
    decide +kernel
  have hfree : (s.unlimited.step (.allocate 100)).1 = .ok (.placed 3 ⟨3, 0⟩) := by decide +kernel
  have hlimit : config.memoryLimit = some 320 := rfl
  obtain ⟨hhard, b, hb, hsame⟩ := limit_hard_and_unseen created hlimit
  have hkept := hhard (requests ++ [.allocate 100])
  exact ⟨created, hlimit, hreplies, hmemory, hhit, hlarge, hfree, hkept, b, hb,
    (hsame requests hunseen).2⟩

end Session

end Lifespan
