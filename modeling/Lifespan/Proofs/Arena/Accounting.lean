import Lifespan.Proofs.Arena.Requests

/-!
# The counters of an arena

An arena keeps three counters, in different places. Each of them is the sum of what a history of
requests has brought about: the bytes that were handed out since the last reset; these and the
padding in front of them; and the bytes of all blocks that were ever made.

Padding is what lies between the cursor that a block had before a request and the range that the
request was given. It is less than the alignment that was asked for, since the range could lie at a
lower address otherwise, and there is none in front of the first range of a new block.
-/

namespace Lifespan

/-- A range that was given to a request. -/
structure Claim where
  range : Range
  padding : Nat
  opensBlock : Bool
deriving DecidableEq, Repr

namespace Arena

variable {σ : Type} {a a' : Arena σ} {claims : List Claim} {size align : Nat} {p : Placement}

/-- The number of bytes claimed in a block; none are in a block that is not there. -/
def cursorAt (a : Arena σ) (block : Nat) : Nat := (a.blocks[block]?.map Block.cursor).getD 0

/-- The claim of a range that was placed in an arena. -/
def claim (a : Arena σ) (p : Placement) (size align : Nat) : Claim where
  range := ⟨p, size, align⟩
  padding := p.offset - a.cursorAt p.block
  opensBlock := decide (a.blocks.length ≤ p.block)

/-- The extents that were granted for the blocks. -/
def grants (a : Arena σ) : List Source.Grant := a.blocks.map Block.grant

theorem grants_reset (a : Arena σ) : a.reset.grants = a.grants := by
  simp only [grants, reset, List.map_map]
  rfl

/-- What the counters of an arena say of the claims since the last reset and of the blocks. -/
structure Accounts (a : Arena σ) (claims : List Claim) : Prop where
  allocated : a.allocatedBytes = sum (claims.map fun c => c.range.size)
  used : a.usedBytes = a.allocatedBytes + sum (claims.map Claim.padding)
  padded : ∀ c ∈ claims, c.padding < c.range.align ∧ (c.opensBlock = true → c.padding = 0)
  memory : a.memoryBytes = sum (a.grants.map fun g => g.layout.size)

/-- A range at the least offset has less padding than its alignment. -/
theorem Chosen.padding_lt {b : Block} (ha : Alignment.IsValid align)
    (h : a.Chosen size align p b) : p.offset - b.cursor < align := by
  by_contra hlong
  obtain ⟨hcursor, hdvd, hend⟩ := h.least.1
  have hpos := ha.pos
  -- One alignment less would do as well.
  have hfits : b.Fits size align (p.offset - align) := by
    refine ⟨by omega, ?_, by omega⟩
    rw [← Nat.add_sub_assoc (by omega)]
    exact Nat.dvd_sub hdvd (Nat.dvd_refl align)
  have hle := h.least.2 hfits
  omega

/-- The used bytes and the available ones are all there are. -/
theorem sum_cursor_add_available {blocks : List Block} (h : ∀ b ∈ blocks, b.cursor ≤ b.capacity) :
    sum (blocks.map Block.cursor) + sum (blocks.map Block.available) =
      sum (blocks.map Block.capacity) := by
  induction blocks with
  | nil => rfl
  | cons b rest ih =>
      have hb := h b List.mem_cons_self
      have hrest := ih fun c hc => h c (List.mem_cons_of_mem b hc)
      simp only [List.map_cons, sum_cons, Block.available] at hrest ⊢
      omega

namespace Accounts

/-- What is counted for a claim that is added. -/
theorem concat (h : a.Accounts claims) {c : Claim}
    (hallocated : a'.allocatedBytes = a.allocatedBytes + c.range.size)
    (hused : a'.usedBytes = a.usedBytes + c.range.size + c.padding)
    (hmemory : a'.memoryBytes = sum (a'.grants.map fun g => g.layout.size))
    (hpadded : c.padding < c.range.align ∧ (c.opensBlock = true → c.padding = 0)) :
    a'.Accounts (claims ++ [c]) where
  allocated := by
    rw [hallocated, h.allocated, List.map_append, sum_append]
    rfl
  used := by
    rw [hused, hallocated, h.used, List.map_append, sum_append]
    simp only [List.map_cons, List.map_nil, sum_cons, sum_nil]
    omega
  padded := by
    intro d hd
    rcases List.mem_append.mp hd with hd | hd
    · exact h.padded d hd
    · rw [List.mem_singleton.mp hd]
      exact hpadded
  memory := hmemory

variable [Source σ] {origin : σ}

/-- A range that is placed is added to the counters. -/
theorem place (h : a.Accounts claims) (ha : Alignment.IsValid align)
    (hplacing : Placing origin a size align (.ok p, a')) :
    a'.Accounts (claims ++ [a.claim p size align]) := by
  cases hplacing with
  | @reused _ b hmax hb =>
      have hcursor : a.cursorAt p.block = b.cursor := by simp [cursorAt, hb.block]
      have hbehind : b.cursor ≤ p.offset := hb.least.1.1
      obtain ⟨hlt, -⟩ := List.getElem?_eq_some_iff.mp hb.block
      refine h.concat rfl ?_ ?_ ⟨?_, ?_⟩
      · have hset := sum_map_set Block.cursor hb.block { b with cursor := p.offset + size }
        simp only [usedBytes, charge, advance, claim, hcursor] at hset ⊢
        omega
      · have hgrants : ((a.advance p b size).charge size).grants = a.grants :=
          map_set_of_eq hb.block rfl
        rw [hgrants]
        exact h.memory
      · rw [claim, hcursor]
        exact hb.padding_lt ha
      · intro hopens
        simp only [claim, decide_eq_true_eq] at hopens
        omega
  | @grown b a' hmax hno hb =>
      have hcursor : a.cursorAt a.blocks.length = 0 := by simp [cursorAt]
      refine h.concat ?_ ?_ ?_ ⟨?_, ?_⟩
      · rw [hb.books]
        rfl
      · rw [hb.books]
        simp only [usedBytes, charge, addBlock, claim, List.map_append, sum_append, List.map_cons,
          List.map_nil, sum_cons, sum_nil, hb.cursor]
        omega
      · rw [hb.books]
        have hmemory := h.memory
        simp only [grants, charge, addBlock, List.map_append, sum_append, List.map_cons,
          List.map_nil, sum_cons, sum_nil] at hmemory ⊢
        omega
      · have hpos := ha.pos
        simpa [claim] using hpos
      · exact fun _ => Nat.zero_sub _

omit [Source σ] in
/-- Giving all ranges up leaves nothing but the blocks to be counted. -/
theorem reset (h : a.Accounts claims) : a.reset.Accounts [] where
  allocated := rfl
  used := by
    refine sum_eq_zero fun n hn => ?_
    simp only [Arena.reset, List.map_map, List.mem_map] at hn
    obtain ⟨b, -, rfl⟩ := hn
    rfl
  padded := by simp
  memory := by
    rw [grants_reset]
    exact h.memory

end Accounts

/-- A block is added for a range that is not in an existing one. -/
theorem grants_of_placing [Source σ] {origin : σ}
    (h : Placing origin a size align (.ok p, a')) :
    p.block < a.blocks.length ∧ a'.grants = a.grants ∨
      p.block = a.blocks.length ∧ ∃ g, a'.grants = a.grants ++ [g] := by
  cases h with
  | @reused _ b _ hb =>
      obtain ⟨hlt, -⟩ := List.getElem?_eq_some_iff.mp hb.block
      exact .inl ⟨hlt, map_set_of_eq hb.block rfl⟩
  | @grown b a' _ _ hb =>
      refine .inr ⟨rfl, b.grant, ?_⟩
      rw [hb.books]
      simp [grants, charge, addBlock]

/-- The counters of a new arena are zero. -/
theorem accounts_of_create? {config : Config} {source : σ} (h : create? config source = .ok a) :
    a.Accounts [] := by
  obtain ⟨-, rfl⟩ := create?_eq_ok_iff.mp h
  exact ⟨rfl, rfl, by simp, rfl⟩

end Arena

namespace Session

variable {σ : Type} [Source σ] {origin : σ} {s : Session σ} {claims : List Claim}

/-- The claims after a request to an arena, as its reply tells. -/
def claimsAfter (a : Arena σ) (claims : List Claim) (r : Request)
    (reply : Except Arena.Failure Grant) : List Claim :=
  match r, r.demand?, reply with
  | .reset, _, _ => []
  | _, some (size, align), .ok (.placed _ p) => claims ++ [a.claim p size align]
  | _, _, _ => claims

/-- The claims after a history of requests. -/
def claimed (s : Session σ) (claims : List Claim) : List Request → List Claim
  | [] => claims
  | r :: rest => (s.step r).2.claimed (claimsAfter s.arena claims r (s.step r).1) rest

omit [Source σ] in
theorem range_claimsAfter (a : Arena σ) (claims : List Claim) (r : Request)
    (reply : Except Arena.Failure Grant) :
    (claimsAfter a claims r reply).map Claim.range =
      r.heldAfter (claims.map Claim.range) reply := by
  simp only [claimsAfter, Request.heldAfter]
  split <;> simp_all [Arena.claim]

/-- The claims are the ranges that the replies tell of. -/
theorem range_claimed (s : Session σ) (claims : List Claim) (requests : List Request) :
    (s.claimed claims requests).map Claim.range =
      s.handedOut (claims.map Claim.range) requests := by
  induction requests generalizing s claims with
  | nil => rfl
  | cons r rest ih => rw [claimed, handedOut, ih, range_claimsAfter]

/-- One step is counted. -/
theorem accounts_step (honest : Source.Honest origin) (sound : s.arena.Sound origin)
    (h : s.arena.Accounts claims) (r : Request) :
    (s.step r).2.arena.Accounts (claimsAfter s.arena claims r (s.step r).1) := by
  have hend := s.ending honest sound r
  generalize s.step r = next at hend
  cases hend with
  | reset => exact h.reset
  | @unplaced r reply _ _ _ hr hreply _ =>
      have hsame : claimsAfter s.arena claims r reply = claims := by
        cases r <;> rcases reply with _ | _ | _ | _ <;> simp_all [claimsAfter, Request.demand?]
      rw [hsame]
      exact ⟨h.allocated, h.used, h.padded, h.memory⟩
  | @placed r size align _ a p m hr _ ha hplacing =>
      have hadded : claimsAfter s.arena claims r (.ok (.placed s.slots.length p)) =
          claims ++ [s.arena.claim p size align] := by
        cases r <;> simp_all [claimsAfter, Request.demand?]
      have h' := h.place ha hplacing
      rw [hadded]
      exact ⟨h'.allocated, h'.used, h'.padded, h'.memory⟩

/-- A block is added for a request only if no other block can hold its range. -/
theorem grants_step (honest : Source.Honest origin) (sound : s.arena.Sound origin) (r : Request) :
    (s.step r).2.arena.grants = s.arena.grants ∨
      ∃ i p g, (s.step r).1 = .ok (.placed i p) ∧ p.block = s.arena.blocks.length ∧
        (s.step r).2.arena.grants = s.arena.grants ++ [g] := by
  have hend := s.ending honest sound r
  generalize s.step r = next at hend
  cases hend with
  | reset => exact .inl (Arena.grants_reset _)
  | unplaced _ _ _ => exact .inl rfl
  | @placed _ _ _ _ a p m _ _ _ hplacing =>
      rcases Arena.grants_of_placing hplacing with ⟨-, hsame⟩ | ⟨hnew, g, hadded⟩
      · exact .inl hsame
      · exact .inr ⟨_, p, g, rfl, hnew, hadded⟩

theorem accounts_run (honest : Source.Honest origin) (sound : s.arena.Sound origin)
    (h : s.arena.Accounts claims) (requests : List Request) :
    (s.run requests).arena.Accounts (s.claimed claims requests) := by
  induction requests generalizing s claims with
  | nil => exact h
  | cons r rest ih => exact ih (sound_step honest sound r) (accounts_step honest sound h r)

/-- Blocks stay through any history. -/
theorem grants_run (honest : Source.Honest origin) (sound : s.arena.Sound origin)
    (requests : List Request) : s.arena.grants <+: (s.run requests).arena.grants := by
  induction requests generalizing s with
  | nil => exact List.prefix_rfl
  | cons r rest ih =>
      have hrest := ih (sound_step honest sound r)
      rcases grants_step honest sound r with hsame | ⟨-, -, g, -, -, hadded⟩
      · rw [hsame] at hrest
        exact hrest
      · rw [hadded] at hrest
        exact (List.prefix_append _ [g]).trans hrest

/-- After any history of requests on a new arena over an honest source, the counters are exact. -/
theorem accounts_exact {config : Config} {source : σ} {a : Arena σ}
    (honest : Source.Honest source) (created : Arena.create? config source = .ok a)
    (requests : List Request) :
    let now := run { arena := a } requests
    let claims := claimed { arena := a } [] requests
    -- The claims are the ranges that were handed out since the last reset.
    claims.map Claim.range = handedOut { arena := a } [] requests ∧
    now.arena.allocatedBytes = sum (claims.map fun c => c.range.size) ∧
    now.arena.usedBytes = now.arena.allocatedBytes + sum (claims.map Claim.padding) ∧
    (∀ c ∈ claims, c.padding < c.range.align ∧ (c.opensBlock = true → c.padding = 0)) ∧
    now.arena.usedBytes + sum now.arena.available = sum (now.arena.blocks.map Block.capacity) ∧
    now.arena.memoryBytes = sum (now.arena.grants.map fun g => g.layout.size) ∧
    -- The blocks are all that were ever made.
    (∀ earlier later, requests = earlier ++ later →
      (run { arena := a } earlier).arena.grants <+: now.arena.grants) ∧
    -- A reset, a request that fails and a range in an existing block leave them alone.
    (∀ r, (∀ i p, (now.step r).1 = .ok (.placed i p) → p.block < now.arena.blocks.length) →
      (now.step r).2.arena.grants = now.arena.grants ∧
        (now.step r).2.arena.memoryBytes = now.arena.memoryBytes) := by
  intro now claims
  have start : a.Accounts [] := Arena.accounts_of_create? created
  have soundStart := Arena.sound_of_create? created
  have sound : now.arena.Sound source := sound_run (s := { arena := a }) honest soundStart requests
  have accounts : now.arena.Accounts claims :=
    accounts_run (s := { arena := a }) honest soundStart start requests
  refine ⟨range_claimed _ [] requests, accounts.allocated, accounts.used, accounts.padded,
    Arena.sum_cursor_add_available sound.cursor_le, accounts.memory, ?_, ?_⟩
  · intro earlier later hsplit
    have hearlier := sound_run (s := { arena := a }) honest soundStart earlier
    have hlater := grants_run honest hearlier later
    simpa [now, hsplit, run] using hlater
  · intro r hold
    have hgrants : (now.step r).2.arena.grants = now.arena.grants := by
      rcases grants_step honest sound r with hsame | ⟨i, p, g, hreply, hnew, -⟩
      · exact hsame
      · have := hold i p hreply
        omega
    refine ⟨hgrants, ?_⟩
    rw [(accounts_step honest sound accounts r).memory, hgrants, accounts.memory]

/-- A history with a reset, padding, a request that fails and a block for one large request. -/
theorem accounts_exact_padded :
    let source : AddressSpace := { skew := 16 }
    let config : Config := { initialBlockSize := 64, memoryLimit := some 256 }
    let a : Arena AddressSpace := { config, source, nextBlockSize := 64 }
    let requests : List Request := [.allocate 24, .reset, .allocateAligned 3 4, .zeroed 16 32,
      .allocate 300, .array Element.uint64 12, .copySlice ⟨[1, 2, 3]⟩]
    Source.Honest source ∧ Arena.create? config source = .ok a ∧
      claimed { arena := a } [] requests = [⟨⟨⟨0, 0⟩, 3, 4⟩, 0, false⟩,
        ⟨⟨⟨0, 16⟩, 16, 32⟩, 13, false⟩, ⟨⟨⟨1, 0⟩, 96, 8⟩, 0, true⟩, ⟨⟨⟨0, 32⟩, 3, 1⟩, 0, false⟩] ∧
      (run { arena := a } requests).arena.allocatedBytes = 3 + 16 + 96 + 3 ∧
      (run { arena := a } requests).arena.usedBytes = 118 + 13 ∧
      ((run { arena := a } requests).step .reset).2.arena.memoryBytes =
        (run { arena := a } requests).arena.memoryBytes := by
  intro source config a requests
  have honest := AddressSpace.honest source
  have created : Arena.create? config source = .ok a := rfl
  have hclaims : claimed { arena := a } [] requests = [⟨⟨⟨0, 0⟩, 3, 4⟩, 0, false⟩,
      ⟨⟨⟨0, 16⟩, 16, 32⟩, 13, false⟩, ⟨⟨⟨1, 0⟩, 96, 8⟩, 0, true⟩,
      ⟨⟨⟨0, 32⟩, 3, 1⟩, 0, false⟩] := by decide
  obtain ⟨-, hallocated, hused, -, -, -, -, hkept⟩ := accounts_exact honest created requests
  rw [hclaims] at hallocated hused
  refine ⟨honest, created, hclaims, hallocated, ?_, (hkept .reset ?_).2⟩
  · rw [hused, hallocated]
    rfl
  · intro i p hreply
    cases hreply

end Session

end Lifespan
