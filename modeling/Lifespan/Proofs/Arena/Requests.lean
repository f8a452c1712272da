import Lifespan.Arena.Session
import Lifespan.Proofs.Arena.Placing

/-!
# What requests come down to

However a request says what its range is for, it comes down to one call of `Arena.place` with the
bytes and the alignment that it asks for, and to writes into the range that it got. Writing changes
the memory and nothing in the books. A session records the ranges that its requests were given, and
forgets them when it is reset.

## Main definitions

* `Request.demand?`: the bytes and the alignment that a request asks for.
* `Arena.Reserving`, `Session.Moving`: how a form of request and a step of a session can end.
* `Session.Ending`: the same of a step over an honest source, with what it means for the arena.
* `Range`, `Session.handedOut`: the ranges that have been given to requests since the last reset,
  as the replies tell.

## Main results

* `Session.step_moving`, `Session.ending`: every step is one of these.
* `Session.range_slots_run`: the slots of a session are the ranges that the replies tell of.
-/
namespace Lifespan

/-! ## Forms of requests -/

namespace Arena

variable {σ : Type} {α : Type} {a a' : Arena σ} {size align : Nat}

/-- Writing changes nothing but the memory. -/
theorem writeAt_eq (a : Arena σ) (p : Placement) (offset : Nat) (cells : List Cell) :
    ∃ m, a.writeAt p offset cells = { a with memory := m } := by
  simp only [writeAt]
  cases a.address? p with
  | none => exact ⟨a.memory, rfl⟩
  | some address => exact ⟨_, rfl⟩

theorem writeParts_eq (p : Placement) (written : Nat) (parts : List Slice) (a : Arena σ) :
    ∃ m, writeParts p written parts a = { a with memory := m } := by
  induction parts generalizing written a with
  | nil => exact ⟨a.memory, rfl⟩
  | cons part rest ih =>
      obtain ⟨m, hm⟩ := a.writeAt_eq p written (part.bytes.map .byte)
      rw [writeParts, hm]
      exact ih (written + part.length) { a with memory := m }

variable [Source σ]

/-- How a form of request for some bytes at an alignment can end. -/
inductive Reserving (a : Arena σ) (size align : Nat) :
    Except Failure (Option Placement) × Arena σ → Prop where
  | empty : size = 0 → Reserving a size align (.ok none, a)
  | rejected (e : Error) : Reserving a size align (.error (.error e), a)
  | failed {f : Failure} {a' : Arena σ} : 0 < size → Alignment.IsValid align →
    a.place size align = (.error f, a') → Reserving a size align (.error f, a')
  | placed {p : Placement} {a' : Arena σ} (m : Memory) : 0 < size → Alignment.IsValid align →
    a.place size align = (.ok p, a') →
      Reserving a size align (.ok (some p), { a' with memory := m })

/-- Writing into the range that was placed is part of the request. -/
theorem Reserving.withMemory {p : Placement} (h : Reserving a size align (.ok (some p), a'))
    (m : Memory) : Reserving a size align (.ok (some p), { a' with memory := m }) := by
  cases h with
  | placed _ hsize ha hplace =>
      have h := Reserving.placed m hsize ha hplace
      exact h

theorem Reserving.store {s : Spot} (h : Reserving a size align (.ok s.placement?, a'))
    (cells : List Cell) : Reserving a size align (.ok s.placement?, a'.store s cells) := by
  cases s with
  | dangling address => exact h
  | placed p =>
      obtain ⟨m, hm⟩ := a'.writeAt_eq p 0 cells
      rw [Arena.store, hm]
      exact h.withMemory m

theorem allocate_reserving (a : Arena σ) (size align : Nat) :
    Reserving a size align (a.allocate size align) := by
  simp only [allocate]
  by_cases hsize : size = 0
  · rw [if_pos hsize]
    exact .empty hsize
  · rw [if_neg hsize]
    have hpos := Nat.pos_of_ne_zero hsize
    by_cases ha : Alignment.IsValid align
    · rw [if_neg (not_not_intro ha)]
      cases hplace : a.place size align with
      | mk result a' =>
          cases result with
          | error f => exact .failed hpos ha hplace
          | ok p => exact .placed a'.memory hpos ha hplace
    · rw [if_pos ha]
      exact .rejected _

theorem allocateArray_reserving (a : Arena σ) (e : Element α) (count : Nat) :
    Reserving a (count * e.size) e.align
      ((a.allocateArray e count).1.map Spot.placement?, (a.allocateArray e count).2) := by
  simp only [allocateArray, Layout.array?, Layout.of?]
  by_cases hvalid : Layout.Valid ⟨count * e.size, e.align⟩
  · simp only [if_pos hvalid]
    by_cases hsize : count * e.size = 0
    · simp only [if_pos hsize]
      exact .empty hsize
    · simp only [if_neg hsize]
      have hpos := Nat.pos_of_ne_zero hsize
      cases hplace : a.place (count * e.size) e.align with
      | mk result a' =>
          cases result with
          | error f => exact .failed hpos hvalid.1 hplace
          | ok p => exact .placed a'.memory hpos hvalid.1 hplace
  · simp only [if_neg hvalid]
    exact .rejected _

theorem allocCopy_reserving (a : Arena σ) (e : Element α) (vs : List α) :
    Reserving a (vs.length * e.size) e.align
      ((a.allocCopy e vs).1.map Spot.placement?, (a.allocCopy e vs).2) := by
  have h := a.allocateArray_reserving e vs.length
  simp only [allocCopy]
  generalize a.allocateArray e vs.length = result at h ⊢
  rcases result with ⟨f | s, a'⟩
  · exact h
  · exact h.store _

theorem alloc_reserving (a : Arena σ) (e : Element α) (v : α) :
    Reserving a (1 * e.size) e.align ((a.alloc e v).1.map Spot.placement?, (a.alloc e v).2) := by
  have h := a.allocateArray_reserving e 1
  simp only [alloc]
  generalize a.allocateArray e 1 = result at h ⊢
  rcases result with ⟨f | s, a'⟩
  · exact h
  · exact h.store _

theorem allocFill_reserving (a : Arena σ) (e : Element α) (count : Nat) (v : α) :
    Reserving a (count * e.size) e.align
      ((a.allocFill e count v).1.map Spot.placement?, (a.allocFill e count v).2) := by
  have h := a.allocateArray_reserving e count
  simp only [allocFill]
  generalize a.allocateArray e count = result at h ⊢
  rcases result with ⟨f | s, a'⟩
  · exact h
  · exact h.store _

theorem allocZeroed_reserving (a : Arena σ) (size align : Nat) :
    Reserving a size align (a.allocZeroed size align) := by
  have h := a.allocate_reserving size align
  simp only [allocZeroed]
  generalize a.allocate size align = result at h ⊢
  rcases result with ⟨f | _ | p, a'⟩
  · exact h
  · exact h
  · obtain ⟨m, hm⟩ := a'.writeAt_eq p 0 (List.replicate size (.byte 0))
    simp only [hm]
    exact h.withMemory m

theorem copySlice_reserving (a : Arena σ) (s : Slice) :
    Reserving a s.length 1 (a.copySlice s) := by
  have h := a.allocCopy_reserving Element.uint8 s.bytes
  have hsize : s.bytes.length * Element.uint8.size = s.length := Nat.mul_one _
  rw [hsize] at h
  simp only [copySlice]
  generalize a.allocCopy Element.uint8 s.bytes = result at h ⊢
  rcases result with ⟨f | spot, a'⟩
  · exact h
  · exact h

omit [Source σ] in
/-- The lengths of slices add up as far as their sum is a word. -/
theorem totalLength?_eq_some_iff {parts : List Slice} {total : Nat} :
    totalLength? parts = some total ↔
      total = sum (parts.map Slice.length) ∧ total < Word.bound := by
  have key : ∀ start < Word.bound,
      parts.foldlM (fun total part => Word.add? total part.length) start = some total ↔
        total = start + sum (parts.map Slice.length) ∧ total < Word.bound := by
    induction parts with
    | nil =>
        intro start hstart
        simp only [List.foldlM_nil, Option.pure_def, Option.some.injEq, List.map_nil, sum_nil]
        omega
    | cons part rest ih =>
        intro start hstart
        simp only [List.foldlM_cons, Option.bind_eq_bind, Option.bind_eq_some_iff,
          Word.add?_eq_some_iff, List.map_cons, sum_cons]
        constructor
        · rintro ⟨next, ⟨rfl, hnext⟩, hrest⟩
          obtain ⟨rfl, hlt⟩ := (ih _ hnext).mp hrest
          exact ⟨Nat.add_assoc _ _ _, hlt⟩
        · rintro ⟨rfl, hlt⟩
          exact ⟨_, ⟨rfl, by omega⟩, (ih _ (by omega)).mpr ⟨(Nat.add_assoc _ _ _).symm, hlt⟩⟩
  have hzero := key 0 (by decide)
  rwa [Nat.zero_add] at hzero

theorem concat_reserving (a : Arena σ) (parts : List Slice) :
    Reserving a (sum (parts.map Slice.length)) 1 (a.concat parts) := by
  simp only [concat]
  cases htotal : totalLength? parts with
  | none => exact .rejected _
  | some total =>
      have hsum := (totalLength?_eq_some_iff.mp htotal).1
      have h := a.allocate_reserving total 1
      rw [← hsum]
      dsimp only
      generalize a.allocate total 1 = result at h ⊢
      rcases result with ⟨f | _ | p, a'⟩
      · exact h
      · exact h
      · obtain ⟨m, hm⟩ := writeParts_eq p 0 parts a'
        simp only [hm]
        exact h.withMemory m

/-- Books that are sound stay so through every form of request. -/
theorem Sound.of_reserving {origin : σ} (honest : Source.Honest origin) (sound : a.Sound origin)
    {result : Except Failure (Option Placement) × Arena σ} (h : Reserving a size align result) :
    result.2.Sound origin := by
  cases h with
  | empty _ => exact sound
  | rejected _ => exact sound
  | failed hsize ha hplace =>
      have h := sound.of_placing hsize ha (placing honest sound hsize ha)
      rwa [hplace] at h
  | placed m hsize ha hplace =>
      have h := sound.of_placing hsize ha (placing honest sound hsize ha)
      rw [hplace] at h
      exact h.withMemory m

section Honest

variable {origin : σ} (honest : Source.Honest origin) (sound : a.Sound origin)
include honest sound

/-- A request that yields no range leaves everything but the source as it was. -/
theorem Reserving.unplaced_eq {result : Except Failure (Option Placement)}
    (hno : ∀ p, result ≠ .ok (some p)) (h : a.Reserving size align (result, a')) :
    ∃ source, a' = { a with source } := by
  cases h with
  | empty _ => exact ⟨a.source, rfl⟩
  | rejected _ => exact ⟨a.source, rfl⟩
  | failed hsize ha hplace =>
      have h := placing honest sound hsize ha
      rw [hplace] at h
      cases h with
      | misaligned _ => exact ⟨a.source, rfl⟩
      | refused _ _ _ => exact ⟨_, rfl⟩
  | placed _ _ _ _ => exact absurd rfl (hno _)

/-- A request that yields a range has had it placed, and has written at most the memory. -/
theorem Reserving.placed_eq {p : Placement} (h : a.Reserving size align (.ok (some p), a')) :
    ∃ m b, a' = { b with memory := m } ∧ 0 < size ∧ Alignment.IsValid align ∧
      Placing origin a size align (.ok p, b) := by
  cases h with
  | @placed _ b m hsize ha hplace =>
      have hplacing := placing honest sound hsize ha
      rw [hplace] at hplacing
      exact ⟨m, b, rfl, hsize, ha, hplacing⟩

end Honest

end Arena

/-! ## Steps of a session -/

/-- The bytes and the alignment that a request asks for, if it asks for any. -/
def Request.demand? : Request → Option (Nat × Nat)
  | .allocate size => some (size, Alignment.standard)
  | .allocateAligned size align => some (size, align)
  | .zeroed size align => some (size, align)
  | .copySlice s => some (s.length, 1)
  | .concat parts => some (sum (parts.map Slice.length), 1)
  | .array e count => some (count * e.size, e.align)
  | .alloc e _ => some (1 * e.size, e.align)
  | .allocCopy e vs => some (vs.length * e.size, e.align)
  | .allocFill e count _ => some (count * e.size, e.align)
  | .write _ _ => none
  | .reset => none

/-- A range that was given to a request. -/
structure Range where
  placement : Placement
  size : Nat
  align : Nat
deriving DecidableEq, Repr

/-- The range in a slot. -/
def Slot.range (s : Slot) : Range := ⟨s.placement, s.size, s.align⟩

/-- The ranges that are held after a request, as its reply tells. -/
def Request.heldAfter (held : List Range) (r : Request) (reply : Except Arena.Failure Grant) :
    List Range :=
  match r, r.demand?, reply with
  | .reset, _, _ => []
  | _, some (size, align), .ok (.placed _ p) => held ++ [⟨p, size, align⟩]
  | _, _, _ => held

namespace Session

variable {σ : Type} [Source σ] {α : Type} {s : Session σ} {a : Arena σ} {r : Request}
  {size align : Nat}

/-- The ranges that are held after a history of requests, as the replies tell. -/
def handedOut (s : Session σ) (held : List Range) : List Request → List Range
  | [] => held
  | r :: rest => (s.step r).2.handedOut (r.heldAfter held (s.step r).1) rest

/-- How a step of a session can end. -/
inductive Moving (s : Session σ) : Request → Except Arena.Failure Grant × Session σ → Prop where
  | reset : Moving s .reset (.ok .nothing, ⟨s.arena.reset, []⟩)
  | write (slot : Nat) (bytes : Bytes) :
    Moving s (.write slot bytes) (.ok .nothing, s.write slot bytes)
  | unplaced {r : Request} {size align : Nat} {a : Arena σ}
    {result : Except Arena.Failure (Option Placement)} {reply : Except Arena.Failure Grant} :
    r.demand? = some (size, align) → s.arena.Reserving size align (result, a) →
    (∀ p, result ≠ .ok (some p)) → (∀ i p, reply ≠ .ok (.placed i p)) →
    (∀ f, reply = .error f ↔ result = .error f) → Moving s r (reply, { s with arena := a })
  | placed {r : Request} {size align written : Nat} {a : Arena σ} {p : Placement} :
    r.demand? = some (size, align) → s.arena.Reserving size align (.ok (some p), a) →
      Moving s r
        (.ok (.placed s.slots.length p), ⟨a, s.slots ++ [⟨p, size, align, written⟩]⟩)

theorem record_moving {result : Except Arena.Failure (Option Placement) × Arena σ}
    (hr : r.demand? = some (size, align)) (h : s.arena.Reserving size align result)
    (written : Nat) : Moving s r (s.record result.2 size align written result.1) := by
  rcases result with ⟨f | _ | p, a⟩
  · exact .unplaced hr h (by simp) (by simp) (by simp)
  · exact .unplaced hr h (by simp) (by simp) (by simp)
  · exact .placed hr h

theorem recordValues_moving {result : Except Arena.Failure Spot × Arena σ} {e : Element α}
    {count : Nat} (hr : r.demand? = some (count * e.size, e.align))
    (h : s.arena.Reserving (count * e.size) e.align (result.1.map Spot.placement?, result.2))
    (known : Nat) : Moving s r (s.recordValues result.2 e count known result.1) := by
  rcases result with ⟨f | spot, a⟩
  · exact .unplaced hr h (by simp [Except.map]) (by simp) (by simp [Except.map])
  · cases spot with
    | dangling address =>
        exact .unplaced hr h (by simp [Except.map, Spot.placement?]) (by simp)
          (by simp [Except.map])
    | placed p => exact .placed hr h

theorem step_moving (s : Session σ) (r : Request) : Moving s r (s.step r) := by
  cases r with
  | allocate size => exact record_moving rfl (s.arena.allocate_reserving size _) 0
  | allocateAligned size align => exact record_moving rfl (s.arena.allocate_reserving size align) 0
  | zeroed size align => exact record_moving rfl (s.arena.allocZeroed_reserving size align) size
  | copySlice source =>
      exact record_moving rfl (s.arena.copySlice_reserving source) source.length
  | concat parts => exact record_moving rfl (s.arena.concat_reserving parts) _
  | array e count => exact recordValues_moving rfl (s.arena.allocateArray_reserving e count) 0
  | alloc e v => exact recordValues_moving rfl (s.arena.alloc_reserving e v) 1
  | allocCopy e vs => exact recordValues_moving rfl (s.arena.allocCopy_reserving e vs) vs.length
  | allocFill e count v =>
      exact recordValues_moving rfl (s.arena.allocFill_reserving e count v) count
  | write slot bytes => exact .write slot bytes
  | reset => exact .reset

omit [Source σ] in
/-- Storing bytes in a range changes the memory and what is known of the range. -/
theorem write_eq (s : Session σ) (slot : Nat) (bytes : Bytes) :
    (∃ m, (s.write slot bytes).arena = { s.arena with memory := m }) ∧
      (s.write slot bytes).slots.map Slot.range = s.slots.map Slot.range := by
  simp only [write]
  split
  · exact ⟨⟨s.arena.memory, rfl⟩, rfl⟩
  · next range hrange =>
    split
    · exact ⟨s.arena.writeAt_eq _ _ _, map_set_of_eq hrange rfl⟩
    · exact ⟨⟨s.arena.memory, rfl⟩, rfl⟩

omit [Source σ] in
theorem exists_write_eq (s : Session σ) (slot : Nat) (bytes : Bytes) :
    ∃ m, s.write slot bytes = ⟨{ s.arena with memory := m }, (s.write slot bytes).slots⟩ := by
  obtain ⟨⟨m, hm⟩, -⟩ := s.write_eq slot bytes
  exact ⟨m, by rw [← hm]⟩

/-- One step changes the slots as its reply tells. -/
theorem range_slots_step (s : Session σ) (r : Request) :
    (s.step r).2.slots.map Slot.range = r.heldAfter (s.slots.map Slot.range) (s.step r).1 := by
  have h := s.step_moving r
  generalize s.step r = next at h
  cases h with
  | reset => rfl
  | write slot bytes => exact (s.write_eq slot bytes).2
  | @unplaced r _ _ _ _ reply hr _ _ hreply _ =>
      cases r <;> rcases reply with _ | _ | _ | _ <;>
        simp_all [Request.heldAfter, Request.demand?]
  | @placed r _ _ _ _ _ hr _ =>
      cases r <;> simp_all [Request.heldAfter, Request.demand?, Slot.range]

/-- The slots of a session are the ranges that the replies tell of. -/
theorem range_slots_run (s : Session σ) (requests : List Request) :
    (s.run requests).slots.map Slot.range = s.handedOut (s.slots.map Slot.range) requests := by
  induction requests generalizing s with
  | nil => rfl
  | cons r rest ih =>
      rw [handedOut, ← range_slots_step]
      exact ih (s.step r).2

/-- What every step keeps, every history keeps. -/
theorem run_induction {P : Session σ → Prop} (hstep : ∀ s r, P s → P (s.step r).2)
    (h : P s) (requests : List Request) : P (s.run requests) := by
  induction requests generalizing s with
  | nil => exact h
  | cons r rest ih => exact ih (hstep s r h)

/-- The books of an arena stay sound through all requests. -/
theorem sound_step {origin : σ} (honest : Source.Honest origin) (sound : s.arena.Sound origin)
    (r : Request) : (s.step r).2.arena.Sound origin := by
  have h := s.step_moving r
  generalize s.step r = next at h
  cases h with
  | reset => exact sound.reset
  | write slot bytes =>
      obtain ⟨⟨m, hm⟩, _⟩ := s.write_eq slot bytes
      rw [hm]
      exact sound.withMemory m
  | unplaced _ h _ _ _ => exact sound.of_reserving honest h
  | placed _ h => exact sound.of_reserving honest h

theorem sound_run {origin : σ} (honest : Source.Honest origin) (sound : s.arena.Sound origin)
    (requests : List Request) : (s.run requests).arena.Sound origin :=
  run_induction (P := fun s => s.arena.Sound origin) (fun _ r h => sound_step honest h r) sound
    requests

/-- How a step of a session ends over an honest source. -/
inductive Ending (origin : σ) (s : Session σ) :
    Request → Except Arena.Failure Grant × Session σ → Prop where
  | reset : Ending origin s .reset (.ok .nothing, ⟨s.arena.reset, []⟩)
  /-- There is no new range: nothing has changed but the source and what the ranges hold. -/
  | unplaced {r : Request} {reply : Except Arena.Failure Grant} {source : σ} {memory : Memory}
    {slots : List Slot} : r ≠ .reset → (∀ i p, reply ≠ .ok (.placed i p)) →
    slots.map Slot.range = s.slots.map Slot.range →
    Ending origin s r (reply, ⟨{ s.arena with source, memory }, slots⟩)
  | placed {r : Request} {size align written : Nat} {a : Arena σ} {p : Placement} (m : Memory) :
    r.demand? = some (size, align) → 0 < size → Alignment.IsValid align →
    s.arena.Placing origin size align (.ok p, a) →
    Ending origin s r (.ok (.placed s.slots.length p),
      ⟨{ a with memory := m }, s.slots ++ [⟨p, size, align, written⟩]⟩)

theorem ending {origin : σ} (honest : Source.Honest origin) (sound : s.arena.Sound origin)
    (r : Request) : s.Ending origin r (s.step r) := by
  have hmove := s.step_moving r
  generalize s.step r = next at hmove
  cases hmove with
  | reset => exact .reset
  | write slot bytes =>
      obtain ⟨m, hwrite⟩ := s.exists_write_eq slot bytes
      rw [hwrite]
      exact .unplaced (by simp) (by simp) (s.write_eq slot bytes).2
  | unplaced hr hreserve hno hreply _ =>
      obtain ⟨source, rfl⟩ := hreserve.unplaced_eq honest sound hno
      refine .unplaced ?_ hreply rfl
      rintro rfl
      cases hr
  | placed hr hreserve =>
      obtain ⟨m, b, rfl, hsize, ha, hplacing⟩ := hreserve.placed_eq honest sound
      exact .placed m hr hsize ha hplacing

end Session

end Lifespan
