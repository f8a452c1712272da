import Lifespan.Proofs.Arena.Requests

/-!
# Requests as plans

What is to become of a request for a range is known before any block is looked at. Either it is
answered at once, with a reply that depends on nothing but the request, or it comes down to one call
of `Arena.place`, whose answer is its reply. So all that an arena and its source have to do with a
request is in that call; what is left is to fill the range.
-/

namespace Lifespan

/-- What is to become of a request. -/
inductive Plan where
  | answer (reply : Except Arena.Failure Grant)
  | place (size align written : Nat)

namespace Plan

variable {α : Type}

/-- The plan for some bytes at an alignment. -/
def bytes (size align written : Nat) : Plan :=
  if size = 0 then .answer (.ok .nothing)
  else if ¬ Alignment.IsValid align then .answer (.error (.error (.invalidAlignment align)))
  else .place size align written

/-- The plan for `count` values of a type, of which `known` are given. -/
def values (e : Element α) (count known : Nat) : Plan :=
  if ¬ Layout.Valid ⟨count * e.size, e.align⟩ then
    .answer (.error (.error (.layoutOverflow count e.size)))
  else if count * e.size = 0 then .answer (.ok (.dangling e.align))
  else .place (count * e.size) e.align (if e.isPlain then known * e.size else 0)

end Plan

/-- The plan for a request, if it is for a range. -/
def Request.plan? : Request → Option Plan
  | .allocate size => some (.bytes size Alignment.standard 0)
  | .allocateAligned size align => some (.bytes size align 0)
  | .zeroed size align => some (.bytes size align size)
  | .copySlice s => some (
      if ¬ Layout.Valid ⟨s.length, 1⟩ then .answer (.error (.error (.layoutOverflow s.length 1)))
      else .bytes s.length 1 s.length)
  | .concat parts => some (
      match Arena.totalLength? parts with
      | none => .answer (.error (.error (.layoutOverflow parts.length 1)))
      | some total => .bytes total 1 total)
  | .array e count => some (.values e count 0)
  | .alloc e _ => some (.values e 1 1)
  | .allocCopy e vs => some (.values e vs.length vs.length)
  | .allocFill e count _ => some (.values e count count)
  | .write _ _ => none
  | .reset => none

theorem Plan.bytes_eq_place {size align written n m k : Nat}
    (h : Plan.bytes size align written = .place n m k) :
    size = n ∧ align = m ∧ 0 < n ∧ Alignment.IsValid m := by
  simp only [Plan.bytes] at h
  split at h
  · cases h
  · next hsize =>
    split at h
    · cases h
    · next ha =>
      cases h
      exact ⟨rfl, rfl, Nat.pos_of_ne_zero hsize, not_not.mp ha⟩

theorem Plan.values_eq_place {α : Type} {e : Element α} {count known n m k : Nat}
    (h : Plan.values e count known = .place n m k) :
    count * e.size = n ∧ e.align = m ∧ 0 < n ∧ Layout.Valid ⟨n, m⟩ := by
  simp only [Plan.values] at h
  split at h
  · cases h
  · next hvalid =>
    split at h
    · cases h
    · next hsize =>
      cases h
      exact ⟨rfl, rfl, Nat.pos_of_ne_zero hsize, not_not.mp hvalid⟩

/-- What is placed is what the request asks for: some bytes at a power of two. -/
theorem Request.demand?_of_plan? {r : Request} {size align written : Nat}
    (h : r.plan? = some (.place size align written)) :
    r.demand? = some (size, align) ∧ 0 < size ∧ Alignment.IsValid align := by
  cases r with
  | allocate size =>
      obtain ⟨rfl, rfl, hsize, ha⟩ := Plan.bytes_eq_place (Option.some.inj h)
      exact ⟨rfl, hsize, ha⟩
  | allocateAligned size align =>
      obtain ⟨rfl, rfl, hsize, ha⟩ := Plan.bytes_eq_place (Option.some.inj h)
      exact ⟨rfl, hsize, ha⟩
  | zeroed size align =>
      obtain ⟨rfl, rfl, hsize, ha⟩ := Plan.bytes_eq_place (Option.some.inj h)
      exact ⟨rfl, hsize, ha⟩
  | copySlice s =>
      simp only [Request.plan?, Option.some.injEq] at h
      split at h
      · cases h
      · obtain ⟨rfl, rfl, hsize, ha⟩ := Plan.bytes_eq_place h
        exact ⟨rfl, hsize, ha⟩
  | concat parts =>
      simp only [Request.plan?, Option.some.injEq] at h
      split at h
      · cases h
      · next total htotal =>
        obtain ⟨rfl, rfl, hsize, ha⟩ := Plan.bytes_eq_place h
        refine ⟨?_, hsize, ha⟩
        rw [(Arena.totalLength?_eq_some_iff.mp htotal).1]
        rfl
  | array e count =>
      obtain ⟨rfl, rfl, hsize, hvalid⟩ := Plan.values_eq_place (Option.some.inj h)
      exact ⟨rfl, hsize, hvalid.1⟩
  | alloc e v =>
      obtain ⟨rfl, rfl, hsize, hvalid⟩ := Plan.values_eq_place (Option.some.inj h)
      exact ⟨rfl, hsize, hvalid.1⟩
  | allocCopy e vs =>
      obtain ⟨rfl, rfl, hsize, hvalid⟩ := Plan.values_eq_place (Option.some.inj h)
      exact ⟨rfl, hsize, hvalid.1⟩
  | allocFill e count v =>
      obtain ⟨rfl, rfl, hsize, hvalid⟩ := Plan.values_eq_place (Option.some.inj h)
      exact ⟨rfl, hsize, hvalid.1⟩
  | write slot bytes => cases h
  | reset => cases h

/-! ## Requests that come down to a range -/

/-- The check that a form of request makes of its bytes before any block is looked at: values of a
type need a valid layout, and slices behind one another a number of bytes that is a word. -/
def Request.HasLayout (r : Request) (size align : Nat) : Prop :=
  match r with
  | .copySlice _ | .array _ _ | .alloc _ _ | .allocCopy _ _ | .allocFill _ _ _ =>
    Layout.Valid ⟨size, align⟩
  | .concat _ => size < Word.bound
  | .allocate _ | .allocateAligned _ _ | .zeroed _ _ | .write _ _ | .reset => True

/-- A request that comes down to a range: it is for some bytes at a power of two, and its form
admits them. -/
structure Request.Asks (r : Request) (size align : Nat) : Prop where
  demand : r.demand? = some (size, align)
  pos : 0 < size
  valid : Alignment.IsValid align
  layout : r.HasLayout size align

namespace Plan

variable {α : Type} {size align written : Nat}

theorem bytes_of_pos (hsize : 0 < size) (ha : Alignment.IsValid align) :
    Plan.bytes size align written = .place size align written := by
  rw [Plan.bytes, if_neg (Nat.ne_of_gt hsize), if_neg (not_not_intro ha)]

theorem values_of_valid {e : Element α} {count : Nat} (known : Nat)
    (hvalid : Layout.Valid ⟨count * e.size, e.align⟩) (hsize : 0 < count * e.size) :
    ∃ written, Plan.values e count known = .place (count * e.size) e.align written := by
  rw [Plan.values, if_neg (not_not_intro hvalid), if_neg (Nat.ne_of_gt hsize)]
  exact ⟨_, rfl⟩

end Plan

/-- A request that comes down to a range is planned as one, and only such a request is. -/
theorem Request.asks_iff {r : Request} {size align : Nat} :
    r.Asks size align ↔ ∃ written, r.plan? = some (.place size align written) := by
  constructor
  · rintro ⟨hdemand, hsize, ha, hlayout⟩
    cases r with
    | allocate | allocateAligned | zeroed =>
        cases hdemand
        exact ⟨_, congrArg some (Plan.bytes_of_pos hsize ha)⟩
    | copySlice s =>
        cases hdemand
        have hvalid : Layout.Valid ⟨s.length, 1⟩ := hlayout
        refine ⟨s.length, ?_⟩
        simp only [plan?, if_neg (not_not_intro hvalid), Plan.bytes_of_pos hsize ha]
    | concat parts =>
        cases hdemand
        have htotal := Arena.totalLength?_eq_some_iff.mpr ⟨rfl, hlayout⟩
        refine ⟨sum (parts.map Slice.length), ?_⟩
        simp only [plan?, htotal, Plan.bytes_of_pos hsize ha]
    | array | alloc | allocCopy | allocFill =>
        cases hdemand
        obtain ⟨written, hplan⟩ := Plan.values_of_valid _ hlayout hsize
        exact ⟨written, congrArg some hplan⟩
    | write | reset => cases hdemand
  · rintro ⟨written, hplan⟩
    obtain ⟨hdemand, hsize, ha⟩ := demand?_of_plan? hplan
    refine ⟨hdemand, hsize, ha, ?_⟩
    cases r with
    | allocate | allocateAligned | zeroed | write | reset => trivial
    | copySlice s =>
        simp only [plan?, Option.some.injEq] at hplan
        split at hplan
        · cases hplan
        · next hvalid =>
          cases hdemand
          exact not_not.mp hvalid
    | concat parts =>
        simp only [plan?, Option.some.injEq] at hplan
        split at hplan
        · cases hplan
        · next total htotal =>
          obtain ⟨rfl, hlt⟩ := Arena.totalLength?_eq_some_iff.mp htotal
          cases hdemand
          exact hlt
    | array | alloc | allocCopy | allocFill =>
        obtain ⟨-, -, -, hvalid⟩ := Plan.values_eq_place (Option.some.inj hplan)
        exact hvalid

/-- The arena with the range of a request filled as the request says. -/
def Request.fill {σ : Type} (r : Request) (p : Placement) (a : Arena σ) : Arena σ :=
  match r with
  | .zeroed size _ => a.writeAt p 0 (List.replicate size (.byte 0))
  | .copySlice s => a.writeAt p 0 (Element.uint8.encodeAll s.bytes)
  | .concat parts => Arena.writeParts p 0 parts a
  | .alloc e v => a.writeAt p 0 (e.encode v)
  | .allocCopy e vs => a.writeAt p 0 (e.encodeAll vs)
  | .allocFill e count v => a.writeAt p 0 (e.encodeAll (List.replicate count v))
  | .allocate _ | .allocateAligned _ _ | .array _ _ | .write _ _ | .reset => a

/-- To fill a range changes nothing but the memory. -/
theorem Request.fill_eq {σ : Type} (r : Request) (p : Placement) (a : Arena σ) :
    ∃ m, r.fill p a = { a with memory := m } := by
  cases r with
  | zeroed | copySlice | alloc | allocCopy | allocFill => exact a.writeAt_eq p 0 _
  | concat parts => exact Arena.writeParts_eq p 0 parts a
  | allocate | allocateAligned | array | write | reset => exact ⟨a.memory, rfl⟩

namespace Session

variable {σ : Type} [Source σ] {α : Type} {s : Session σ} {a : Arena σ}

/-- What becomes of a plan, if a range that has been placed is filled in a given way. -/
def follow (s : Session σ) (fill : Placement → Arena σ → Arena σ) :
    Plan → Except Arena.Failure Grant × Session σ
  | .answer reply => (reply, s)
  | .place size align written =>
    match s.arena.place size align with
    | (.error f, a) => (.error f, { s with arena := a })
    | (.ok p, a) => s.record (fill p a) size align written (.ok (some p))

/-- Bytes are placed as planned, however they are filled. -/
theorem follow_bytes (s : Session σ) (size align written : Nat)
    (fill : Placement → Arena σ → Arena σ) :
    s.follow fill (.bytes size align written) =
      match s.arena.allocate size align with
      | (.ok (some p), a) => s.record (fill p a) size align written (.ok (some p))
      | (result, a) => s.record a size align written result := by
  simp only [Plan.bytes, Arena.allocate]
  by_cases hsize : size = 0
  · simp only [if_pos hsize]
    rfl
  · simp only [if_neg hsize]
    by_cases ha : Alignment.IsValid align
    · simp only [if_neg (not_not_intro ha), follow]
      rcases s.arena.place size align with ⟨f | p, a⟩ <;> rfl
    · simp only [if_pos ha]
      rfl

/-- Room for values, in the terms of a plan. -/
theorem allocateArray_eq (a : Arena σ) (e : Element α) (count : Nat) :
    a.allocateArray e count =
      if ¬ Layout.Valid ⟨count * e.size, e.align⟩ then
        (.error (.error (.layoutOverflow count e.size)), a)
      else if count * e.size = 0 then (.ok (.dangling e.align), a)
      else ((a.place (count * e.size) e.align).1.map .placed,
        (a.place (count * e.size) e.align).2) := by
  simp only [Arena.allocateArray, Layout.array?, Layout.of?]
  by_cases hvalid : Layout.Valid ⟨count * e.size, e.align⟩
  · simp only [if_pos hvalid, if_neg (not_not_intro hvalid)]
    rcases a.place (count * e.size) e.align with ⟨f | p, a'⟩ <;> rfl
  · simp only [if_neg hvalid, if_pos hvalid]

/-- Values are placed as planned, however they are filled. -/
theorem follow_values (s : Session σ) (e : Element α) (count known : Nat)
    (fill : Placement → Arena σ → Arena σ) :
    s.follow fill (.values e count known) =
      match s.arena.allocateArray e count with
      | (.ok (.placed p), a) => s.recordValues (fill p a) e count known (.ok (.placed p))
      | (result, a) => s.recordValues a e count known result := by
  rw [allocateArray_eq, Plan.values]
  split
  · rfl
  · split
    · rfl
    · simp only [follow]
      rcases s.arena.place (count * e.size) e.align with ⟨f | p, a⟩ <;> rfl

/-- A slice is copied as planned: its bytes are values of one cell each. -/
theorem step_copySlice (s : Session σ) (source : Slice) {plan : Plan}
    (hr : (Request.copySlice source).plan? = some plan) :
    s.step (.copySlice source) = s.follow (Request.copySlice source).fill plan := by
  have hroom := allocateArray_eq s.arena Element.uint8 source.bytes.length
  have hsize : Element.uint8.size = 1 := rfl
  have halign : Element.uint8.align = 1 := rfl
  have hone : Alignment.IsValid 1 := by decide
  rw [hsize, halign, Nat.mul_one] at hroom
  cases hr
  simp only [step, Arena.copySlice, Arena.allocCopy, hroom, Plan.bytes, Slice.length,
    if_neg (not_not_intro hone)]
  by_cases hvalid : Layout.Valid ⟨source.bytes.length, 1⟩
  · by_cases hempty : source.bytes.length = 0
    · simp only [if_neg (not_not_intro hvalid), if_pos hempty]
      rfl
    · simp only [if_neg (not_not_intro hvalid), if_neg hempty, follow]
      rcases s.arena.place source.bytes.length 1 with ⟨f | p, a⟩ <;> rfl
  · simp only [if_pos hvalid]
    rfl

/-- Every request for a range follows its plan. -/
theorem step_eq_follow {r : Request} {plan : Plan} (hr : r.plan? = some plan) :
    s.step r = s.follow r.fill plan := by
  cases r with
  | allocate size =>
      cases hr
      rw [follow_bytes, step]
      rcases s.arena.allocate size Alignment.standard with ⟨f | _ | p, a⟩ <;> rfl
  | allocateAligned size align =>
      cases hr
      rw [follow_bytes, step]
      rcases s.arena.allocate size align with ⟨f | _ | p, a⟩ <;> rfl
  | zeroed size align =>
      cases hr
      rw [follow_bytes, step, Arena.allocZeroed]
      rcases s.arena.allocate size align with ⟨f | _ | p, a⟩ <;> rfl
  | copySlice source => exact s.step_copySlice source hr
  | concat parts =>
      cases hr
      simp only [step, Arena.concat]
      cases htotal : Arena.totalLength? parts with
      | none => rfl
      | some total =>
          have hsum := (Arena.totalLength?_eq_some_iff.mp htotal).1.symm
          simp only [hsum, follow_bytes]
          rcases s.arena.allocate total 1 with ⟨f | _ | p, a⟩ <;> rfl
  | array e count =>
      cases hr
      rw [follow_values, step]
      rcases s.arena.allocateArray e count with ⟨f | _ | p, a⟩ <;> rfl
  | alloc e v =>
      cases hr
      rw [follow_values, step, Arena.alloc]
      rcases s.arena.allocateArray e 1 with ⟨f | _ | p, a⟩ <;> rfl
  | allocCopy e vs =>
      cases hr
      rw [follow_values, step, Arena.allocCopy]
      rcases s.arena.allocateArray e vs.length with ⟨f | _ | p, a⟩ <;> rfl
  | allocFill e count v =>
      cases hr
      rw [follow_values, step, Arena.allocFill]
      rcases s.arena.allocateArray e count with ⟨f | _ | p, a⟩ <;> rfl
  | write slot bytes => cases hr
  | reset => cases hr

/-- What becomes of a plan, whatever a range is filled with. -/
inductive Following (s : Session σ) : Plan → Except Arena.Failure Grant × Session σ → Prop where
  | answered (reply : Except Arena.Failure Grant) : Following s (.answer reply) (reply, s)
  | placed {size align written : Nat} {result : Except Arena.Failure Placement} {a : Arena σ}
    (m : Memory) : s.arena.place size align = (result, a) →
    Following s (.place size align written)
      (s.record { a with memory := m } size align written (result.map some))

theorem following {r : Request} {plan : Plan} (hr : r.plan? = some plan) :
    s.Following plan (s.step r) := by
  rw [step_eq_follow hr]
  cases plan with
  | answer reply => exact .answered reply
  | place size align written =>
      simp only [follow]
      rcases hplace : s.arena.place size align with ⟨f | p, a⟩
      · exact .placed a.memory hplace
      · obtain ⟨m, hm⟩ := r.fill_eq p a
        simp only [hm]
        exact .placed m hplace

/-- What is true of an arena whatever its memory holds, and stays true when a range is placed and
when all are given up, stays true with every request. -/
theorem step_keeps {P : Arena σ → Prop} (hmemory : ∀ {a} m, P a → P { a with memory := m })
    (hreset : ∀ {a}, P a → P a.reset)
    (hplace : ∀ {a size align}, 0 < size → Alignment.IsValid align → P a →
      P (a.place size align).2)
    (h : P s.arena) (r : Request) : P (s.step r).2.arena := by
  cases hplan : r.plan? with
  | none =>
      cases r with
      | write slot bytes =>
          obtain ⟨⟨m, hm⟩, -⟩ := s.write_eq slot bytes
          rw [step, hm]
          exact hmemory m h
      | reset => exact hreset h
      | _ => cases hplan
  | some plan =>
      have hend := following (s := s) hplan
      generalize s.step r = next at hend
      cases hend with
      | answered reply => exact h
      | @placed size align written result a m hstep =>
          obtain ⟨-, hsize, ha⟩ := Request.demand?_of_plan? hplan
          have hkept := hplace hsize ha h
          rw [hstep] at hkept
          rcases result with f | p <;> exact hmemory m hkept

end Session

end Lifespan
