import Lifespan.Proofs.Arena.Requests
import Lifespan.Proofs.Memory.Cell
import Lifespan.Proofs.Slice.Join

/-!
# What requests write

Placing a range writes nothing. Each form of request then writes the cells that it is for, from the
start of the range that it was given, and no other cell; if it was given no range it writes nothing
at all.
-/
namespace Lifespan

/-! ## Forms of requests -/

namespace Arena

variable {σ : Type} {α : Type} {a a' : Arena σ} {p q : Placement} {start : Nat}
  {cells : List Cell}

@[simp] theorem address?_writeAt (a : Arena σ) (p q : Placement) (offset : Nat)
    (cells : List Cell) : (a.writeAt p offset cells).address? q = a.address? q := by
  obtain ⟨m, hm⟩ := a.writeAt_eq p offset cells
  rw [hm]
  rfl

theorem memory_writeAt (h : a.address? p = some start) (offset : Nat) (cells : List Cell) :
    (a.writeAt p offset cells).memory = a.memory.write (start + offset) cells := by
  simp only [writeAt, h]

@[simp] theorem address?_writeParts (p q : Placement) (written : Nat) (parts : List Slice)
    (a : Arena σ) : (writeParts p written parts a).address? q = a.address? q := by
  obtain ⟨m, hm⟩ := writeParts_eq p written parts a
  rw [hm]
  rfl

/-- Slices that are written behind one another are written as one. -/
theorem read_writeParts (h : a.address? p = some start) (written : Nat) (parts : List Slice) :
    (writeParts p written parts a).memory.read =
      (a.memory.write (start + written) ((Slice.concat parts).map .byte)).read := by
  induction parts generalizing written a with
  | nil => exact (Memory.read_write_nil _ _).symm
  | cons part rest ih =>
      have hlength : start + (written + part.length) =
          start + written + (part.bytes.map Cell.byte).length := by
        rw [List.length_map, Nat.add_assoc, Slice.length]
      have h' : (a.writeAt p written (part.bytes.map .byte)).address? p = some start := by
        rw [address?_writeAt, h]
      rw [writeParts, ih h', memory_writeAt h, hlength, Memory.read_write_write,
        Slice.concat_cons, List.map_append]

variable [Source σ]

theorem memory_grow (a : Arena σ) (size align : Nat) :
    (a.grow size align).2.memory = a.memory := by
  rw [grow_eq]
  cases a.order size align with
  | error e => rfl
  | ok layout =>
      have h := a.taking layout size align
      dsimp only
      generalize a.take layout size align = result at h ⊢
      cases h <;> rfl

omit [Source σ] in
theorem memory_reuse {size align : Nat} (h : a.reuse size align = .ok (some (p, a'))) :
    a'.memory = a.memory := by
  simp only [reuse] at h
  split at h
  · contradiction
  · cases h
  · split at h
    · contradiction
    · split at h
      · contradiction
      · cases h
        rfl

/-- Placing a range writes nothing. -/
theorem memory_place (a : Arena σ) (size align : Nat) :
    (a.place size align).2.memory = a.memory := by
  have hgrow := a.memory_grow size align
  simp only [place]
  split
  · rfl
  · split
    · rfl
    · next hreuse =>
      have h := memory_reuse hreuse
      exact h
    · split
      · next heq => rwa [heq] at hgrow
      · next heq => rwa [heq] at hgrow

/-- What a form of request writes: nothing if there is no new range, and otherwise some cells from
the start of the range. -/
inductive Storing (a : Arena σ) (cells : List Cell) :
    Except Failure (Option Placement) × Arena σ → Prop where
  | unplaced {result : Except Failure (Option Placement)} {a' : Arena σ} :
    (∀ p, result ≠ .ok (some p)) → a'.memory = a.memory → Storing a cells (result, a')
  | placed {p : Placement} {a' : Arena σ} :
    (∀ start, a'.address? p = some start → a'.memory.read = (a.memory.write start cells).read) →
      Storing a cells (.ok (some p), a')

omit [Source σ] in
/-- Without a new range nothing is written, whatever the request is for. -/
theorem Storing.of_unplaced {result : Except Failure (Option Placement)}
    (h : a.Storing cells (result, a')) (hno : ∀ p, result ≠ .ok (some p)) (cells' : List Cell) :
    a.Storing cells' (result, a') := by
  cases h with
  | unplaced _ hmemory => exact .unplaced hno hmemory
  | placed _ => exact absurd rfl (hno _)

omit [Source σ] in
/-- A range that has been placed is written afterwards. -/
theorem Storing.store {s : Spot} (h : a.Storing [] (.ok s.placement?, a')) (cells : List Cell) :
    a.Storing cells (.ok s.placement?, a'.store s cells) := by
  cases s with
  | dangling address => exact h.of_unplaced (by simp [Spot.placement?]) cells
  | placed p =>
      cases h with
      | unplaced hno _ => exact absurd rfl (hno p)
      | placed hread =>
          refine .placed fun start hstart => ?_
          have hstart : a'.address? p = some start := by
            rwa [Arena.store, address?_writeAt] at hstart
          have hread := hread start hstart
          rw [Memory.read_write_nil] at hread
          rw [Arena.store, memory_writeAt hstart, Nat.add_zero]
          exact Memory.read_write_congr hread start cells

theorem allocate_storing (a : Arena σ) (size align : Nat) :
    a.Storing [] (a.allocate size align) := by
  have hmemory := a.memory_place size align
  simp only [allocate]
  split
  · exact .unplaced (by simp) rfl
  · split
    · exact .unplaced (by simp) rfl
    · split
      · next heq => exact .unplaced (by simp) (by rwa [heq] at hmemory)
      · next heq =>
        rw [heq] at hmemory
        refine .placed fun start _ => ?_
        rw [Memory.read_write_nil, hmemory]

theorem allocateArray_storing (a : Arena σ) (e : Element α) (count : Nat) :
    a.Storing []
      ((a.allocateArray e count).1.map Spot.placement?, (a.allocateArray e count).2) := by
  simp only [allocateArray]
  split
  · exact .unplaced (by simp [Except.map]) rfl
  · next layout _ =>
    have hmemory := a.memory_place layout.size layout.align
    split
    · exact .unplaced (by simp [Except.map, Spot.placement?]) rfl
    · split
      · next heq => exact .unplaced (by simp [Except.map]) (by rwa [heq] at hmemory)
      · next heq =>
        rw [heq] at hmemory
        refine .placed fun start _ => ?_
        rw [Memory.read_write_nil, hmemory]

theorem alloc_storing (a : Arena σ) (e : Element α) (v : α) :
    a.Storing (e.encode v) ((a.alloc e v).1.map Spot.placement?, (a.alloc e v).2) := by
  have h := a.allocateArray_storing e 1
  simp only [alloc]
  generalize a.allocateArray e 1 = result at h ⊢
  rcases result with ⟨f | s, a'⟩
  · exact h.of_unplaced (by simp [Except.map]) _
  · exact Storing.store h _

theorem allocCopy_storing (a : Arena σ) (e : Element α) (vs : List α) :
    a.Storing (e.encodeAll vs)
      ((a.allocCopy e vs).1.map Spot.placement?, (a.allocCopy e vs).2) := by
  have h := a.allocateArray_storing e vs.length
  simp only [allocCopy]
  generalize a.allocateArray e vs.length = result at h ⊢
  rcases result with ⟨f | s, a'⟩
  · exact h.of_unplaced (by simp [Except.map]) _
  · exact Storing.store h _

theorem allocFill_storing (a : Arena σ) (e : Element α) (count : Nat) (v : α) :
    a.Storing (e.encodeAll (List.replicate count v))
      ((a.allocFill e count v).1.map Spot.placement?, (a.allocFill e count v).2) := by
  have h := a.allocateArray_storing e count
  simp only [allocFill]
  generalize a.allocateArray e count = result at h ⊢
  rcases result with ⟨f | s, a'⟩
  · exact h.of_unplaced (by simp [Except.map]) _
  · have h := Storing.store h (e.encodeAll (List.replicate count v))
    cases s with
    | dangling address => exact h
    | placed p => exact h

theorem allocZeroed_storing (a : Arena σ) (size align : Nat) :
    a.Storing (List.replicate size (.byte 0)) (a.allocZeroed size align) := by
  have h := a.allocate_storing size align
  simp only [allocZeroed]
  generalize a.allocate size align = result at h ⊢
  rcases result with ⟨f | _ | p, a'⟩
  · exact h.of_unplaced (by simp) _
  · exact h.of_unplaced (by simp) _
  · exact Storing.store (s := .placed p) h _

theorem copySlice_storing (a : Arena σ) (s : Slice) :
    a.Storing (s.bytes.map .byte) (a.copySlice s) := by
  have h := a.allocCopy_storing Element.uint8 s.bytes
  rw [Element.encodeAll_uint8] at h
  simp only [copySlice]
  generalize a.allocCopy Element.uint8 s.bytes = result at h ⊢
  rcases result with ⟨f | spot, a'⟩
  · exact h
  · exact h

theorem concat_storing (a : Arena σ) (parts : List Slice) :
    a.Storing ((Slice.concat parts).map .byte) (a.concat parts) := by
  simp only [concat]
  cases totalLength? parts with
  | none => exact .unplaced (by simp) rfl
  | some total =>
      have h := a.allocate_storing total 1
      dsimp only
      generalize a.allocate total 1 = result at h ⊢
      rcases result with ⟨f | _ | p, a'⟩
      · exact h.of_unplaced (by simp) _
      · exact h.of_unplaced (by simp) _
      · cases h with
        | unplaced hno _ => exact absurd rfl (hno p)
        | placed hread =>
            refine .placed fun start hstart => ?_
            have hstart : a'.address? p = some start := by rwa [address?_writeParts] at hstart
            have hread := hread start hstart
            rw [Memory.read_write_nil] at hread
            rw [read_writeParts hstart, Nat.add_zero]
            exact Memory.read_write_congr hread start _

end Arena

/-! ## Steps of a session -/

/-- The cells that a request is for, from the start of its range on. -/
def Request.stored : Request → List Cell
  | .allocate _ | .allocateAligned _ _ | .array _ _ | .write _ _ | .reset => []
  | .zeroed size _ => List.replicate size (.byte 0)
  | .copySlice s => s.bytes.map .byte
  | .concat parts => (Slice.concat parts).map .byte
  | .alloc e v => e.encode v
  | .allocCopy e vs => e.encodeAll vs
  | .allocFill e count v => e.encodeAll (List.replicate count v)

/-- The values of a request take as many cells as their type says. -/
def Request.Sized : Request → Prop
  | .alloc e _ | .allocCopy e _ | .allocFill e _ _ => ∀ v, (e.encode v).length = e.size
  | _ => True

/-- The cells that a request is for fit into the range that it asks for. -/
theorem Request.length_stored_le {r : Request} {size align : Nat} (sized : r.Sized)
    (hr : r.demand? = some (size, align)) : r.stored.length ≤ size := by
  cases r with
  | allocate | allocateAligned | array => exact Nat.zero_le _
  | zeroed n _ =>
      cases hr
      exact Nat.le_of_eq List.length_replicate
  | copySlice s =>
      cases hr
      exact Nat.le_of_eq (List.length_map _)
  | concat parts =>
      cases hr
      exact Nat.le_of_eq ((List.length_map _).trans (Slice.length_concat parts))
  | alloc e v =>
      cases hr
      rw [Nat.one_mul]
      exact Nat.le_of_eq (sized v)
  | allocCopy e vs =>
      cases hr
      exact Nat.le_of_eq (Element.length_encodeAll sized vs)
  | allocFill e count v =>
      cases hr
      refine Nat.le_of_eq ((Element.length_encodeAll sized _).trans ?_)
      rw [List.length_replicate]
  | write | reset => contradiction

namespace Session

variable {σ : Type} {α : Type} {s : Session σ} {a : Arena σ} {cells : List Cell}

/-- What a step of a session writes: nothing if there is no new range, and otherwise some cells from
the start of the range, so that those which count as written have been. -/
inductive Storing (s : Session σ) (cells : List Cell) :
    Except Arena.Failure Grant × Session σ → Prop where
  | unplaced {reply : Except Arena.Failure Grant} {s' : Session σ} :
    (∀ i p, reply ≠ .ok (.placed i p)) → s'.arena.memory = s.arena.memory →
      Storing s cells (reply, s')
  | placed {i : Nat} {p : Placement} {s' : Session σ} :
    (∀ range, s'.slots = s.slots ++ [range] → range.written ≤ cells.length) →
    (∀ start, s'.arena.address? p = some start →
      s'.arena.memory.read = (s.arena.memory.write start cells).read) →
      Storing s cells (.ok (.placed i p), s')

theorem record_storing {result : Except Arena.Failure (Option Placement) × Arena σ}
    (h : s.arena.Storing cells result) (size align : Nat) {written : Nat}
    (hwritten : written ≤ cells.length) :
    s.Storing cells (s.record result.2 size align written result.1) := by
  rcases result with ⟨f | _ | p, a⟩
  · cases h with
    | unplaced _ hmemory => exact .unplaced (by simp) hmemory
  · cases h with
    | unplaced _ hmemory => exact .unplaced (by simp) hmemory
  · cases h with
    | unplaced hno _ => exact absurd rfl (hno p)
    | placed hread =>
        refine .placed (fun range hrange => ?_) hread
        obtain rfl : (⟨p, size, align, written⟩ : Slot) = range := by simpa using hrange
        exact hwritten

theorem recordValues_storing {result : Except Arena.Failure Spot × Arena σ} {e : Element α}
    (h : s.arena.Storing cells (result.1.map Spot.placement?, result.2)) (count : Nat)
    {known : Nat} (hknown : known * e.size ≤ cells.length) :
    s.Storing cells (s.recordValues result.2 e count known result.1) := by
  rcases result with ⟨f | _ | p, a⟩
  · cases h with
    | unplaced _ hmemory => exact .unplaced (by simp) hmemory
  · cases h with
    | unplaced _ hmemory => exact .unplaced (by simp) hmemory
  · have h : s.arena.Storing cells (.ok (some p), a) := h
    refine record_storing h _ _ ?_
    split
    · exact hknown
    · exact Nat.zero_le _

/-- Each request for a range writes just the cells that it is for. -/
theorem step_storing [Source σ] (s : Session σ) {r : Request} (sized : r.Sized)
    (hr : r.demand?.isSome) : s.Storing r.stored (s.step r) := by
  cases r with
  | allocate size => exact record_storing (s.arena.allocate_storing size _) _ _ (Nat.zero_le _)
  | allocateAligned size align =>
      exact record_storing (s.arena.allocate_storing size align) _ _ (Nat.zero_le _)
  | zeroed size align =>
      exact record_storing (s.arena.allocZeroed_storing size align) _ _
        (Nat.le_of_eq List.length_replicate.symm)
  | copySlice source =>
      exact record_storing (s.arena.copySlice_storing source) _ _
        (Nat.le_of_eq (List.length_map _).symm)
  | concat parts =>
      refine record_storing (s.arena.concat_storing parts) _ _ (Nat.le_of_eq ?_)
      rw [List.length_map, Slice.length_concat]
  | array e count =>
      refine recordValues_storing (s.arena.allocateArray_storing e count) _ ?_
      rw [Nat.zero_mul]
      exact Nat.zero_le _
  | alloc e v =>
      refine recordValues_storing (s.arena.alloc_storing e v) _ ?_
      rw [Nat.one_mul]
      exact Nat.le_of_eq (sized v).symm
  | allocCopy e vs =>
      exact recordValues_storing (s.arena.allocCopy_storing e vs) _
        (Nat.le_of_eq (Element.length_encodeAll sized vs).symm)
  | allocFill e count v =>
      refine recordValues_storing (s.arena.allocFill_storing e count v) _ ?_
      rw [Element.length_encodeAll sized, List.length_replicate]
  | write slot bytes => contradiction
  | reset => contradiction

end Session

end Lifespan
