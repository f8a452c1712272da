import Lifespan.Arena.Session
import Lifespan.Proofs.Arena.Orders
import Lifespan.Proofs.Source.Recorded

/-!
# Arenas over sources that answer alike

An arena takes from its source nothing but answers. Over two sources that answer alike it goes
through the same states, the states of the sources apart. So what an arena asks of a source can be
seen from what it asks of a source that keeps a record.
-/

namespace Lifespan

open Source

namespace Arena

variable {σ τ : Type} {α : Type} (f : σ → τ) (a : Arena σ)

/-- The arena with its source replaced by the image of the source. -/
def mapSource : Arena τ :=
  { a with source := f a.source }

theorem reuse_mapSource (size align : Nat) :
    (a.mapSource f).reuse size align =
      (a.reuse size align).map (Option.map (Prod.map id (mapSource f))) := by
  simp only [reuse, mapSource]
  cases a.index.search a.blocks size align with
  | error e => rfl
  | ok found =>
      cases found with
      | none => rfl
      | some r =>
          obtain ⟨room, offset⟩ := r
          cases hb : a.blocks[room.block]? with
          | none => simp [hb, Except.map]
          | some b =>
              cases hc : b.claim offset size with
              | error e => simp [hb, hc, Except.map]
              | ok b' => simp [hb, hc, Except.map, mapSource]

theorem writeAt_mapSource (p : Placement) (offset : Nat) (cells : List Cell) :
    (a.mapSource f).writeAt p offset cells = (a.writeAt p offset cells).mapSource f := by
  have haddress : (a.mapSource f).address? p = a.address? p := rfl
  simp only [writeAt, haddress]
  cases a.address? p with
  | none => rfl
  | some address => rfl

theorem store_mapSource (s : Spot) (cells : List Cell) :
    (a.mapSource f).store s cells = (a.store s cells).mapSource f := by
  cases s with
  | dangling address => rfl
  | placed p => exact a.writeAt_mapSource f p 0 cells

theorem writeParts_mapSource (p : Placement) (written : Nat) (parts : List Slice) :
    writeParts p written parts (a.mapSource f) = (writeParts p written parts a).mapSource f := by
  induction parts generalizing written a with
  | nil => rfl
  | cons part rest ih => rw [writeParts, writeParts, writeAt_mapSource, ih]

variable [Source σ] [Source τ] {f} (renders : Renders f)
include renders

theorem take_mapSource (layout : Layout) (size align : Nat) :
    (a.mapSource f).take layout size align =
      Prod.map id (mapSource f) (a.take layout size align) := by
  have halloc : Source.allocate layout (a.mapSource f).source =
      ((Source.allocate layout a.source).1, f (Source.allocate layout a.source).2) :=
    renders.allocate layout a.source
  simp only [take, halloc]
  rcases Source.allocate layout a.source with ⟨_ | base, source⟩
  · rfl
  · simp only [renders.usableSize]
    cases openBlock ⟨base, layout⟩ (max (Source.usableSize layout source) layout.size)
      size align with
    | error e => rfl
    | ok opened => rfl

theorem grow_mapSource (size align : Nat) :
    (a.mapSource f).grow size align = Prod.map id (mapSource f) (a.grow size align) := by
  have horder : (a.mapSource f).order size align = a.order size align := rfl
  rw [grow_eq, grow_eq, horder]
  cases a.order size align with
  | error e => rfl
  | ok layout => exact a.take_mapSource renders layout size align

theorem place_mapSource (size align : Nat) :
    (a.mapSource f).place size align = Prod.map id (mapSource f) (a.place size align) := by
  simp only [place, reuse_mapSource, a.grow_mapSource renders]
  split
  · rfl
  · rcases a.reuse size align with e | _ | ⟨p, a'⟩
    · rfl
    · rcases a.grow size align with ⟨e | p, a'⟩
      · rfl
      · rfl
    · rfl

/-! ## Forms of requests -/

theorem allocate_mapSource (size align : Nat) :
    (a.mapSource f).allocate size align = Prod.map id (mapSource f) (a.allocate size align) := by
  simp only [allocate, a.place_mapSource renders]
  split
  · rfl
  · split
    · rfl
    · rcases a.place size align with ⟨e | p, a'⟩
      · rfl
      · rfl

theorem allocateArray_mapSource (e : Element α) (count : Nat) :
    (a.mapSource f).allocateArray e count =
      Prod.map id (mapSource f) (a.allocateArray e count) := by
  simp only [allocateArray, a.place_mapSource renders]
  cases Layout.array? count e.size e.align with
  | none => rfl
  | some layout =>
      simp only
      split
      · rfl
      · rcases a.place layout.size layout.align with ⟨e | p, a'⟩
        · rfl
        · rfl

theorem alloc_mapSource (e : Element α) (v : α) :
    (a.mapSource f).alloc e v = Prod.map id (mapSource f) (a.alloc e v) := by
  simp only [alloc, a.allocateArray_mapSource renders]
  rcases a.allocateArray e 1 with ⟨e | s, a'⟩
  · rfl
  · simp [store_mapSource]

theorem allocCopy_mapSource (e : Element α) (vs : List α) :
    (a.mapSource f).allocCopy e vs = Prod.map id (mapSource f) (a.allocCopy e vs) := by
  simp only [allocCopy, a.allocateArray_mapSource renders]
  rcases a.allocateArray e vs.length with ⟨e | s, a'⟩
  · rfl
  · simp [store_mapSource]

theorem allocFill_mapSource (e : Element α) (count : Nat) (v : α) :
    (a.mapSource f).allocFill e count v = Prod.map id (mapSource f) (a.allocFill e count v) := by
  simp only [allocFill, a.allocateArray_mapSource renders]
  rcases a.allocateArray e count with ⟨e | s, a'⟩
  · rfl
  · simp [store_mapSource]

theorem allocZeroed_mapSource (size align : Nat) :
    (a.mapSource f).allocZeroed size align =
      Prod.map id (mapSource f) (a.allocZeroed size align) := by
  simp only [allocZeroed, a.allocate_mapSource renders]
  rcases a.allocate size align with ⟨e | _ | p, a'⟩
  · rfl
  · rfl
  · simp [writeAt_mapSource]

theorem copySlice_mapSource (s : Slice) :
    (a.mapSource f).copySlice s = Prod.map id (mapSource f) (a.copySlice s) := by
  simp only [copySlice, a.allocCopy_mapSource renders]
  rcases a.allocCopy Element.uint8 s.bytes with ⟨e | spot, a'⟩
  · rfl
  · rfl

theorem concat_mapSource (parts : List Slice) :
    (a.mapSource f).concat parts = Prod.map id (mapSource f) (a.concat parts) := by
  simp only [concat]
  cases totalLength? parts with
  | none => rfl
  | some total =>
      simp only [a.allocate_mapSource renders]
      rcases a.allocate total 1 with ⟨e | _ | p, a'⟩
      · rfl
      · rfl
      · simp [writeParts_mapSource]

/-- An arena is released alike over sources that answer alike. -/
theorem release_mapSource : (a.mapSource f).release = f a.release :=
  List.foldl_hom f fun s b => renders.deallocate b.grant.base b.grant.layout s

end Arena

namespace Session

variable {σ τ : Type} {α : Type} (f : σ → τ) (s : Session σ)

/-- The session with the source of its arena replaced by the image of the source. -/
def mapSource : Session τ := { arena := s.arena.mapSource f, slots := s.slots }

theorem record_mapSource (a : Arena σ) (size align written : Nat)
    (r : Except Arena.Failure (Option Placement)) :
    (s.mapSource f).record (a.mapSource f) size align written r =
      Prod.map id (mapSource f) (s.record a size align written r) := by
  rcases r with e | _ | p <;> rfl

theorem recordValues_mapSource (a : Arena σ) (e : Element α) (count known : Nat)
    (r : Except Arena.Failure Spot) :
    (s.mapSource f).recordValues (a.mapSource f) e count known r =
      Prod.map id (mapSource f) (s.recordValues a e count known r) := by
  rcases r with e | _ | p <;> rfl

theorem write_mapSource (slot : Nat) (bytes : Bytes) :
    (s.mapSource f).write slot bytes = (s.write slot bytes).mapSource f := by
  have hslots : (s.mapSource f).slots = s.slots := rfl
  simp only [write, hslots]
  split
  · rfl
  · split
    · have hwrite := s.arena.writeAt_mapSource f
      simp [mapSource, hwrite]
    · rfl

variable [Source σ] [Source τ] {f} (renders : Renders f)
include renders

theorem step_mapSource (r : Request) :
    (s.mapSource f).step r = Prod.map id (mapSource f) (s.step r) := by
  have harena : (s.mapSource f).arena = s.arena.mapSource f := rfl
  cases r with
  | allocate size =>
      simp only [step, harena, Arena.allocate_mapSource _ renders]
      exact s.record_mapSource f _ _ _ _ _
  | allocateAligned size align =>
      simp only [step, harena, Arena.allocate_mapSource _ renders]
      exact s.record_mapSource f _ _ _ _ _
  | zeroed size align =>
      simp only [step, harena, Arena.allocZeroed_mapSource _ renders]
      exact s.record_mapSource f _ _ _ _ _
  | copySlice source =>
      simp only [step, harena, Arena.copySlice_mapSource _ renders]
      exact s.record_mapSource f _ _ _ _ _
  | concat parts =>
      simp only [step, harena, Arena.concat_mapSource _ renders]
      exact s.record_mapSource f _ _ _ _ _
  | array e count =>
      simp only [step, harena, Arena.allocateArray_mapSource _ renders]
      exact s.recordValues_mapSource f _ _ _ _ _
  | alloc e v =>
      simp only [step, harena, Arena.alloc_mapSource _ renders]
      exact s.recordValues_mapSource f _ _ _ _ _
  | allocCopy e vs =>
      simp only [step, harena, Arena.allocCopy_mapSource _ renders]
      exact s.recordValues_mapSource f _ _ _ _ _
  | allocFill e count v =>
      simp only [step, harena, Arena.allocFill_mapSource _ renders]
      exact s.recordValues_mapSource f _ _ _ _ _
  | write slot bytes =>
      simp only [step, s.write_mapSource f]
      rfl
  | reset => rfl

/-- A history leads to the same state over sources that answer alike. -/
theorem run_mapSource (requests : List Request) :
    (s.mapSource f).run requests = (s.run requests).mapSource f := by
  induction requests generalizing s with
  | nil => rfl
  | cons r rest ih =>
      have hstep : ((s.mapSource f).step r).2 = ((s.step r).2).mapSource f := by
        rw [s.step_mapSource renders]
        rfl
      simp only [run, List.foldl_cons] at ih ⊢
      rw [hstep, ih]

end Session

end Lifespan
