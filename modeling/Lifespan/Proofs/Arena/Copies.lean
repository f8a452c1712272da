import Lifespan.Proofs.Arena.Accounting
import Lifespan.Proofs.Arena.Contents
import Lifespan.Proofs.Arena.Plans

/-!
# Copies of slices

Bytes are copied into an arena in three ways: as one slice, as values of a byte each, and as slices
behind one another. Whatever the slices are that the bytes come in, the three ways end alike. What
is copied last may come from the arena itself: a range that is made for a copy has no byte in common
with those that are copied, so each of them is still what it was when its turn comes.
-/

namespace Lifespan

/-! ## Slices of the arena -/

/-- A slice as it is held while an arena is at work. -/
inductive Part where
  | own (bytes : Bytes)
  | view (p : Placement) (length : Nat)

namespace Part

variable {σ : Type} {a a' : Arena σ} {part : Part} {p : Placement}

/-- What a part shows at the moment. -/
def slice (part : Part) (a : Arena σ) : Slice :=
  match part with
  | own bytes => ⟨bytes⟩
  | view p length => ⟨a.bytesAt p length⟩

/-- A part shows bytes of its own, or bytes of a range that is held. -/
def LiesIn (held : List Range) : Part → Prop
  | own _ => True
  | view p length => ∃ r ∈ held, p.block = r.placement.block ∧ r.placement.offset ≤ p.offset ∧
    p.offset + length ≤ r.placement.offset + r.size

/-- A part shows no byte at some addresses. -/
def ApartFrom (part : Part) (a : Arena σ) (s : Span) : Prop :=
  match part with
  | own _ => True
  | view p length => ∃ start, a.address? p = some start ∧ Span.Apart ⟨start, length⟩ s

/-- To write into a range leaves a part as it was that shows no byte of the range. -/
theorem slice_writeAt {start size offset : Nat} {cells : List Cell}
    (hapart : part.ApartFrom a ⟨start, size⟩) (hp : a.address? p = some start)
    (hfit : offset + cells.length ≤ size) :
    part.slice (a.writeAt p offset cells) = part.slice a := by
  cases part with
  | own bytes => rfl
  | view q length =>
      obtain ⟨from', hq, hapart⟩ := hapart
      have hcells : (a.writeAt p offset cells).cellsAt q length = a.cellsAt q length := by
        simp only [Arena.cellsAt, Arena.address?_writeAt, hq, Arena.memory_writeAt hp]
        refine Memory.readRange_congr fun i hi => Memory.read_write_of_outside _ ?_
        simp only [Span.Apart, Span.stop] at hapart
        omega
      simp only [slice, Arena.bytesAt, hcells]

/-- Writing moves no bytes. -/
theorem ApartFrom.writeAt {s : Span} (h : part.ApartFrom a s) (p : Placement) (offset : Nat)
    (cells : List Cell) : part.ApartFrom (a.writeAt p offset cells) s := by
  cases part with
  | own bytes => trivial
  | view q length =>
      obtain ⟨start, hq, hapart⟩ := h
      exact ⟨start, by rw [Arena.address?_writeAt, hq], hapart⟩

end Part

namespace Arena

variable {σ : Type} {a a' : Arena σ} {held : List Range} {p : Placement} {start size align : Nat}

/-- Writes parts behind one another into a placed range, from an offset on. Each is read when its
turn comes. -/
def copyParts (p : Placement) : Nat → List Part → Arena σ → Arena σ
  | _, [], a => a
  | written, part :: rest, a =>
    copyParts p (written + (part.slice a).length) rest
      (a.writeAt p written ((part.slice a).bytes.map .byte))

/-- The bytes of parts behind one another, each read when its turn comes. -/
def concatParts [Source σ] (a : Arena σ) (parts : List Part) :
    Except Failure (Option Placement) × Arena σ :=
  match totalLength? (parts.map fun part => part.slice a) with
  | none => (.error (.error (.layoutOverflow parts.length 1)), a)
  | some total =>
    match a.allocate total 1 with
    | (.ok (some p), a') => (.ok (some p), copyParts p 0 parts a')
    | r => r

/-- Parts that show no byte of a range are copied into it as they are at the start. -/
theorem copyParts_eq_writeParts (hp : a.address? p = some start) {written : Nat}
    {parts : List Part} (hapart : ∀ part ∈ parts, part.ApartFrom a ⟨start, size⟩)
    (hfit : written + sum ((parts.map fun part => part.slice a).map Slice.length) ≤ size) :
    copyParts p written parts a = writeParts p written (parts.map fun part => part.slice a) a := by
  induction parts generalizing written a with
  | nil => rfl
  | cons part rest ih =>
      rw [List.map_cons, List.map_cons, sum_cons] at hfit
      have hcells : ((part.slice a).bytes.map Cell.byte).length = (part.slice a).length :=
        List.length_map _
      -- The first part has been written, and the others are what they were.
      have hslices : (rest.map fun q => q.slice
          (a.writeAt p written ((part.slice a).bytes.map .byte))) =
          rest.map fun q => q.slice a :=
        List.map_congr_left fun q hq =>
          Part.slice_writeAt (hapart q (List.mem_cons_of_mem _ hq)) hp (by omega)
      rw [copyParts, List.map_cons, writeParts, ih (by rw [address?_writeAt, hp]), hslices]
      · exact fun q hq => (hapart q (List.mem_cons_of_mem _ hq)).writeAt p _ _
      · rw [hslices]
        omega

/-! ## What is placed for a copy -/

section Placed

variable [Source σ] {origin : σ} (honest : Source.Honest origin) (sound : a.Sound origin)
include honest sound

/-- Some bytes that have been allocated have been placed afresh. -/
theorem keeps_of_allocate (h : a.allocate size align = (.ok (some p), a')) :
    0 < size ∧ a.Keeps size align p a' ∧ a'.memory = a.memory ∧ a'.Sound origin := by
  simp only [allocate] at h
  split at h
  · cases h
  · next hsize =>
    split at h
    · cases h
    · next hvalid =>
      have hpos := Nat.pos_of_ne_zero hsize
      have ha := not_not.mp hvalid
      have hplacing := placing honest sound hpos ha
      have hmemory := a.memory_place size align
      have hsound := sound.of_placing hpos ha hplacing
      generalize a.place size align = result at h hplacing hmemory hsound
      rcases result with ⟨f | q, b⟩
      · cases h
      · cases h
        exact ⟨hpos, keeps_of_placing honest sound hpos ha hplacing, hmemory, hsound⟩

/-- The range that is placed has no byte of a part that lies in a range that was held. -/
theorem Holds.part_apartFrom (holds : a.Holds held) {part : Part} (hpart : part.LiesIn held)
    (h : a.allocate size align = (.ok (some p), a')) (hp : a'.address? p = some start) :
    part.ApartFrom a' ⟨start, size⟩ ∧ part.slice a' = part.slice a := by
  obtain ⟨hsize, hkeeps, hmemory, sound'⟩ := keeps_of_allocate honest sound h
  cases part with
  | own bytes => exact ⟨trivial, rfl⟩
  | view q length =>
      obtain ⟨r, hr, hblock, hstart, hstop⟩ := hpart
      obtain ⟨first, hfirst⟩ := holds.exists_address? hr
      obtain ⟨b, hb, rfl⟩ := Option.map_eq_some_iff.mp hfirst
      have hq : a.address? q = some (b.base + q.offset) := by
        rw [address?, hblock, hb, Option.map_some]
      have hq' := hkeeps.address? hq
      refine ⟨⟨_, hq', ?_⟩, ?_⟩
      · obtain ⟨i, hi⟩ := List.mem_iff_getElem?.mp hr
        have hlt := (List.getElem?_eq_some_iff.mp hi).1
        have hold : (held ++ [⟨p, size, align⟩])[i]? = some r := by
          rw [List.getElem?_append_left hlt, hi]
        have hapart := (holds.of_keeps hsize hkeeps).apart_of_ne honest sound' (Nat.ne_of_lt hlt)
          hold List.getElem?_concat_length (hkeeps.address? hfirst) hp
        refine hapart.mono ⟨?_, ?_⟩ ⟨Nat.le_refl _, Nat.le_refl _⟩
        · dsimp only
          omega
        · simp only [Span.stop]
          omega
      · simp only [Part.slice, bytesAt, cellsAt, hq, hq', hmemory]

/-- Slices over ranges that are held may be read at any time: what is copied is what they show
before. -/
theorem concatParts_eq (holds : a.Holds held) {parts : List Part}
    (hparts : ∀ part ∈ parts, part.LiesIn held) :
    a.concatParts parts = a.concat (parts.map fun part => part.slice a) := by
  rw [concatParts, concat, List.length_map]
  cases htotal : totalLength? (parts.map fun part => part.slice a) with
  | none => rfl
  | some total =>
      dsimp only
      rcases hallocate : a.allocate total 1 with ⟨f | _ | p, a'⟩
      · rfl
      · rfl
      · obtain ⟨-, hkeeps, -, -⟩ := keeps_of_allocate honest sound hallocate
        obtain ⟨start, hp⟩ := hkeeps.exists_address?
        have hslices : (parts.map fun part => part.slice a') =
            parts.map fun part => part.slice a :=
          List.map_congr_left fun part hpart =>
            (holds.part_apartFrom honest sound (hparts part hpart) hallocate hp).2
        have hfit := (totalLength?_eq_some_iff.mp htotal).1
        have hcopied : copyParts p 0 parts a' =
            writeParts p 0 (parts.map fun part => part.slice a') a' := by
          refine copyParts_eq_writeParts hp (fun part hpart =>
            (holds.part_apartFrom honest sound (hparts part hpart) hallocate hp).1) ?_
          rw [hslices]
          omega
        dsimp only
        rw [hcopied, hslices]

end Placed

/-! ## The ways to copy -/

/-- Two arenas differ by nothing that can be seen: their books are the same, and so is what their
memories read as, whatever writes these have come about by. -/
structure ReadsAs (a a' : Arena σ) : Prop where
  books : { a with memory := a'.memory } = a'
  read : a.memory.read = a'.memory.read

theorem ReadsAs.bytesAt (h : a.ReadsAs a') (p : Placement) (n : Nat) :
    a.bytesAt p n = a'.bytesAt p n := by
  have haddress : a.address? p = a'.address? p := by
    rw [← h.books]
    rfl
  have hcells : ∀ address, a.memory.readRange address n = a'.memory.readRange address n :=
    fun address => Memory.readRange_congr fun i _ => by rw [h.read]
  simp only [Arena.bytesAt, cellsAt, haddress, hcells]

/-- A place that is in no block is not written to. -/
theorem writeParts_of_address?_eq_none (hp : a.address? p = none) (written : Nat)
    (parts : List Slice) : writeParts p written parts a = a := by
  induction parts generalizing written with
  | nil => rfl
  | cons part rest ih => simp only [writeParts, writeAt, hp, ih]

/-- Slices are written behind one another as the one slice that they make up. -/
theorem writeParts_readsAs (p : Placement) (parts : List Slice) (a : Arena σ) :
    (writeParts p 0 parts a).ReadsAs (a.writeAt p 0 ((Slice.concat parts).map .byte)) := by
  cases hp : a.address? p with
  | none =>
      rw [writeParts_of_address?_eq_none hp]
      simp only [writeAt, hp]
      exact ⟨rfl, rfl⟩
  | some start =>
      obtain ⟨m, hm⟩ := writeParts_eq p 0 parts a
      have hread := read_writeParts hp 0 parts
      rw [hm] at hread ⊢
      simp only [writeAt, hp]
      exact ⟨rfl, hread⟩

/-- The slice that a copy of `n` bytes yields. -/
def sliceOf (a : Arena σ) (result : Option Placement) (n : Nat) : Slice :=
  match result with
  | none => Slice.empty
  | some p => ⟨a.bytesAt p n⟩

variable [Source σ]

/-- A slice is copied into a range of its length. -/
theorem copySlice_eq (a : Arena σ) {s : Slice} (hspan : s.length ≤ Word.maxSpan) :
    a.copySlice s =
      match a.allocate s.length 1 with
      | (.ok (some p), a') => (.ok (some p), a'.writeAt p 0 (s.bytes.map .byte))
      | r => r := by
  have hroom := Session.allocateArray_eq a Element.uint8 s.bytes.length
  have hsize : Element.uint8.size = 1 := rfl
  have halign : Element.uint8.align = 1 := rfl
  have hone : Alignment.IsValid 1 := by decide
  have hvalid : Layout.Valid ⟨s.bytes.length, 1⟩ := ⟨hone, Nat.add_le_add_right hspan 1⟩
  rw [hsize, halign, Nat.mul_one, if_neg (not_not_intro hvalid)] at hroom
  simp only [copySlice, allocCopy, hroom, allocate, Slice.length, if_neg (not_not_intro hone),
    Element.encodeAll_uint8]
  by_cases hempty : s.bytes.length = 0
  · simp only [if_pos hempty]
    rfl
  · simp only [if_neg hempty]
    rcases a.place s.bytes.length 1 with ⟨f | p, a'⟩ <;> rfl

/-- Slices behind one another are copied as the one slice that they make up. -/
theorem concat_agrees (a : Arena σ) {s : Slice} {parts : List Slice}
    (hspan : s.length ≤ Word.maxSpan) (hparts : Slice.concat parts = s.bytes) :
    (a.concat parts).1 = (a.copySlice s).1 ∧ (a.concat parts).2.ReadsAs (a.copySlice s).2 := by
  have hword : Word.maxSpan < Word.bound := by decide
  have hlength : s.length = sum (parts.map Slice.length) := by
    rw [← Slice.length_concat, hparts, Slice.length]
  have htotal : totalLength? parts = some s.length :=
    totalLength?_eq_some_iff.mpr ⟨hlength, by omega⟩
  rw [concat, htotal, copySlice_eq a hspan]
  dsimp only
  rcases a.allocate s.length 1 with ⟨f | _ | p, a'⟩
  · exact ⟨rfl, rfl, rfl⟩
  · exact ⟨rfl, rfl, rfl⟩
  · rw [← hparts]
    exact ⟨rfl, writeParts_readsAs p parts a'⟩

/-- Slices without bytes are copied to nowhere. -/
theorem concat_of_length_eq_zero (a : Arena σ) {parts : List Slice}
    (hzero : sum (parts.map Slice.length) = 0) : a.concat parts = (.ok none, a) := by
  have htotal : totalLength? parts = some 0 :=
    totalLength?_eq_some_iff.mpr ⟨hzero.symm, by decide⟩
  simp only [concat, htotal, allocate, if_true]

omit [Source σ] in
/-- Slices that have been written behind one another read back. -/
theorem bytesAt_writeParts (hp : a.address? p = some start) (parts : List Slice) :
    (writeParts p 0 parts a).bytesAt p (Slice.concat parts).length = Slice.concat parts := by
  have hread := read_writeParts hp 0 parts
  have hwritten := Memory.readRange_write a.memory start ((Slice.concat parts).map Cell.byte)
  rw [List.length_map] at hwritten
  rw [Nat.add_zero] at hread
  have hcells : (writeParts p 0 parts a).memory.readRange start (Slice.concat parts).length =
      (Slice.concat parts).map Cell.byte :=
    (Memory.readRange_congr fun i _ => by rw [hread]).trans hwritten
  simp only [bytesAt, cellsAt, address?_writeParts, hp, hcells, List.map_map]
  exact List.map_id _

/-- Slices are copied to nowhere if they have no bytes, and otherwise into a range that is allocated
for them. -/
theorem concat_cases {parts : List Slice} {result : Option Placement}
    (h : a.concat parts = (.ok result, a')) :
    (result = none ∧ Slice.concat parts = []) ∨
      ∃ p b, result = some p ∧ a.allocate (Slice.concat parts).length 1 = (.ok (some p), b) ∧
        a' = writeParts p 0 parts b := by
  rw [concat] at h
  cases htotal : totalLength? parts with
  | none =>
      rw [htotal] at h
      cases h
  | some total =>
      obtain rfl : total = (Slice.concat parts).length := by
        rw [Slice.length_concat]
        exact (totalLength?_eq_some_iff.mp htotal).1
      have hreserve := a.allocate_reserving (Slice.concat parts).length 1
      rw [htotal] at h
      dsimp only at h
      generalize a.allocate (Slice.concat parts).length 1 = allocated at h hreserve
      rcases allocated with ⟨f | _ | p, b⟩
      · cases h
      · cases h
        cases hreserve with
        | empty hzero => exact Or.inl ⟨rfl, List.length_eq_zero_iff.mp hzero⟩
      · cases h
        exact Or.inr ⟨p, b, rfl, rfl, rfl⟩

/-- What a copy of slices behind one another yields: nothing if they have no bytes, and otherwise
their bytes in a fresh range. -/
theorem concat_ends {origin : σ} (honest : Source.Honest origin) (sound : a.Sound origin)
    {parts : List Slice} {result : Option Placement} (h : a.concat parts = (.ok result, a')) :
    a'.sliceOf result (Slice.concat parts).length = ⟨Slice.concat parts⟩ ∧
      ∀ p, result = some p → 0 < (Slice.concat parts).length ∧
        a.Keeps (Slice.concat parts).length 1 p a' ∧ a'.Sound origin := by
  rcases concat_cases h with ⟨rfl, hempty⟩ | ⟨p, b, rfl, hallocate, rfl⟩
  · rw [hempty]
    exact ⟨rfl, by simp⟩
  · obtain ⟨hpos, hkeeps, -, sound'⟩ := keeps_of_allocate honest sound hallocate
    obtain ⟨start, hp⟩ := hkeeps.exists_address?
    obtain ⟨m, hm⟩ := writeParts_eq p 0 parts b
    refine ⟨congrArg Slice.mk (bytesAt_writeParts hp parts), ?_⟩
    rintro q ⟨⟩
    rw [hm]
    exact ⟨hpos, ⟨hkeeps.kept, hkeeps.claimed, hkeeps.fresh⟩, sound'.withMemory m⟩

end Arena

/-! ## Sessions -/

namespace Session

variable {σ : Type} [Source σ] {origin : σ} {s : Session σ}

/-- A copy of slices uses up as many bytes as it has, and none for padding. -/
theorem concat_counts (honest : Source.Honest origin) (sound : s.arena.Sound origin)
    {claims : List Claim} (accounts : s.arena.Accounts claims) {parts : List Slice}
    {p : Placement} {a' : Arena σ} (h : s.arena.concat parts = (.ok (some p), a')) :
    a'.allocatedBytes = s.arena.allocatedBytes + (Slice.concat parts).length ∧
      a'.usedBytes = s.arena.usedBytes + (Slice.concat parts).length := by
  have hstep := accounts_step honest sound accounts (.concat parts)
  have hclaims : claimsAfter s.arena claims (.concat parts) (.ok (.placed s.slots.length p)) =
      claims ++ [s.arena.claim p (Slice.concat parts).length 1] := by
    rw [Slice.length_concat]
    rfl
  simp only [step, h, record, hclaims] at hstep
  have hallocated := hstep.allocated
  have hused := hstep.used
  obtain ⟨hpadding, -⟩ := hstep.padded _ (List.mem_append_right _ (List.mem_singleton_self _))
  have hbefore := accounts.allocated
  have hbefore' := accounts.used
  simp only [List.map_append, sum_append, List.map_cons, List.map_nil, sum_cons, sum_nil,
    Arena.claim] at hallocated hused hpadding
  constructor <;> omega

/-- After any history of requests on a new arena over an honest source: if slices are copied behind
one another, what results is the bytes that they have when they are appended to an empty buffer, in
a fresh range of just that length; slices over ranges of the arena may be read while this is going
on. A slice that one object may be as large as is copied with the same end, whether as a slice, as
values of a byte each, or in any parts: the same place or the same error, the same bytes there, and
the same arena. Without bytes nothing changes. -/
theorem copies_agree {config : Config} {source : σ} {a : Arena σ}
    (honest : Source.Honest source) (created : Arena.create? config source = .ok a)
    (requests : List Request) :
    let s := run { arena := a } requests
    let held := handedOut { arena := a } [] requests
    (∀ (parts : List Slice) result a', s.arena.concat parts = (.ok result, a') →
      let total := (Slice.join [] parts).length
      a'.sliceOf result total = ⟨Slice.join [] parts⟩ ∧
      ∀ p, result = some p → s.arena.Keeps total 1 p a' ∧ a'.Holds (held ++ [⟨p, total, 1⟩]) ∧
        (∀ r ∈ held, ∃ t u, a'.span? r = some t ∧ a'.span? ⟨p, total, 1⟩ = some u ∧ t.Apart u) ∧
        a'.allocatedBytes = s.arena.allocatedBytes + total ∧
        a'.usedBytes = s.arena.usedBytes + total) ∧
    (∀ parts : List Part, (∀ part ∈ parts, part.LiesIn held) →
      s.arena.concatParts parts = s.arena.concat (parts.map fun part => part.slice s.arena)) ∧
    (∀ (slice : Slice) (parts : List Slice), slice.length ≤ Word.maxSpan →
      Slice.concat parts = slice.bytes →
      (s.arena.concat parts).1 = (s.arena.copySlice slice).1 ∧
      (s.arena.concat parts).2.ReadsAs (s.arena.copySlice slice).2 ∧
      (∀ p n, (s.arena.concat parts).2.bytesAt p n = (s.arena.copySlice slice).2.bytesAt p n) ∧
      (s.arena.allocCopy Element.uint8 slice.bytes).1.map Spot.placement? =
        (s.arena.copySlice slice).1 ∧
      (s.arena.allocCopy Element.uint8 slice.bytes).2 = (s.arena.copySlice slice).2) ∧
    (∀ parts : List Slice, sum (parts.map Slice.length) = 0 →
      s.arena.concat parts = (.ok none, s.arena)) ∧
    s.arena.copySlice Slice.empty = (.ok none, s.arena) ∧
    s.arena.allocCopy Element.uint8 [] = (.ok (.dangling 1), s.arena) := by
  intro s held
  have soundStart := Arena.sound_of_create? created
  obtain ⟨sound, holds⟩ := run_holds (s := { arena := a }) honest soundStart
    ⟨by simp, List.Pairwise.nil⟩ requests
  rw [range_slots_run] at holds
  have accounts := accounts_run (s := { arena := a }) honest soundStart
    (Arena.accounts_of_create? created) requests
  refine ⟨?_, fun parts hparts => Arena.concatParts_eq honest sound holds hparts, ?_,
    fun parts hzero => s.arena.concat_of_length_eq_zero hzero, rfl, rfl⟩
  · intro parts result a' hconcat total
    have hjoin : Slice.join [] parts = Slice.concat parts := List.nil_append _
    simp only [total, hjoin]
    obtain ⟨hslice, hfresh⟩ := Arena.concat_ends honest sound hconcat
    refine ⟨hslice, fun p hp => ?_⟩
    obtain ⟨hpos, hkeeps, sound'⟩ := hfresh p hp
    have holds' := holds.of_keeps hpos hkeeps
    subst hp
    refine ⟨hkeeps, holds', fun r hr => ?_, concat_counts honest sound accounts hconcat⟩
    obtain ⟨-, -, hpairs⟩ := List.pairwise_append.mp (holds'.apart honest sound')
    exact hpairs r hr _ (List.mem_singleton_self _)
  · intro slice parts hspan hparts
    obtain ⟨hreply, hreads⟩ := s.arena.concat_agrees hspan hparts
    refine ⟨hreply, hreads, hreads.bytesAt, ?_, ?_⟩ <;>
      rw [Arena.copySlice] <;>
      rcases s.arena.allocCopy Element.uint8 slice.bytes with ⟨f | spot, a'⟩ <;> rfl

/-- Parts of two ranges of the arena, one of them twice, with a byte and with nothing between them.
-/
theorem copies_agree_views :
    let source : AddressSpace := { skew := 16 }
    let config : Config := { initialBlockSize := 64 }
    let a : Arena AddressSpace := { config, source, nextBlockSize := 64 }
    let requests : List Request := [.copySlice ⟨[1, 2, 3]⟩, .allocateAligned 6 4, .write 1 [7, 8]]
    let parts : List Part := [.view ⟨0, 1⟩ 2, .own [], .own [9], .view ⟨0, 4⟩ 2, .view ⟨0, 0⟩ 3]
    let slice : Slice := ⟨[2, 3, 9, 7, 8, 1, 2, 3]⟩
    let s := run { arena := a } requests
    Source.Honest source ∧ Arena.create? config source = .ok a ∧
      (∀ part ∈ parts, part.LiesIn (handedOut { arena := a } [] requests)) ∧
      ∃ a', s.arena.concatParts parts = (.ok (some ⟨0, 10⟩), a') ∧
        a'.sliceOf (some ⟨0, 10⟩) 8 = slice ∧ a'.usedBytes = s.arena.usedBytes + 8 ∧
        (s.arena.copySlice slice).1 = .ok (some ⟨0, 10⟩) ∧
        a'.ReadsAs (s.arena.copySlice slice).2 := by
  intro source config a requests parts slice s
  have honest := AddressSpace.honest source
  have created : Arena.create? config source = .ok a := rfl
  obtain ⟨hends, hlive, hagree, -, -, -⟩ := copies_agree honest created requests
  have hheld : handedOut { arena := a } [] requests = [⟨⟨0, 0⟩, 3, 1⟩, ⟨⟨0, 4⟩, 6, 4⟩] := by decide
  have hparts : ∀ part ∈ parts, part.LiesIn (handedOut { arena := a } [] requests) := by
    rw [hheld]
    simp [parts, Part.LiesIn]
  have hslices : (parts.map fun part => part.slice s.arena) =
      [⟨[2, 3]⟩, ⟨[]⟩, ⟨[9]⟩, ⟨[7, 8]⟩, ⟨[1, 2, 3]⟩] := by decide
  have hreply : (s.arena.copySlice slice).1 = .ok (some ⟨0, 10⟩) := by decide
  obtain ⟨hsame, hreads, -, -, -⟩ :=
    hagree slice [⟨[2, 3]⟩, ⟨[]⟩, ⟨[9]⟩, ⟨[7, 8]⟩, ⟨[1, 2, 3]⟩] (by decide) rfl
  rcases hconcat : s.arena.concat [⟨[2, 3]⟩, ⟨[]⟩, ⟨[9]⟩, ⟨[7, 8]⟩, ⟨[1, 2, 3]⟩] with ⟨reply, a'⟩
  rw [hconcat] at hsame hreads
  obtain rfl : reply = .ok (some ⟨0, 10⟩) := hsame.trans hreply
  have hjoin : Slice.join [] [⟨[2, 3]⟩, ⟨[]⟩, ⟨[9]⟩, ⟨[7, 8]⟩, ⟨[1, 2, 3]⟩] = slice.bytes := rfl
  have hlength : slice.bytes.length = 8 := rfl
  obtain ⟨hslice, hfresh⟩ := hends _ _ _ hconcat
  simp only [hjoin, hlength] at hslice hfresh
  obtain ⟨-, -, -, -, hused⟩ := hfresh _ rfl
  refine ⟨honest, created, hparts, a', ?_, hslice, hused, hreply, hreads⟩
  rw [hlive parts hparts, hslices]
  exact hconcat

end Session

end Lifespan
