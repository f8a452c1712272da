import Lifespan.Proofs.Arena.Safety
import Lifespan.Proofs.Arena.Writing
import Lifespan.Proofs.Memory.Content

/-!
# What has been stored stays

A user of an arena makes requests and stores cells in the ranges that it was given. What was stored
in a range is kept on the side, without regard to addresses: a new range has the content that its
request is for, and storing in a range changes the content of that range alone. The memory of the
arena shows the same, because no two ranges have an address in common.
-/
namespace Lifespan

/-! ## Acts -/

namespace Session

variable {σ : Type}

/-- What a user of a session does. -/
inductive Act : Type 1 where
  | request (r : Request)
  | store (slot offset : Nat) (cells : List Cell)

/-- The values in an act take as many cells as their type says. -/
def Act.Sized : Act → Prop
  | .request r => r.Sized
  | .store _ _ _ => True

/-- An act that is about the range in a slot: it stores something there, or gives up all ranges. -/
def Act.IsAbout (slot : Nat) : Act → Prop
  | .request (.write i _) => i = slot
  | .request .reset => True
  | .store i _ _ => i = slot
  | _ => False

/-- Stores cells in the range in a slot, if they fit into it. -/
def storeIn (s : Session σ) (slot offset : Nat) (cells : List Cell) : Session σ :=
  match s.slots[slot]? with
  | none => s
  | some range =>
    if offset + cells.length ≤ range.size then
      { s with arena := s.arena.writeAt range.placement offset cells }
    else s

/-- Carries out an act. -/
def act [Source σ] (s : Session σ) : Act → Except Arena.Failure Grant × Session σ
  | .request r => s.step r
  | .store slot offset cells => (.ok .nothing, s.storeIn slot offset cells)

/-- The session after some acts. -/
def perform [Source σ] (s : Session σ) (acts : List Act) : Session σ :=
  acts.foldl (fun s a => (s.act a).2) s

/-- The contents of all ranges after an act, as its reply tells. -/
def Act.contentsAfter (contents : List Content) (a : Act)
    (reply : Except Arena.Failure Grant) : List Content :=
  match a with
  | .request .reset => []
  | .request (.write slot bytes) => contents.modify slot (·.store 0 (bytes.map .byte))
  | .store slot offset cells => contents.modify slot (·.store offset cells)
  | .request r =>
    match r.demand?, reply with
    | some (size, _), .ok (.placed _ _) => contents ++ [(Content.unknown size).store 0 r.stored]
    | _, _ => contents

/-- The contents of all ranges after some acts, as the replies tell. -/
def contents [Source σ] (s : Session σ) (known : List Content) : List Act → List Content
  | [] => known
  | a :: rest => (s.act a).2.contents (a.contentsAfter known (s.act a).1) rest

end Session

/-! ## Ranges and addresses -/

namespace Arena

variable {σ : Type} {a a' : Arena σ} {held : List Range} {p q : Placement}
  {size align start start' : Nat}

/-- Blocks stay where they are. -/
theorem Keeps.address? (h : a.Keeps size align p a') (hq : a.address? q = some start) :
    a'.address? q = some start := by
  obtain ⟨b, hb, rfl⟩ := Option.map_eq_some_iff.mp hq
  obtain ⟨c, hc, hbase, _⟩ := h.kept _ b hb
  simp only [Arena.address?, hc, Option.map_some, hbase]

/-- The range that has been placed is in a block. -/
theorem Keeps.exists_address? (h : a.Keeps size align p a') :
    ∃ start, a'.address? p = some start := by
  obtain ⟨c, hc, -, -⟩ := h.claimed
  exact ⟨_, Option.map_eq_some_iff.mpr ⟨c, hc, rfl⟩⟩

theorem Holds.exists_address? (h : a.Holds held) {r : Range} (hr : r ∈ held) :
    ∃ start, a.address? r.placement = some start := by
  obtain ⟨_, b, hb, _⟩ := h.claimed r hr
  exact ⟨_, Option.map_eq_some_iff.mpr ⟨b, hb, rfl⟩⟩

/-- The addresses of two ranges are apart. -/
theorem Holds.apart_of_ne [Source σ] {origin : σ} (honest : Source.Honest origin)
    (sound : a.Sound origin) (h : a.Holds held) {i j : Nat} {r t : Range} (hij : i ≠ j)
    (hi : held[i]? = some r) (hj : held[j]? = some t) (hr : a.address? r.placement = some start)
    (ht : a.address? t.placement = some start') : Span.Apart ⟨start, r.size⟩ ⟨start', t.size⟩ := by
  have hpairs := List.pairwise_iff_getElem.mp (h.apart honest sound)
  obtain ⟨hilt, rfl⟩ := List.getElem?_eq_some_iff.mp hi
  obtain ⟨hjlt, rfl⟩ := List.getElem?_eq_some_iff.mp hj
  rcases Nat.lt_or_gt_of_ne hij with hlt | hgt
  · obtain ⟨s, u, hs, hu, hapart⟩ := hpairs i j hilt hjlt hlt
    simp only [span?, hr, ht, Option.map_some, Option.some.injEq] at hs hu
    rwa [← hs, ← hu] at hapart
  · obtain ⟨s, u, hs, hu, hapart⟩ := hpairs j i hjlt hilt hgt
    simp only [span?, hr, ht, Option.map_some, Option.some.injEq] at hs hu
    rw [← hs, ← hu] at hapart
    exact hapart.symm

/-- The memory has what is known of a range. -/
structure Shows (a : Arena σ) (range : Slot) (k : Content) : Prop where
  length : k.length = range.size
  known : k.Known range.written
  shown : ∃ start, a.address? range.placement = some start ∧ k.ShownBy a.memory start

/-- What is stored in a range is read there. -/
theorem Shows.writeAt {range : Slot} {k : Content} {offset : Nat} {cells : List Cell}
    (h : a.Shows range k) (hfit : offset + cells.length ≤ range.size) :
    (a.writeAt range.placement offset cells).Shows range (k.store offset cells) := by
  obtain ⟨start, hstart, hshown⟩ := h.shown
  refine ⟨by rw [Content.length_store, h.length], h.known.store offset cells, start, ?_, ?_⟩
  · rw [address?_writeAt, hstart]
  · refine hshown.store (by rwa [h.length]) ?_
    rw [memory_writeAt hstart]

/-- Cells that do not fit are not stored. -/
theorem Shows.store_eq {range : Slot} {k : Content} {offset : Nat} {cells : List Cell}
    (h : a.Shows range k) (hfit : ¬ offset + cells.length ≤ range.size) :
    k.store offset cells = k := by
  rw [Content.store, if_neg (by rwa [h.length])]

/-- What is known of a cell is read there. -/
theorem Shows.getElem?_cellsAt {range : Slot} {k : Content} {i : Nat} {c : Cell}
    (h : a.Shows range k) (hi : k[i]? = some (some c)) :
    (a.cellsAt range.placement range.size)[i]? = some c := by
  obtain ⟨start, hstart, hshown⟩ := h.shown
  have hlt := (List.getElem?_eq_some_iff.mp hi).1
  rw [h.length] at hlt
  simp only [Arena.cellsAt, hstart]
  rw [Memory.getElem?_readRange _ _ _ _ hlt, hshown i c hi]

/-- The cells that count as written are those that were last stored. -/
theorem Shows.take_written {range : Slot} {k : Content} (h : a.Shows range k) :
    k.take range.written = (a.cellsAt range.placement range.written).map some := by
  obtain ⟨start, hstart, hshown⟩ := h.shown
  simp only [Arena.cellsAt, hstart]
  exact hshown.take_eq h.known

end Arena

/-! ## Acts about other ranges -/

namespace Session

variable {σ : Type} [Source σ] {origin : σ} {s : Session σ} {i j start : Nat} {range other : Slot}
  {contents : List Content} {a : Act}

/-- The books of the arena are sound, and it holds the ranges in the slots. -/
structure Safe (origin : σ) (s : Session σ) : Prop where
  sound : s.arena.Sound origin
  holds : s.arena.Holds (s.slots.map Slot.range)

theorem Safe.step (honest : Source.Honest origin) (safe : s.Safe origin) (r : Request) :
    (s.step r).2.Safe origin :=
  ⟨sound_step honest safe.sound r, step_holds honest safe.sound safe.holds r⟩

theorem Safe.act (honest : Source.Honest origin) (safe : s.Safe origin) (a : Act) :
    (s.act a).2.Safe origin := by
  cases a with
  | request r => exact safe.step honest r
  | store slot offset cells =>
      simp only [Session.act, storeIn]
      split
      · exact safe
      · next range _ =>
        split
        · obtain ⟨m, hm⟩ := s.arena.writeAt_eq range.placement offset cells
          rw [hm]
          exact ⟨safe.sound.withMemory m, safe.holds.claimed, safe.holds.inOrder⟩
        · exact safe

theorem Safe.exists_address? (safe : s.Safe origin) (hi : s.slots[i]? = some range) :
    ∃ start, s.arena.address? range.placement = some start :=
  safe.holds.exists_address? (List.mem_map_of_mem (List.mem_of_getElem? hi))

/-- The addresses of the ranges in two slots are apart. -/
theorem Safe.apart (honest : Source.Honest origin) (safe : s.Safe origin) (hij : i ≠ j)
    (hi : s.slots[i]? = some range) (hj : s.slots[j]? = some other)
    (hstart : s.arena.address? range.placement = some start) {start' : Nat}
    (hstart' : s.arena.address? other.placement = some start') :
    Span.Apart ⟨start, range.size⟩ ⟨start', other.size⟩ := by
  have hi' : (s.slots.map Slot.range)[i]? = some range.range := by
    rw [List.getElem?_map, hi, Option.map_some]
  have hj' : (s.slots.map Slot.range)[j]? = some other.range := by
    rw [List.getElem?_map, hj, Option.map_some]
  exact safe.holds.apart_of_ne honest safe.sound hij hi' hj' hstart hstart'

/-- A range is as it was: it is in its slot and at its address, and its cells are the same. -/
structure Kept (s s' : Session σ) (i start : Nat) (range : Slot) : Prop where
  slot : s'.slots[i]? = some range
  address : s'.arena.address? range.placement = some start
  cells : ∀ j < range.size, s'.arena.memory.read (start + j) = s.arena.memory.read (start + j)

/-- Storing in one range leaves the others as they were. -/
theorem Kept.writeAt (honest : Source.Honest origin) (safe : s.Safe origin) (hij : i ≠ j)
    (hi : s.slots[i]? = some range) (hstart : s.arena.address? range.placement = some start)
    (hj : s.slots[j]? = some other) {offset : Nat} {cells : List Cell}
    (hfit : offset + cells.length ≤ other.size) {slots : List Slot}
    (hslots : slots[i]? = some range) :
    s.Kept ⟨s.arena.writeAt other.placement offset cells, slots⟩ i start range := by
  obtain ⟨start', hstart'⟩ := safe.exists_address? hj
  have hapart := safe.apart honest hij hi hj hstart hstart'
  refine ⟨hslots, by rw [Arena.address?_writeAt, hstart], fun k hk => ?_⟩
  rw [Arena.memory_writeAt hstart']
  refine Memory.read_write_of_outside _ ?_
  simp only [Span.Apart, Span.stop] at hapart
  omega

omit [Source σ] in
theorem Kept.refl (hi : s.slots[i]? = some range)
    (hstart : s.arena.address? range.placement = some start) : s.Kept s i start range :=
  ⟨hi, hstart, fun _ _ => rfl⟩

/-- A request for a range leaves all ranges that are there as they were. -/
theorem Kept.step (honest : Source.Honest origin) (safe : s.Safe origin) {r : Request}
    (sized : r.Sized) {size align : Nat} (hr : r.demand? = some (size, align))
    (hi : s.slots[i]? = some range) (hstart : s.arena.address? range.placement = some start) :
    s.Kept (s.step r).2 i start range := by
  have hmove := s.step_moving r
  have hstoring := s.step_storing sized (by rw [hr]; rfl)
  have safe' := safe.step honest r
  generalize s.step r = next at hmove hstoring safe' ⊢
  cases hmove with
  | reset => contradiction
  | write => contradiction
  | unplaced _ hreserve hno hreply _ =>
      obtain ⟨source, rfl⟩ := hreserve.unplaced_eq honest safe.sound hno
      cases hstoring with
      | unplaced _ hmemory => exact ⟨hi, hstart, fun k _ => by rw [hmemory]⟩
      | placed _ _ => exact absurd rfl (hreply _ _)
  | @placed _ size' _ written a' p hr' hreserve =>
      rw [hr] at hr'
      cases hr'
      cases hstoring with
      | unplaced hno _ => exact absurd rfl (hno _ _)
      | placed _ hread =>
          obtain ⟨m, b, rfl, hsize, ha, hplacing⟩ := hreserve.placed_eq honest safe.sound
          have hkeeps := Arena.keeps_of_placing honest safe.sound hsize ha hplacing
          have hlt := (List.getElem?_eq_some_iff.mp hi).1
          have hslot : (s.slots ++ [⟨p, size, align, written⟩])[i]? = some range := by
            rw [List.getElem?_append_left hlt, hi]
          have haddress := hkeeps.address? hstart
          refine ⟨hslot, haddress, fun k hk => ?_⟩
          -- The new range is in the next slot, and apart from the old one.
          have hnew := List.getElem?_concat_length
            (l := s.slots) (a := ⟨p, size, align, written⟩)
          obtain ⟨start', hstart'⟩ := safe'.exists_address? hnew
          have hapart := safe'.apart honest (Nat.ne_of_lt hlt) hslot hnew haddress hstart'
          rw [hread start' hstart']
          refine Memory.read_write_of_outside _ ?_
          have hfit := Request.length_stored_le sized hr
          simp only [Span.Apart, Span.stop] at hapart
          omega

omit [Source σ] in
/-- What two acts leave as it was is as it was after both. -/
theorem Kept.trans {s' s'' : Session σ} (h : s.Kept s' i start range)
    (h' : s'.Kept s'' i start range) : s.Kept s'' i start range :=
  ⟨h'.slot, h'.address, fun k hk => (h'.cells k hk).trans (h.cells k hk)⟩

/-- An act that is not about a range leaves it as it was. -/
theorem act_frame (honest : Source.Honest origin) (safe : s.Safe origin) (sized : a.Sized)
    (habout : ¬ a.IsAbout i) (hi : s.slots[i]? = some range)
    (hstart : s.arena.address? range.placement = some start) :
    s.Kept (s.act a).2 i start range := by
  cases a with
  | request r =>
      cases hr : r.demand? with
      | some demand => exact Kept.step honest safe sized hr hi hstart
      | none =>
          cases r with
          | write slot bytes =>
              simp only [act, Session.step, write]
              split
              · exact .refl hi hstart
              · next other hother =>
                split
                · next hfit =>
                  refine .writeAt honest safe (Ne.symm habout) hi hstart hother ?_ ?_
                  · rwa [Nat.zero_add, List.length_map]
                  · rwa [List.getElem?_set_ne habout]
                · exact .refl hi hstart
          | reset => exact absurd trivial habout
          | _ => contradiction
  | store slot offset cells =>
      simp only [act, storeIn]
      split
      · exact .refl hi hstart
      · next other hother =>
        split
        · next hfit => exact .writeAt honest safe (Ne.symm habout) hi hstart hother hfit hi
        · exact .refl hi hstart

/-- Acts that are not about a range leave it as it was. -/
theorem perform_frame (honest : Source.Honest origin) (safe : s.Safe origin) {acts : List Act}
    (hacts : ∀ a ∈ acts, a.Sized ∧ ¬ a.IsAbout i) (hi : s.slots[i]? = some range)
    (hstart : s.arena.address? range.placement = some start) :
    s.Kept (s.perform acts) i start range := by
  induction acts generalizing s with
  | nil => exact .refl hi hstart
  | cons a rest ih =>
      obtain ⟨sized, habout⟩ := hacts a List.mem_cons_self
      have h := act_frame honest safe sized habout hi hstart
      have h' := ih (safe.act honest a) (fun b hb => hacts b (List.mem_cons_of_mem _ hb)) h.slot
        h.address
      exact h.trans h'

/-! ## Contents of all ranges -/

/-- The memory has what is known of each range. -/
structure Shows (s : Session σ) (contents : List Content) : Prop where
  length : contents.length = s.slots.length
  shows : ∀ (i : Nat) (range : Slot), s.slots[i]? = some range →
    ∃ k, contents[i]? = some k ∧ s.arena.Shows range k

omit [Source σ] in
/-- What is as it was is shown as before. -/
theorem Kept.shows {s' : Session σ} {k : Content} (h : s.Kept s' i start range)
    (hstart : s.arena.address? range.placement = some start) (hk : s.arena.Shows range k) :
    s'.arena.Shows range k := by
  obtain ⟨start', hstart', hshown⟩ := hk.shown
  obtain rfl : start = start' := Option.some.inj (hstart.symm.trans hstart')
  exact ⟨hk.length, hk.known, start, h.address, hshown.frame (by rw [hk.length]; exact h.cells)⟩

/-- A request that is given no range changes no content. -/
theorem contentsAfter_unplaced {r : Request} (hr : r.demand?.isSome) (known : List Content)
    {reply : Except Arena.Failure Grant} (hno : ∀ i p, reply ≠ .ok (.placed i p)) :
    (Act.request r).contentsAfter known reply = known := by
  cases r with
  | write | reset => contradiction
  | _ =>
      rcases reply with _ | _ | _ | _ <;> first | rfl | exact absurd rfl (hno _ _)

/-- A request that is given a range has the content that it is for. -/
theorem contentsAfter_placed {r : Request} {size align : Nat}
    (hr : r.demand? = some (size, align)) (known : List Content) (i : Nat) (p : Placement) :
    (Act.request r).contentsAfter known (.ok (.placed i p)) =
      known ++ [(Content.unknown size).store 0 r.stored] := by
  cases r with
  | write | reset => contradiction
  | _ =>
      cases hr
      rfl

/-- A request for a range goes on showing the contents. -/
theorem Shows.step (honest : Source.Honest origin) (safe : s.Safe origin) {known : List Content}
    (h : s.Shows known) {r : Request} (sized : r.Sized) {size align : Nat}
    (hr : r.demand? = some (size, align)) :
    (s.step r).2.Shows ((Act.request r).contentsAfter known (s.step r).1) := by
  have hframe : ∀ (i : Nat) (range : Slot), s.slots[i]? = some range →
      ∃ k, known[i]? = some k ∧ (s.step r).2.arena.Shows range k := by
    intro i range hi
    obtain ⟨k, hk, hshows⟩ := h.shows i range hi
    obtain ⟨start, hstart⟩ := safe.exists_address? hi
    exact ⟨k, hk, (Kept.step honest safe sized hr hi hstart).shows hstart hshows⟩
  have hmove := s.step_moving r
  have hstoring := s.step_storing sized (by rw [hr]; rfl)
  have safe' := safe.step honest r
  generalize s.step r = next at hmove hstoring safe' hframe ⊢
  cases hmove with
  | reset => contradiction
  | write => contradiction
  | unplaced _ _ _ hreply _ =>
      rw [contentsAfter_unplaced (by rw [hr]; rfl) known hreply]
      exact ⟨h.length, hframe⟩
  | @placed _ size' _ written a' p hr' _ =>
      rw [hr] at hr'
      cases hr'
      rw [contentsAfter_placed hr]
      cases hstoring with
      | unplaced hno _ => exact absurd rfl (hno _ _)
      | placed hwritten hread =>
          have hfit : 0 + r.stored.length ≤ (Content.unknown size).length := by
            have := Request.length_stored_le sized hr
            rw [Content.unknown, List.length_replicate]
            omega
          refine ⟨by simp [h.length], fun i range hi => ?_⟩
          rcases Nat.lt_or_ge i s.slots.length with hlt | hge
          · rw [List.getElem?_append_left hlt] at hi
            obtain ⟨k, hk, hshows⟩ := hframe i range hi
            exact ⟨k, by rwa [List.getElem?_append_left (by rwa [h.length])], hshows⟩
          · have hslot := hi
            rw [List.getElem?_append_right hge, List.getElem?_singleton] at hi
            split at hi
            · next hzero =>
              obtain rfl := Option.some.inj hi
              obtain rfl : i = s.slots.length := by omega
              obtain ⟨start, hstart⟩ := safe'.exists_address? hslot
              refine ⟨_, by rw [← h.length, List.getElem?_concat_length], ?_, ?_, start, hstart, ?_⟩
              · rw [Content.length_store, Content.unknown, List.length_replicate]
              · exact Content.known_store_zero (by omega) (hwritten _ rfl)
              · exact (Content.shownBy_unknown size s.arena.memory start).store hfit
                  (hread start hstart)
            · contradiction

/-- A change of one range goes on showing the contents if it is shown and leaves the others as they
were. -/
theorem Shows.modify (safe : s.Safe origin) {known : List Content} (h : s.Shows known)
    {s' : Session σ} {slot : Nat} {f : Content → Content}
    (hlength : s'.slots.length = s.slots.length)
    (hslots : ∀ i, i ≠ slot → s'.slots[i]? = s.slots[i]?)
    (hkept : ∀ i range start, i ≠ slot → s.slots[i]? = some range →
      s.arena.address? range.placement = some start → s.Kept s' i start range)
    (hself : ∀ range k, s.slots[slot]? = some range → s.arena.Shows range k →
      ∃ range', s'.slots[slot]? = some range' ∧ s'.arena.Shows range' (f k)) :
    s'.Shows (known.modify slot f) := by
  refine ⟨by rw [List.length_modify, h.length, hlength], fun i range hi => ?_⟩
  by_cases hslot : i = slot
  · subst hslot
    have hlt := (List.getElem?_eq_some_iff.mp hi).1
    obtain ⟨old, hold⟩ : ∃ old, s.slots[i]? = some old :=
      ⟨_, List.getElem?_eq_getElem (by rwa [← hlength])⟩
    obtain ⟨k, hk, hshows⟩ := h.shows i old hold
    obtain ⟨range', hrange', hshows'⟩ := hself old k hold hshows
    obtain rfl : range = range' := Option.some.inj (hi.symm.trans hrange')
    exact ⟨f k, by rw [List.getElem?_modify_eq, hk]; rfl, hshows'⟩
  · rw [hslots i hslot] at hi
    obtain ⟨k, hk, hshows⟩ := h.shows i range hi
    obtain ⟨start, hstart⟩ := safe.exists_address? hi
    refine ⟨k, ?_, (hkept i range start hslot hi hstart).shows hstart hshows⟩
    rw [List.getElem?_modify_ne _ _ (Ne.symm hslot), hk]

omit [Source σ] in
@[simp] theorem slots_storeIn (s : Session σ) (slot offset : Nat) (cells : List Cell) :
    (s.storeIn slot offset cells).slots = s.slots := by
  simp only [storeIn]
  split
  · rfl
  · split <;> rfl

omit [Source σ] in
@[simp] theorem length_slots_write (s : Session σ) (slot : Nat) (bytes : Bytes) :
    (s.write slot bytes).slots.length = s.slots.length := by
  simp only [write]
  split
  · rfl
  · split
    · exact List.length_set
    · rfl

omit [Source σ] in
theorem getElem?_slots_write_ne (s : Session σ) {slot : Nat} (bytes : Bytes) (h : i ≠ slot) :
    (s.write slot bytes).slots[i]? = s.slots[i]? := by
  simp only [write]
  split
  · rfl
  · split
    · exact List.getElem?_set_ne (Ne.symm h)
    · rfl

/-- Storing cells in a range goes on showing the contents. -/
theorem Shows.storeIn (honest : Source.Honest origin) (safe : s.Safe origin)
    {known : List Content} (h : s.Shows known) (slot offset : Nat) (cells : List Cell) :
    (s.storeIn slot offset cells).Shows (known.modify slot (·.store offset cells)) := by
  refine h.modify safe (by rw [slots_storeIn]) (fun i _ => by rw [slots_storeIn])
    (fun i range start hne hi hstart => ?_) (fun range k hrange hshows => ?_)
  · exact act_frame (a := .store slot offset cells) honest safe trivial (Ne.symm hne) hi hstart
  · refine ⟨range, by rwa [slots_storeIn], ?_⟩
    simp only [Session.storeIn, hrange]
    split
    · next hfit => exact hshows.writeAt hfit
    · next hfit => rwa [hshows.store_eq hfit]

/-- Storing bytes at the start of a range goes on showing the contents. -/
theorem Shows.write (honest : Source.Honest origin) (safe : s.Safe origin)
    {known : List Content} (h : s.Shows known) (slot : Nat) (bytes : Bytes) :
    (s.write slot bytes).Shows (known.modify slot (·.store 0 (bytes.map .byte))) := by
  refine h.modify safe (s.length_slots_write slot bytes)
    (fun i => s.getElem?_slots_write_ne bytes) (fun i range start hne hi hstart => ?_)
    (fun range k hrange hshows => ?_)
  · exact act_frame (a := .request (.write slot bytes)) honest safe trivial (Ne.symm hne) hi
      hstart
  · have hlength : (bytes.map Cell.byte).length = bytes.length := List.length_map _
    simp only [Session.write, hrange]
    split
    · next hfit =>
      have hfit' : 0 + (bytes.map Cell.byte).length ≤ range.size := by omega
      have hstored := hshows.writeAt hfit'
      refine ⟨_, List.getElem?_set_self (List.getElem?_eq_some_iff.mp hrange).1, hstored.length,
        hstored.known.max (Content.known_store_zero ?_ (Nat.le_of_eq hlength.symm)),
        hstored.shown⟩
      rw [hshows.length, hlength]
      exact hfit
    · next hfit =>
      refine ⟨range, hrange, ?_⟩
      rwa [hshows.store_eq (by omega)]

/-- Every act goes on showing the contents. -/
theorem Shows.act (honest : Source.Honest origin) (safe : s.Safe origin) (sized : a.Sized)
    {known : List Content} (h : s.Shows known) :
    (s.act a).2.Shows (a.contentsAfter known (s.act a).1) := by
  cases a with
  | request r =>
      cases hr : r.demand? with
      | some demand => exact h.step honest safe sized hr
      | none =>
          cases r with
          | write slot bytes => exact h.write honest safe slot bytes
          | reset => exact ⟨rfl, by simp [Session.act, Session.step]⟩
          | _ => contradiction
  | store slot offset cells => exact h.storeIn honest safe slot offset cells

/-- Any number of acts goes on showing the contents. -/
theorem Shows.perform (honest : Source.Honest origin) (safe : s.Safe origin) {acts : List Act}
    (sized : ∀ a ∈ acts, a.Sized) {known : List Content} (h : s.Shows known) :
    (s.perform acts).Safe origin ∧ (s.perform acts).Shows (s.contents known acts) := by
  induction acts generalizing s known with
  | nil => exact ⟨safe, h⟩
  | cons a rest ih =>
      exact ih (safe.act honest a) (fun b hb => sized b (List.mem_cons_of_mem _ hb))
        (h.act honest safe (sized a List.mem_cons_self))

/-! ## Reading -/

omit [Source σ] in
/-- A range that is as it was reads as it did. -/
theorem Kept.cellsAt {s' : Session σ} (h : s.Kept s' i start range)
    (hstart : s.arena.address? range.placement = some start) :
    s'.arena.cellsAt range.placement range.size = s.arena.cellsAt range.placement range.size := by
  simp only [Arena.cellsAt, h.address, hstart]
  exact Memory.readRange_congr h.cells

/-- After any acts on a new arena over an honest source, each range that has been handed out since
the last reset reads as what was last stored in it, by the request that it was handed out for or
later, cell by cell. Its bytes that count as written were all stored. Acts that are not about it
change no cell of it, whether they succeed or not. -/
theorem stored_survives {config : Config} {source : σ} {arena : Arena σ}
    (honest : Source.Honest source) (created : Arena.create? config source = .ok arena)
    {acts : List Act} (sized : ∀ a ∈ acts, a.Sized) :
    let s := perform { arena } acts
    let known := Session.contents { arena } [] acts
    known.length = s.slots.length ∧
      ∀ (i : Nat) (range : Slot), s.slots[i]? = some range →
        (∃ k : Content, known[i]? = some k ∧ k.length = range.size ∧
          (∀ (j : Nat) (c : Cell), k[j]? = some (some c) →
            (s.arena.cellsAt range.placement range.size)[j]? = some c) ∧
          ∃ cells : List Cell, k.take range.written = cells.map some ∧
            s.read? i = some (cells.map Cell.toByte)) ∧
        ∀ later : List Act, (∀ a ∈ later, a.Sized ∧ ¬ a.IsAbout i) →
          (s.perform later).slots[i]? = some range ∧
            (s.perform later).arena.cellsAt range.placement range.size =
              s.arena.cellsAt range.placement range.size := by
  intro s known
  have safe : Safe source { arena } :=
    ⟨Arena.sound_of_create? created, by simp, List.Pairwise.nil⟩
  have shows : Shows { arena } [] := ⟨rfl, by simp⟩
  obtain ⟨safe, shows⟩ := shows.perform honest safe sized
  refine ⟨shows.length, fun i range hi => ⟨?_, fun later hlater => ?_⟩⟩
  · obtain ⟨k, hk, hshows⟩ := shows.shows i range hi
    refine ⟨k, hk, hshows.length, fun j c hj => hshows.getElem?_cellsAt hj, _,
      hshows.take_written, ?_⟩
    rw [read?, hi, Option.map_some, bytesOf, Arena.bytesAt]
  · obtain ⟨start, hstart⟩ := safe.exists_address? hi
    have h := perform_frame honest safe hlater hi hstart
    exact ⟨h.slot, h.cellsAt hstart⟩

/-- A copy of two numbers of which one byte is stored anew, with neighbours in the same block, a
second block, and requests that fail. -/
theorem stored_survives_neighbours :
    let source : AddressSpace := { skew := 16 }
    let config : Config := { initialBlockSize := 64, memoryLimit := some 256 }
    let arena : Arena AddressSpace := { config, source, nextBlockSize := 64 }
    let acts : List Act := [.request (.allocCopy Element.uint64 [1, 0xff00]),
      .request (.allocate 5), .request (.zeroed 300 1), .store 0 8 [.byte 9],
      .request (.write 1 [7, 7]), .request (.alloc Element.pair (3, 258)),
      .request (.zeroed 60 1)]
    let later : List Act := [.request (.allocFill Element.triple 2 (1, 2, 3)),
      .request (.write 1 [8]), .request (.allocateAligned 1 8192), .store 3 0 [.byte 5]]
    let s := perform { arena } acts
    let range : Slot := ⟨⟨0, 0⟩, 16, 8, 16⟩
    Source.Honest source ∧ Arena.create? config source = .ok arena ∧ (∀ a ∈ acts, a.Sized) ∧
      (∀ a ∈ later, a.Sized ∧ ¬ a.IsAbout 0) ∧ s.slots[0]? = some range ∧
      s.read? 0 = some [1, 0, 0, 0, 0, 0, 0, 0, 9, 255, 0, 0, 0, 0, 0, 0] ∧
      (s.perform later).slots[0]? = some range ∧
      (s.perform later).arena.cellsAt range.placement 16 = s.arena.cellsAt range.placement 16 := by
  intro source config arena acts later s range
  have honest := AddressSpace.honest source
  have created : Arena.create? config source = .ok arena := rfl
  have sized : ∀ a ∈ acts, a.Sized := by
    simp only [acts, List.forall_mem_cons, Act.Sized, Request.Sized, true_and]
    exact ⟨Element.length_encode_number 8 _ _, Element.length_encode_pair, by simp⟩
  have hlater : ∀ a ∈ later, a.Sized ∧ ¬ a.IsAbout 0 := by
    simp only [later, List.forall_mem_cons, Act.Sized, Request.Sized, Act.IsAbout]
    exact ⟨⟨Element.length_encode_triple, id⟩, by simp⟩
  have hslot : s.slots[0]? = some range := by decide
  obtain ⟨⟨k, hk, _, _, cells, hcells, hread⟩, hkept⟩ :=
    (stored_survives honest created sized).2 0 range hslot
  let bytes : Bytes := [1, 0, 0, 0, 0, 0, 0, 0, 9, 255, 0, 0, 0, 0, 0, 0]
  have hknown : (Session.contents { arena } [] acts)[0]? =
      some ((bytes.map Cell.byte).map some) := by decide
  obtain rfl : (bytes.map Cell.byte).map some = k := Option.some.inj (hknown.symm.trans hk)
  obtain rfl : bytes.map Cell.byte = cells :=
    List.map_injective_iff.mpr (Option.some_injective Cell) hcells
  exact ⟨honest, created, sized, hlater, hslot, hread, hkept later hlater⟩

end Session

end Lifespan
