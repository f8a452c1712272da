import Lifespan.Proofs.Cleanup.Moment
import Lifespan.Proofs.Cleanup.Trimming

/-!
# What commands come down to

Every command is a sequence of a few moves between a world and the objects that the command holds in
hand: objects are taken out and put back, new entries are made, references are counted, and what is
in hand is given up. What each move keeps, every command and every history keeps.

## Main definitions

* `Registration`, `World.registration?`: the entry that a command makes, and whether it is taken.
* `World.Move`, `World.Moves`: single moves, and sequences of them.

## Main results

* `World.moves_step`: what each command comes down to, the entry that it makes and the cascades that
  it launches.
-/
namespace Lifespan.Cleanup

/-- An entry that was made, and whether a chain has taken it. -/
structure Registration where
  entry : Entry
  isAccepted : Bool
deriving DecidableEq, Repr

/-- Whether new entries can be added through an object: a handle must refer to a shared chain and be
the only one to do so. -/
def Object.isOpen (heap : Heap) : Object → Bool
  | .handle h => decide (heap.refCount h = 1)
  | _ => true

/-- Just the objects that are open have target chains. -/
theorem Object.isOpen_eq (heap : Heap) (o : Object) : o.isOpen heap = (o.target? heap).isSome := by
  cases o with
  | chain entries => rfl
  | pinnable p => rfl
  | handle h =>
      cases h with
      | none => rfl
      | some c =>
          cases hs : heap.get? c with
          | none => simp [isOpen, target?, Heap.exclusive?, Heap.refCount_eq, hs]
          | some s =>
              by_cases hrefs : s.refs = 1 <;>
                simp [isOpen, target?, Heap.exclusive?, Heap.refCount_eq, hs, hrefs]

namespace Pinnable

variable {p q : Pinnable}

/-! ## Pinnable slices whose entries stay -/

theorem cleanups_copy {s : Slice} (h : p.copy s = .ok q) : q.cleanups = p.cleanups := by
  simp only [copy] at h
  split at h
  · contradiction
  · cases h
    rfl

theorem cleanups_showBuffer (h : p.showBuffer = .ok q) : q.cleanups = p.cleanups := by
  simp only [showBuffer] at h
  split at h
  · contradiction
  · cases h
    rfl

end Pinnable

namespace World

variable {w w' w'' : World} {hand hand' hand'' : List Object} {id target : String}
  {o : Object} {es : Chain} {made made' : List Registration} {launched launched' : List Moment}

/-- The entry that a command makes, if it makes one. -/
def registration? (w : World) : Command → Option Registration
  | .register id a => (w.find? id).map fun o => ⟨⟨w.nextTicket, .perform a⟩, o.isOpen w.heap⟩
  | .record id label =>
    if (w.target? id).isSome then
      some ⟨⟨w.nextTicket, .perform { label, tellsDrop := false }⟩, true⟩
    else none
  | .nest id target =>
    if id ≠ target ∧ (w.target? target).isSome then
      (w.find? id).map fun o => ⟨⟨w.nextTicket, .giveUp ((w.erase id).enclose o).1⟩, true⟩
    else none
  | .registerCopy id target | .moveInto id target =>
    if id ≠ target ∧ (w.target? target).isSome then
      match w.find? id with
      | some (.handle (some c)) => some ⟨⟨w.nextTicket, .giveUp (some c)⟩, true⟩
      | _ => none
    else none
  | .pinSlice id _ a =>
    match w.find? id with
    | some (.pinnable p) => some ⟨⟨w.nextTicket, .perform a⟩, !p.isPinned⟩
    | _ => none
  | _ => none

/-- The moves between a world and the objects in hand, each with the entries that it makes
and the cascades that it launches. -/
inductive Move :
    World → List Object → List Registration → List Moment → World → List Object → Prop where
  /-- What is in hand is looked at in another way. -/
  | regroup {w : World} {hand hand' : List Object} :
    (∀ p, (hand'.flatMap Object.own).countP p = (hand.flatMap Object.own).countP p) →
    (∀ c, hand'.count (.handle (some c)) = hand.count (.handle (some c))) →
      Move w hand [] [] w hand'
  | insert {w : World} {hand : List Object} {id : String} {o : Object} : w.isFree id →
    Move w (o :: hand) [] [] (w.insert id o) hand
  | take {w : World} {hand : List Object} {id : String} {o : Object} : w.find? id = some o →
    Move w hand [] [] (w.erase id) (o :: hand)
  | exchange {w : World} {hand : List Object} {id : String} {o : Object} (o' : Object) :
    w.find? id = some o → Move w (o' :: hand) [] [] (w.put id o') (o :: hand)
  | adjust {w : World} {hand : List Object} {id : String} {p q : Pinnable} :
    w.find? id = some (.pinnable p) → q.cleanups = p.cleanups →
      Move w hand [] [] (w.put id (.pinnable q)) hand
  | enter {w : World} {hand : List Object} {id : String} {es : Chain} (duty : Duty) :
    w.entriesAt? id = some es →
      Move w (duty.stake :: hand) [⟨⟨w.nextTicket, duty⟩, true⟩] [] (w.enter id es duty) hand
  /-- A new entry is added to a pinnable slice, which shows something else. -/
  | pin {w : World} {hand : List Object} {id : String} {p : Pinnable} (view : View) (a : Action) :
    w.find? id = some (.pinnable p) →
      Move w hand [⟨⟨w.nextTicket, .perform a⟩, true⟩] []
        ((w.issue (.perform a)).2.put id (.pinnable { p with
          view
          cleanups := p.cleanups ++ [⟨w.nextTicket, .perform a⟩] })) hand
  | refuse {w : World} {hand : List Object} (a : Action) :
    Move w hand [⟨⟨w.nextTicket, .perform a⟩, false⟩] []
      ((w.issue (.perform a)).2.discard ⟨w.nextTicket, .perform a⟩) hand
  | delegate {w : World} {hand : List Object} {id target : String} {moved es : Chain} :
    id ≠ target → w.target? id = some moved → w.target? target = some es →
      Move w hand [] [] ((w.setTarget target (es ++ moved)).setTarget id []) hand
  | vacate {w : World} {hand : List Object} {id : String} {es : Chain} :
    w.target? id = some es → Move w hand [] [] (w.setTarget id []) (.chain es :: hand)
  | pinFrom {w : World} {hand : List Object} {id source : String} {p : Pinnable} {moved : Chain}
    (view : View) :
    id ≠ source → w.find? id = some (.pinnable p) → w.target? source = some moved →
      Move w hand [] [] ((w.put id (.pinnable { p with
        view
        cleanups := p.cleanups ++ moved })).setTarget source []) hand
  | allocate {w : World} {hand : List Object} (es : Chain) :
    Move w (.chain es :: hand) [] [] { w with heap := (w.heap.allocate es).2 }
      (.handle (some (w.heap.allocate es).1) :: hand)
  | retain {w : World} {hand : List Object} {id : String} {h : Handle} (n : Nat) :
    w.find? id = some (.handle h) →
      Move w hand [] [] { w with heap := w.heap.retain h n } (List.replicate n (.handle h) ++ hand)
  | giveUp {w : World} {hand : List Object} (o : Object) :
    Move w (o :: hand) [] [w.launch hand o] (w.giveUp o).2 hand

/-- Sequences of moves. -/
inductive Moves :
    World → List Object → List Registration → List Moment → World → List Object → Prop where
  | nil {w : World} {hand : List Object} : Moves w hand [] [] w hand
  | cons {w w' w'' : World} {hand hand' hand'' : List Object} {made made' : List Registration}
    {launched launched' : List Moment} :
    Move w hand made launched w' hand' → Moves w' hand' made' launched' w'' hand'' →
      Moves w hand (made ++ made') (launched ++ launched') w'' hand''

theorem Moves.append (h : Moves w hand made launched w' hand')
    (h' : Moves w' hand' made' launched' w'' hand'') :
    Moves w hand (made ++ made') (launched ++ launched') w'' hand'' := by
  induction h with
  | nil => exact h'
  | cons hmove _ ih =>
      rw [List.append_assoc, List.append_assoc]
      exact .cons hmove (ih h')

theorem Move.moves (h : Move w hand made launched w' hand') :
    Moves w hand made launched w' hand' := by
  rw [← List.append_nil made, ← List.append_nil launched]
  exact .cons h .nil

theorem isFree_erase {new : String} (h : w.isFree new) (id : String) :
    (w.erase id).isFree new := by
  have hnone := List.lookup_eq_none_iff.mp (Option.isNone_iff_eq_none.mp h)
  refine Option.isNone_iff_eq_none.mpr (List.lookup_eq_none_iff.mpr fun x hx => ?_)
  exact hnone x (List.mem_filter.mp hx).1

/-! ## What is in hand -/

/-- An object that holds nothing may be had, and let go. -/
theorem move_cons_of_bare (hown : o.own = []) (hrefs : ∀ c, o ≠ .handle (some c)) :
    Move w hand [] [] w (o :: hand) := by
  refine .regroup (fun p => ?_) fun c => ?_
  · rw [countP_own_cons, hown, List.countP_nil, Nat.zero_add]
  · rw [count_handle_cons, if_neg (hrefs c), Nat.add_zero]

theorem move_tail_of_bare (hown : o.own = []) (hrefs : ∀ c, o ≠ .handle (some c)) :
    Move w (o :: hand) [] [] w hand := by
  refine .regroup (fun p => ?_) fun c => ?_
  · rw [countP_own_cons, hown, List.countP_nil, Nat.zero_add]
  · rw [count_handle_cons, if_neg (hrefs c), Nat.add_zero]

/-- Of a pinnable slice in hand only the chain counts. -/
theorem move_cleanups {p : Pinnable} :
    Move w (.pinnable p :: hand) [] [] w (.chain p.cleanups :: hand) := by
  refine .regroup (fun q => ?_) fun c => ?_
  · rw [countP_own_cons, countP_own_cons]
    rfl
  · rw [count_chain_cons, count_handle_cons, if_neg Object.noConfusion, Nat.add_zero]

theorem nextTicket_enclose (w : World) (o : Object) :
    (w.enclose o).2.nextTicket = w.nextTicket := by
  cases o <;> rfl

/-- Enclosing an object that is in hand leaves a handle in hand. -/
theorem moves_enclose (w : World) (o : Object) (hand : List Object) :
    Moves w (o :: hand) [] [] (w.enclose o).2 (.handle (w.enclose o).1 :: hand) := by
  cases o with
  | chain entries => exact (Move.allocate entries).moves
  | handle h => exact .nil
  | pinnable p => exact .cons move_cleanups (Move.allocate p.cleanups).moves

/-! ## Entries at an object -/

theorem entriesAt?_put_ne (h : w.entriesAt? target = some es) (hne : id ≠ target) (o : Object) :
    (w.put id o).entriesAt? target = some es := by
  rw [entriesAt?, find?_put_ne w o (Ne.symm hne)]
  exact h

theorem entriesAt?_erase_ne (h : w.entriesAt? target = some es) (hne : id ≠ target) :
    (w.erase id).entriesAt? target = some es := by
  rw [entriesAt?, find?_erase_ne w (Ne.symm hne)]
  exact h

/-- Entries stay where they are when no shared chain changes. -/
theorem entriesAt?_withHeap {heap : Heap} (h : w.entriesAt? id = some es)
    (hheap : ∀ c s, w.heap.get? c = some s → (heap.get? c).map Shared.chain = some s.chain) :
    { w with heap }.entriesAt? id = some es := by
  obtain ⟨o, ho, hes⟩ := Option.bind_eq_some_iff.mp h
  refine Option.bind_eq_some_iff.mpr ⟨o, ho, ?_⟩
  cases o with
  | chain entries => exact hes
  | pinnable p => exact hes
  | handle handle =>
      obtain ⟨s, hbind, rfl⟩ := Option.map_eq_some_iff.mp hes
      obtain ⟨c, rfl, hs⟩ := Option.bind_eq_some_iff.mp hbind
      exact hheap c s hs

theorem entriesAt?_allocate (h : w.entriesAt? id = some es) (chain : Chain) :
    { w with heap := (w.heap.allocate chain).2 }.entriesAt? id = some es := by
  refine entriesAt?_withHeap h fun c s hs => ?_
  have hne : c ≠ w.heap.cells.length := by
    rintro rfl
    rw [Heap.get?_length] at hs
    contradiction
  rw [Heap.get?_allocate, if_neg hne, hs, Option.map_some]

theorem entriesAt?_retain (h : w.entriesAt? id = some es) (handle : Handle) (n : Nat) :
    { w with heap := w.heap.retain handle n }.entriesAt? id = some es := by
  refine entriesAt?_withHeap h fun c s hs => ?_
  simp only [Heap.retain]
  split
  · rw [hs, Option.map_some]
  · next d =>
    split
    · rw [hs, Option.map_some]
    · next t ht =>
      rw [Heap.get?_set ht]
      split
      · next hdc =>
        rw [← hdc, ht] at hs
        cases hs
        rfl
      · rw [hs, Option.map_some]

theorem entriesAt?_enclose (h : w.entriesAt? id = some es) (o : Object) :
    (w.enclose o).2.entriesAt? id = some es := by
  cases o with
  | chain entries => exact entriesAt?_allocate h entries
  | handle _ => exact h
  | pinnable p => exact entriesAt?_allocate h p.cleanups

/-! ## Commands -/

theorem moves_create (hown : o.own = []) (hrefs : ∀ c, o ≠ .handle (some c)) :
    Moves w [] [] [] (w.create id o).2 [] := by
  simp only [create]
  split
  · next hfree => exact .cons (move_cons_of_bare hown hrefs) (Move.insert hfree).moves
  · exact .nil

theorem moves_createHandle (w : World) (id : String) (isAllocated : Bool) :
    Moves w [] [] [] (w.createHandle id isAllocated).2 [] := by
  have hchain : Move w [] [] [] w [.chain []] := move_cons_of_bare rfl fun _ => Object.noConfusion
  have hhandle : Move w [] [] [] w [.handle none] := move_cons_of_bare rfl fun _ => by simp
  simp only [createHandle]
  split
  · exact .nil
  · next hfree =>
    have hfree : w.isFree id = true := by simpa using hfree
    split
    · let w' : World := { w with heap := (w.heap.allocate []).2 }
      have hfree' : w'.isFree id = true := hfree
      exact .cons hchain (.cons (.allocate []) (Move.insert hfree').moves)
    · exact .cons hhandle (Move.insert hfree).moves

/-- A new action behind the entries at an object. -/
theorem moves_enter_perform (h : w.target? id = some es) (a : Action) :
    Moves w [] [⟨⟨w.nextTicket, .perform a⟩, true⟩] [] (w.enter id es (.perform a)) [] :=
  .cons (move_cons_of_bare rfl fun _ => Object.noConfusion)
    (Move.enter (.perform a) (entriesAt?_of_target? h)).moves

theorem moves_register (w : World) (id : String) (a : Action) :
    Moves w [] (w.registration? (.register id a)).toList [] (w.register id a).2 [] := by
  simp only [register, registration?]
  cases ho : w.find? id with
  | none => exact .nil
  | some o =>
      simp only [Option.map_some, Option.toList_some, Object.isOpen_eq]
      cases ht : o.target? w.heap with
      | some entries =>
          have h : w.target? id = some entries := by rw [target?, ho, Option.bind_some, ht]
          exact moves_enter_perform h a
      | none => exact (Move.refuse a).moves

theorem moves_record (w : World) (id label : String) :
    Moves w [] (w.registration? (.record id label)).toList [] (w.record id label).2 [] := by
  simp only [record, registration?]
  cases ht : w.target? id with
  | none => exact .nil
  | some entries => exact moves_enter_perform ht _

theorem moves_delegate (w : World) (id target : String) :
    Moves w [] [] [] (w.delegate id target).2 [] := by
  simp only [delegate, Chain.delegate_eq]
  by_cases hne : id = target
  · rw [if_pos hne]
    exact .nil
  · rw [if_neg hne]
    split
    · next hmoved hes => exact (Move.delegate hne hmoved hes).moves
    · exact .nil

theorem objects_run (w : World) (entries : Chain) : (w.run entries).2.objects = w.objects := rfl

theorem objects_release (w : World) (h : Handle) : (w.release h).2.objects = w.objects := rfl

/-- An object is exchanged for one that holds nothing, and given up. -/
theorem moves_put_giveUp (ho : w.find? id = some o) (o' : Object) (hown : o'.own = [])
    (hrefs : ∀ c, o' ≠ .handle (some c)) :
    Moves w [] [] [(w.put id o').launch [] o] ((w.put id o').giveUp o).2 [] :=
  .cons (move_cons_of_bare hown hrefs) (.cons (.exchange o' ho) (Move.giveUp o).moves)

theorem moves_reset (w : World) (id : String) :
    Moves w [] [] (w.launches (.reset id)) (w.reset id).2 [] := by
  simp only [reset, launches]
  rcases ho : w.find? id with _ | entries | h | p
  case none => exact .nil
  case some.chain => exact moves_put_giveUp ho _ (Object.own_emptied _) (Object.emptied_ne _)
  case some.handle => exact moves_put_giveUp ho _ (Object.own_emptied _) (Object.emptied_ne _)
  case some.pinnable =>
    have hmoves := moves_put_giveUp ho (.pinnable { p with cleanups := [] }) rfl
      fun _ => Object.noConfusion
    rw [giveUp] at hmoves
    dsimp only
    split
    · next w' heq =>
      rw [heq] at hmoves
      have hfind : w'.find? id = some (.pinnable { p with cleanups := [] }) := by
        have hobjects := objects_run (w.put id (.pinnable { p with cleanups := [] })) p.cleanups
        rw [heq] at hobjects
        rw [find?, hobjects]
        exact find?_put_self ho _
      let q : Pinnable := { p with view := .nothing, cleanups := [] }
      have hadjust : Move w' [] [] [] (w'.put id (.pinnable q)) [] := .adjust hfind rfl
      exact hmoves.append hadjust.moves
    · next heq =>
      rw [heq] at hmoves
      exact hmoves

theorem moves_flush (w : World) (id : String) :
    Moves w [] [] (w.launches (.flush id)) (w.flush id).2 [] := by
  simp only [flush, launches]
  cases ht : w.target? id with
  | none => exact .nil
  | some entries => exact .cons (.vacate ht) (Move.giveUp (.chain entries)).moves

theorem moves_drop (w : World) (id : String) :
    Moves w [] [] (w.launches (.drop id)) (w.drop id).2 [] := by
  simp only [drop, launches]
  cases ho : w.find? id with
  | none => exact .nil
  | some o => exact .cons (.take ho) (Move.giveUp o).moves

theorem moves_rename (w : World) (id new : String) :
    Moves w [] [] [] (w.rename id new).2 [] := by
  simp only [rename]
  split
  · exact .nil
  · next o ho =>
    split
    · next hfree => exact .cons (.take ho) (Move.insert (isFree_erase hfree id)).moves
    · exact .nil

theorem moves_nest (w : World) (id target : String) :
    Moves w [] (w.registration? (.nest id target)).toList [] (w.nest id target).2 [] := by
  simp only [nest, registration?]
  by_cases hne : id = target
  · rw [if_pos hne, if_neg fun h => h.1 hne]
    exact .nil
  · rw [if_neg hne]
    cases ho : w.find? id with
    | none =>
        dsimp only
        split <;> exact .nil
    | some o =>
        cases ht : w.target? target with
        | none =>
            rw [if_neg (by simp)]
            exact .nil
        | some entries =>
            have h := entriesAt?_enclose (entriesAt?_erase_ne (entriesAt?_of_target? ht) hne) o
            have henter : Moves _ [.handle ((w.erase id).enclose o).1] _ [] _ [] :=
              (Move.enter (.giveUp ((w.erase id).enclose o).1) h).moves
            rw [nextTicket_enclose] at henter
            rw [if_pos ⟨hne, rfl⟩]
            exact .cons (.take ho) ((moves_enclose _ o _).append henter)

theorem moves_allocate (w : World) (id : String) :
    Moves w [] [] (w.launches (.allocate id)) (w.allocate id).2 [] := by
  simp only [allocate, launches]
  rcases ho : w.find? id with _ | _ | h | _
  case some.handle =>
    have hmoves := moves_put_giveUp ho (.handle none) rfl fun _ => by simp
    rw [giveUp] at hmoves
    dsimp only
    split
    · next w' heq =>
      rw [heq] at hmoves
      have hfind : w'.find? id = some (.handle none) := by
        have hobjects := objects_release (w.put id (.handle none)) h
        rw [heq] at hobjects
        rw [find?, hobjects]
        exact find?_put_self ho _
      let w'' : World := { w' with heap := (w'.heap.allocate []).2 }
      have hfind' : w''.find? id = some (.handle none) := hfind
      exact hmoves.append (.cons (move_cons_of_bare rfl fun _ => Object.noConfusion)
        (.cons (.allocate []) (.cons (.exchange _ hfind')
          (move_tail_of_bare rfl fun _ => by simp).moves)))
    · next heq =>
      rw [heq] at hmoves
      exact hmoves
  all_goals exact .nil

theorem moves_share (w : World) (id new : String) :
    Moves w [] [] [] (w.share id new).2 [] := by
  simp only [share]
  split
  · next h ho =>
    split
    · next hfree =>
      let w' : World := { w with heap := w.heap.retain h 1 }
      have hfree' : w'.isFree new = true := hfree
      exact .cons (.retain 1 ho) (Move.insert hfree').moves
    · exact .nil
  · exact .nil

theorem moves_registerCopy (w : World) (id target : String) :
    Moves w [] (w.registration? (.registerCopy id target)).toList []
      (w.registerCopy id target).2 [] := by
  simp only [registerCopy, registration?]
  by_cases hne : id = target
  · rw [if_pos hne, if_neg fun h => h.1 hne]
    exact .nil
  · rw [if_neg hne]
    -- Only a handle that refers to a shared chain makes an entry.
    rcases ho : w.find? id with _ | _ | (_ | c) | _ <;> rcases ht : w.target? target with _ | es
    case some.handle.some.some =>
      have h := entriesAt?_retain (entriesAt?_of_target? ht) (some c) 1
      rw [if_pos ⟨hne, rfl⟩]
      exact .cons (.retain 1 ho) (Move.enter (.giveUp (some c)) h).moves
    all_goals simp only [ite_self, Option.isSome_none, Bool.false_eq_true, and_false, if_false]
    all_goals exact .nil

theorem moves_moveInto (w : World) (id target : String) :
    Moves w [] (w.registration? (.moveInto id target)).toList [] (w.moveInto id target).2 [] := by
  simp only [moveInto, registration?]
  by_cases hne : id = target
  · rw [if_pos hne, if_neg fun h => h.1 hne]
    exact .nil
  · rw [if_neg hne]
    rcases ho : w.find? id with _ | _ | (_ | c) | _ <;> rcases ht : w.target? target with _ | es
    case some.handle.some.some =>
      have h := entriesAt?_put_ne (entriesAt?_of_target? ht) hne (.handle none)
      rw [if_pos ⟨hne, rfl⟩]
      exact .cons (move_cons_of_bare rfl fun _ => by simp)
        (.cons (.exchange (.handle none) ho) (Move.enter (.giveUp (some c)) h).moves)
    all_goals simp only [ite_self, Option.isSome_none, Bool.false_eq_true, and_false, if_false]
    all_goals exact .nil

theorem moves_releaseTimes (w : World) (h : Handle) (n : Nat) :
    Moves w (List.replicate n (.handle h)) [] (w.lentLaunches h n) (w.releaseTimes h n) [] := by
  induction n generalizing w with
  | zero => exact .nil
  | succ n ih => exact .cons (.giveUp (.handle h)) (ih _)

theorem objects_releaseTimes (w : World) (h : Handle) (n : Nat) :
    (w.releaseTimes h n).objects = w.objects := by
  induction n generalizing w with
  | zero => rfl
  | succ n ih => exact (ih _).trans (w.objects_release h)

theorem moves_releaseOnPool (w : World) (id : String) (copies workers : Nat) :
    Moves w [] [] (w.launches (.releaseOnPool id copies workers))
      (w.releaseOnPool id copies workers).2 [] := by
  simp only [releaseOnPool, launches]
  rcases ho : w.find? id with _ | _ | h | _
  case some.handle =>
    dsimp only
    cases (Pool.create? workers none : Except Pool.Error (Pool Handle)) with
    | error e => exact .nil
    | ok pool =>
        let w' := { w with heap := w.heap.retain h copies }.releaseTimes h copies
        have hfind : w'.find? id = some (.handle h) := by
          rw [find?, objects_releaseTimes]
          exact ho
        have hretain : Move w [] [] [] _ (List.replicate copies (.handle h) ++ []) :=
          .retain copies ho
        rw [List.append_nil] at hretain
        have hmoves := Moves.cons hretain ((moves_releaseTimes _ h copies).append
          (moves_put_giveUp hfind (.handle none) rfl fun _ => by simp))
        rw [giveUp] at hmoves
        dsimp only
        split
        · next heq =>
          rw [heq] at hmoves
          exact hmoves
        · next heq =>
          rw [heq] at hmoves
          exact hmoves
  all_goals exact .nil

theorem moves_adjust (w : World) (id : String) {change : Pinnable → Except Fault Pinnable}
    (hchange : ∀ p q, change p = .ok q → q.cleanups = p.cleanups) :
    Moves w [] [] [] (w.adjust id change).2 [] := by
  simp only [adjust]
  split
  · next p ho =>
    split
    · next q hq => exact (Move.adjust ho (hchange p q hq)).moves
    · exact .nil
  · exact .nil

theorem moves_pinSlice (w : World) (id : String) (s : Slice) (a : Action) :
    Moves w [] (w.registration? (.pinSlice id s a)).toList [] (w.pinSlice id s a).2 [] := by
  simp only [pinSlice, registration?]
  rcases ho : w.find? id with _ | _ | _ | p
  case some.pinnable =>
    cases hpinned : p.isPinned with
    | false =>
        simp only [Pinnable.pin, hpinned]
        exact (Move.pin (.foreign s) a ho).moves
    | true =>
        simp only [Pinnable.pin, hpinned]
        exact (Move.refuse a).moves
  all_goals exact .nil

theorem moves_pinSliceFrom (w : World) (id : String) (s : Slice) (source : String) :
    Moves w [] [] [] (w.pinSliceFrom id s source).2 [] := by
  simp only [pinSliceFrom, Chain.delegate_eq]
  by_cases hne : id = source
  · rw [if_pos hne]
    exact .nil
  · rw [if_neg hne]
    split
    · exact .nil
    · next p moved ho ht =>
      cases hpinned : p.isPinned with
      | false =>
          simp only [Pinnable.pin, hpinned]
          exact (Move.pinFrom (.foreign s) hne ho ht).moves
      | true =>
          simp only [Pinnable.pin, hpinned]
          exact .nil
    · exact .nil

theorem moves_edit (w : World) (id : String) (e : BufferEdit) :
    Moves w [] [] [] (w.edit id e).2 [] := by
  simp only [edit]
  split
  · next p ho => exact (Move.adjust (q := p.edit e) ho rfl).moves
  · exact .nil

/-- Every command is a sequence of moves that begins and ends with empty hands, makes the entry of
the command and launches its cascades. -/
theorem moves_step (w : World) (c : Command) :
    Moves w [] (w.registration? c).toList (w.launches c) (w.step c).2 [] := by
  cases c with
  | createChain id => exact moves_create rfl fun _ => Object.noConfusion
  | createHandle id isAllocated => exact w.moves_createHandle id isAllocated
  | createPinnable id => exact moves_create rfl fun _ => Object.noConfusion
  | register id a => exact w.moves_register id a
  | record id label => exact w.moves_record id label
  | delegate id target => exact w.moves_delegate id target
  | reset id => exact w.moves_reset id
  | flush id => exact w.moves_flush id
  | drop id => exact w.moves_drop id
  | rename id new => exact w.moves_rename id new
  | nest id target => exact w.moves_nest id target
  | allocate id => exact w.moves_allocate id
  | share id new => exact w.moves_share id new
  | registerCopy id target => exact w.moves_registerCopy id target
  | moveInto id target => exact w.moves_moveInto id target
  | releaseOnPool id copies workers => exact w.moves_releaseOnPool id copies workers
  | pinSlice id s a => exact w.moves_pinSlice id s a
  | pinSliceFrom id s source => exact w.moves_pinSliceFrom id s source
  | pinSelf id s => exact w.moves_adjust id fun _ _ h => Pinnable.cleanups_copy h
  | repinSelf id => exact w.moves_adjust id fun _ _ h => Pinnable.cleanups_showBuffer h
  | dropFront id n =>
      exact w.moves_adjust id fun _ _ h => (Pinnable.trimmed_of_dropFront h).2.cleanups
  | dropBack id n =>
      exact w.moves_adjust id fun _ _ h => (Pinnable.trimmed_of_dropBack h).2.cleanups
  | edit id e => exact w.moves_edit id e

end World

end Lifespan.Cleanup
