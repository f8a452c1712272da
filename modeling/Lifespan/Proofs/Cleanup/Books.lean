import Lifespan.Proofs.Cleanup.History
import Mathlib.Data.List.Nodup

/-!
# The books of a world

The books of a world say that names differ, that every entry ever made is in exactly one place, and
that references are counted right. What a command holds in hand is entered with the objects of the
world. Each move keeps the books, so they are right after every history, until a second action
fails and the program is aborted.
-/
namespace Lifespan.Cleanup.World

variable {w w' : World} {hand hand' : List Object} {issued : List Entry} {id target : String}
  {o : Object} {es es' moved : Chain} {made : List Registration} {launched : List Moment}

/-- The books of a world and the objects in hand, after some entries have been made. -/
structure Books (w : World) (hand : List Object) (issued : List Entry) : Prop where
  names : w.names.Nodup
  tickets : issued.map Entry.ticket = List.range w.nextTicket
  ledger : Ledger w.heap (hand ++ w.held) (w.log.map Event.entry) issued

/-- There are no entries and no references in the beginning. -/
theorem books_empty : Books {} [] [] where
  names := List.nodup_nil
  tickets := rfl
  ledger := ⟨fun _ => rfl, fun _ => rfl, fun c s h => by simp [Heap.get?] at h⟩

/-! ## Objects -/

theorem mem_held_of_find? (h : w.find? id = some o) : o ∈ w.held := by
  obtain ⟨before, after, heq, _⟩ := List.lookup_eq_some_iff.mp h
  rw [held, heq]
  simp

namespace Books

theorem nodup_issued (b : w.Books hand issued) : issued.Nodup := by
  refine List.Nodup.of_map Entry.ticket ?_
  rw [b.tickets]
  exact List.nodup_range

theorem regroup (b : w.Books hand issued)
    (hown : ∀ p, (hand'.flatMap Object.own).countP p = (hand.flatMap Object.own).countP p)
    (hrefs : ∀ c, hand'.count (.handle (some c)) = hand.count (.handle (some c))) :
    w.Books hand' issued := by
  refine ⟨b.names, b.tickets, b.ledger.regroup (fun p => ?_) fun c => ?_⟩
  · rw [List.flatMap_append, List.countP_append, hown, List.flatMap_append, List.countP_append]
  · rw [List.count_append, hrefs, List.count_append]

/-- One chain in the place of another one, if the entries in hand make up for it. -/
theorem swap (b : w.Books hand issued) (h : w.Swapped w' es es')
    (hown : ∀ p, (hand'.flatMap Object.own).countP p + es'.countP p =
      (hand.flatMap Object.own).countP p + es.countP p)
    (hrefs : ∀ c, hand'.count (.handle (some c)) = hand.count (.handle (some c))) :
    w'.Books hand' issued := by
  have hsame (p : Entry → Bool) :
      ((hand' ++ w'.held).flatMap Object.own).countP p + w'.heap.entries.countP p =
        ((hand ++ w.held).flatMap Object.own).countP p + w.heap.entries.countP p := by
    have hpending := h.pending p
    have := hown p
    simp only [pending, List.flatMap_append, List.countP_append] at hpending ⊢
    omega
  refine ⟨h.names ▸ b.names, h.nextTicket ▸ b.tickets, fun p => ?_, fun c => ?_, fun c s hs => ?_⟩
  · rw [hsame, h.log, b.ledger.entries]
  · have hcounted := b.ledger.counted c
    have := hsame (Entry.owns c)
    rw [Heap.refCount_eq] at hcounted ⊢
    rw [h.refs, List.count_append, hrefs, h.handles]
    rw [List.count_append] at hcounted
    omega
  · have hs' := h.refs c
    rw [hs, Option.map_some] at hs'
    obtain ⟨t, ht, hrefs⟩ := Option.map_eq_some_iff.mp hs'.symm
    exact hrefs ▸ b.ledger.refs_pos c t ht

/-- A new entry is in hand at first. -/
theorem issue {duty : Duty} (b : w.Books (duty.stake :: hand) issued) :
    (w.issue duty).2.Books (.chain [⟨w.nextTicket, duty⟩] :: hand)
      (issued ++ [⟨w.nextTicket, duty⟩]) where
  names := b.names
  tickets := by
    rw [List.map_append, b.tickets]
    exact List.range_succ.symm
  ledger := b.ledger.issue _

/-- Giving up what is in hand. -/
theorem giveUp (b : w.Books (o :: hand) issued) (h : (w.giveUp o).2.isAborted = false) :
    (w.giveUp o).2.Books hand issued := by
  rw [w.giveUp_eq hand o] at h ⊢
  have hend := (Cascade.books_begin b.ledger).settle (Bool.or_eq_false_iff.mp h).2
  rw [Cascade.Books, Cascade.dueEntries, Cascade.due_settle, List.map_nil, Ledger.empty_cons_iff,
    ← List.map_append] at hend
  exact ⟨b.names, b.tickets, hend⟩

/-! ## Target chains -/

/-- A handle with a target chain is the only one that refers to it. -/
theorem ne_of_exclusive? (b : w.Books hand issued) (hne : id ≠ target) {c d : CellId}
    (hid : w.find? id = some (.handle (some c)))
    (htarget : w.find? target = some (.handle (some d))) {s : Shared}
    (hs : w.heap.get? d = some s) (hrefs : s.refs = 1) : c ≠ d := by
  rintro rfl
  have herase : (.handle (some c)) ∈ (w.erase id).held :=
    mem_held_of_find? ((find?_erase_ne w (Ne.symm hne)).trans htarget)
  have hpos := List.count_pos_iff.mpr herase
  have hcount := (perm_erase b.names hid).count_eq (.handle (some c))
  have hcounted := b.ledger.counted c
  rw [Heap.refCount_of_get? hs, hrefs, List.count_append] at hcounted
  rw [List.count_cons_self] at hcount
  omega

/-- Two objects with target chains do not share one. -/
theorem entriesAt?_setTarget (b : w.Books hand issued) (hne : id ≠ target)
    (hmoved : w.target? id = some moved) (hes : w.target? target = some es) (es' : Chain) :
    (w.setTarget target es').entriesAt? id = some moved := by
  have hat := entriesAt?_of_target? hmoved
  obtain ⟨o, ho, ht⟩ := Option.bind_eq_some_iff.mp hes
  simp only [setTarget]
  rw [ho]
  cases o with
  | chain entries => exact entriesAt?_put_ne hat (Ne.symm hne) _
  | pinnable p => exact entriesAt?_put_ne hat (Ne.symm hne) _
  | handle h =>
      obtain ⟨d, s, rfl, hs, hrefs, rfl⟩ := Heap.exclusive?_eq_some_iff.mp ht
      dsimp only
      rw [Heap.setChain_eq hs]
      obtain ⟨o', ho', ht'⟩ := Option.bind_eq_some_iff.mp hmoved
      refine Option.bind_eq_some_iff.mpr ⟨o', ho', ?_⟩
      cases o' with
      | chain entries => exact ht'
      | pinnable p => exact ht'
      | handle h' =>
          obtain ⟨c, t, rfl, hc, _, rfl⟩ := Heap.exclusive?_eq_some_iff.mp ht'
          have hcd := b.ne_of_exclusive? hne ho' ho hs hrefs
          simp only [Object.entriesIn?, Option.bind_some, Heap.get?_set hs, if_neg (Ne.symm hcd),
            hc, Option.map_some]

/-! ## Moves -/

theorem enter {duty : Duty} (b : w.Books (duty.stake :: hand) issued)
    (hes : w.entriesAt? id = some es) :
    (w.enter id es duty).Books hand (issued ++ [⟨w.nextTicket, duty⟩]) := by
  have hswap : (w.issue duty).2.Swapped (w.enter id es duty) es (es ++ [⟨w.nextTicket, duty⟩]) :=
    swapped_setTarget (w := (w.issue duty).2) b.names hes _
  refine b.issue.swap hswap (fun p => ?_) fun c => (count_chain_cons c _ _).symm
  rw [countP_own_cons, Object.own, List.countP_append]
  omega

theorem delegate (b : w.Books hand issued) (hne : id ≠ target)
    (hmoved : w.target? id = some moved) (hes : w.target? target = some es) :
    ((w.setTarget target (es ++ moved)).setTarget id []).Books hand issued := by
  have htarget := swapped_setTarget b.names (entriesAt?_of_target? hes) (es ++ moved)
  have hnames : (w.setTarget target (es ++ moved)).names.Nodup := htarget.names ▸ b.names
  have hid := swapped_setTarget hnames (b.entriesAt?_setTarget hne hmoved hes (es ++ moved)) []
  refine b.swap (htarget.append hid) (fun p => ?_) fun _ => rfl
  rw [List.append_nil]

theorem vacate (b : w.Books hand issued) (hes : w.target? id = some es) :
    (w.setTarget id []).Books (.chain es :: hand) issued := by
  refine b.swap (swapped_setTarget b.names (entriesAt?_of_target? hes) []) (fun p => ?_) fun c => ?_
  · rw [countP_own_cons, Object.own, List.countP_nil]
    omega
  · rw [count_chain_cons]

theorem pinFrom {p : Pinnable} (b : w.Books hand issued) (view : View) (hne : id ≠ target)
    (ho : w.find? id = some (.pinnable p)) (hmoved : w.target? target = some moved) :
    ((w.put id (.pinnable { p with view, cleanups := p.cleanups ++ moved })).setTarget
      target []).Books hand issued := by
  let q : Pinnable := { p with view, cleanups := p.cleanups ++ moved }
  have hput : w.Swapped (w.put id (.pinnable q)) p.cleanups q.cleanups :=
    swapped_put b.names ho rfl rfl
  have hnames : (w.put id (.pinnable q)).names.Nodup := hput.names ▸ b.names
  have htarget := swapped_setTarget hnames
    (entriesAt?_put_ne (entriesAt?_of_target? hmoved) hne (.pinnable q)) []
  refine b.swap (hput.append htarget) (fun p => ?_) fun _ => rfl
  rw [List.append_nil]

theorem retain {h : Handle} (b : w.Books hand issued) (n : Nat)
    (ho : w.find? id = some (.handle h)) :
    Books { w with heap := w.heap.retain h n } (List.replicate n (.handle h) ++ hand) issued := by
  cases h with
  | none =>
      refine b.regroup (fun p => ?_) fun c => ?_
      · simp [List.flatMap_append, List.flatMap_replicate, Object.own]
      · simp [List.count_append, List.count_replicate]
  | some c =>
      obtain ⟨s, hs⟩ := b.ledger.exists_of_mem (List.mem_append_right hand (mem_held_of_find? ho))
      refine ⟨b.names, b.tickets, ?_⟩
      rw [List.append_assoc]
      exact b.ledger.retain hs n

/-- Every move keeps the books, unless the program is aborted. -/
theorem move (b : w.Books hand issued) (h : Move w hand made launched w' hand')
    (hab : w'.isAborted = false) : w'.Books hand' (issued ++ made.map Registration.entry) := by
  have hbare {duty : Duty} (hduty : duty.stake = .chain []) : w.Books (duty.stake :: hand) issued :=
    ⟨b.names, b.tickets, hduty ▸ Ledger.empty_cons_iff.mpr b.ledger⟩
  cases h with
  | regroup hown hrefs => simpa using b.regroup hown hrefs
  | insert hfree =>
      rw [List.map_nil, List.append_nil]
      refine ⟨nodup_names_insert b.names hfree _, b.tickets, b.ledger.perm ?_⟩
      rw [held_insert, ← List.append_assoc]
      exact (List.perm_append_singleton _ _).symm
  | take ho =>
      rw [List.map_nil, List.append_nil]
      refine ⟨nodup_names_erase b.names _, b.tickets, b.ledger.perm ?_⟩
      exact ((perm_erase b.names ho).symm.append_left hand).trans List.perm_middle
  | exchange o' ho =>
      rw [List.map_nil, List.append_nil]
      refine ⟨?_, b.tickets, b.ledger.perm ?_⟩
      · rw [names_put b.names ho]
        exact b.names
      · exact (List.perm_middle.symm.trans ((perm_put b.names ho o').symm.append_left _)).trans
          List.perm_middle
  | adjust ho hq =>
      rw [List.map_nil, List.append_nil]
      exact b.swap (swapped_put b.names ho rfl rfl) (fun p => by simp only [Object.own, hq])
        fun _ => rfl
  | enter duty hes => exact b.enter hes
  | pin view a ho =>
      refine (hbare rfl).issue.swap (swapped_put b.names ho rfl rfl) (fun p => ?_) fun c => ?_
      · simp only [countP_own_cons, Object.own, List.countP_append]
        omega
      · rw [count_chain_cons]
  | refuse a =>
      have b' : (w.issue (.perform a)).2.Books _ _ := issue (hbare rfl)
      refine ⟨b'.names, b'.tickets, ?_⟩
      rw [discard, List.map_append]
      exact Ledger.empty_cons_iff.mp (Ledger.empty_cons_iff.mp b'.ledger.finish)
  | delegate hne hmoved hes => simpa using b.delegate hne hmoved hes
  | vacate hes => simpa using b.vacate hes
  | pinFrom view hne ho hmoved => simpa using b.pinFrom view hne ho hmoved
  | allocate es =>
      rw [List.map_nil, List.append_nil]
      exact ⟨b.names, b.tickets, b.ledger.allocate⟩
  | retain n ho => simpa using b.retain n ho
  | giveUp o => simpa using b.giveUp hab

theorem moves (b : w.Books hand issued) (h : Moves w hand made launched w' hand')
    (hab : w'.isAborted = false) : w'.Books hand' (issued ++ made.map Registration.entry) := by
  induction h generalizing issued with
  | nil => simpa using b
  | cons hmove hmoves ih =>
      rw [List.map_append, ← List.append_assoc]
      exact ih (b.move hmove (hmoves.before.isAborted hab)) hab

end Books

/-! ## Histories -/

/-- The entries that a history makes, in the order in which it makes them. -/
def registrations (w : World) : List Command → List Registration
  | [] => []
  | c :: rest => (w.registration? c).toList ++ (w.step c).2.registrations rest

/-- Every history keeps the books, unless the program is aborted. -/
theorem Books.steps (b : w.Books [] issued) (history : List Command)
    (hab : (w.steps history).isAborted = false) :
    (w.steps history).Books [] (issued ++ (w.registrations history).map Registration.entry) := by
  induction history generalizing w issued with
  | nil => simpa [World.steps, registrations] using b
  | cons c rest ih =>
      rw [registrations, List.map_append, ← List.append_assoc]
      exact ih (b.moves (w.moves_step c) ((before_steps _ rest).isAborted hab)) hab

/-- The books are right after every history that does not abort the program. -/
theorem books_steps (history : List Command) (hab : (steps {} history).isAborted = false) :
    (steps {} history).Books [] ((registrations {} history).map Registration.entry) := by
  simpa using books_empty.steps history hab

end Lifespan.Cleanup.World
