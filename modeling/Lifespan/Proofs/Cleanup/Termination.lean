import Lifespan.Proofs.Cleanup.Conservation
import Lifespan.Proofs.Cleanup.Order
import Mathlib.Data.List.Perm.Subperm
import Mathlib.Logic.Function.Iterate

/-!
# Cascades come to an end

Which chain is carried out next depends on the counts of references, so a chain may be of any length
and come from anywhere in the heap. What is certain is that a chain leaves the heap before its
entries are carried out. So the entries that are due and those in the heap get fewer, taken
together, with each one that ends, whatever refers to what. This bounds the steps of a cascade, and
it is also the measure by which chains that call each other can be defined by recursion.
-/

namespace Lifespan.Cleanup

namespace Cascade

variable {m : Cascade} {n k : Nat} {fate : Fate} {e : Entry} {rest due : List (Fate × Entry)}

/-! ## Steps that end entries -/

/-- The entry whose turn it is ends. -/
theorem events_step (hdue : m.due = (fate, e) :: rest) :
    m.step.events = m.events ++ [⟨e, fate⟩] := by
  have hending := m.step_ending
  generalize m.step = m' at hending
  cases hending with
  | idle hidle => exact absurd (hdue.symm.trans hidle) (List.cons_ne_nil _ _)
  | performed hdue' | failed hdue' | aborted hdue' | gaveUp hdue' =>
      obtain ⟨⟨rfl, rfl⟩, rfl⟩ : (_ ∧ _) ∧ _ := by simpa using hdue.symm.trans hdue'
      rfl

/-- A cascade has come to its end after `n` steps. -/
structure EndsAfter (m : Cascade) (n : Nat) : Prop where
  idle : (step^[n] m).due = []
  /-- Each step has ended one entry, the one whose turn it was, and then fewer were left: of those
  that are due and of those in the heap, taken together. -/
  step : ∀ k < n, ∃ fate e rest, (step^[k] m).due = (fate, e) :: rest ∧
    (step^[k + 1] m).events = (step^[k] m).events ++ [⟨e, fate⟩] ∧
    (step^[k + 1] m).weight < (step^[k] m).weight

namespace EndsAfter

theorem of_idle (hdue : m.due = []) : m.EndsAfter 0 :=
  ⟨hdue, fun _ hk => absurd hk (Nat.not_lt_zero _)⟩

/-- One more step before the others. -/
theorem succ (hdue : m.due ≠ []) (h : m.step.EndsAfter n) : m.EndsAfter (n + 1) where
  idle := h.idle
  step k hk := by
    cases k with
    | zero =>
        obtain ⟨⟨fate, e⟩, rest, hcons⟩ := List.exists_cons_of_ne_nil hdue
        exact ⟨fate, e, rest, hcons, events_step hcons, m.weight_step_lt hdue⟩
    | succ k => exact h.step k (Nat.lt_of_succ_lt_succ hk)

/-- At any time no more steps are left than entries. -/
theorem le_weight (h : m.EndsAfter n) (k : Nat) : n ≤ k + (Cascade.step^[k] m).weight := by
  induction hj : n - k generalizing k with
  | zero => omega
  | succ j ih =>
      obtain ⟨_, _, _, -, -, hlt⟩ := h.step k (by omega)
      have := ih (k + 1) (by omega)
      omega

/-- As many entries have ended as steps have been made. -/
theorem length_events (h : m.EndsAfter n) :
    (Cascade.step^[n] m).events.length = m.events.length + n := by
  suffices hall : ∀ k ≤ n, (Cascade.step^[k] m).events.length = m.events.length + k from
    hall n (Nat.le_refl n)
  intro k hk
  induction k with
  | zero => rfl
  | succ k ih =>
      obtain ⟨_, _, _, -, hevents, -⟩ := h.step k hk
      rw [hevents, List.length_append, ih (Nat.le_of_lt hk), List.length_singleton, Nat.add_assoc]

end EndsAfter

/-- Every cascade comes to its end, whatever its heap is like. -/
theorem exists_endsAfter (m : Cascade) : ∃ n, m.EndsAfter n ∧ step^[n] m = m.settle := by
  induction m using settle.induct with
  | case1 m hdue => exact ⟨0, .of_idle hdue, (settle_of_idle hdue).symm⟩
  | case2 m hdue ih =>
      obtain ⟨n, hends, hsettle⟩ := ih
      exact ⟨n + 1, hends.succ hdue, hsettle.trans m.settle_step⟩

end Cascade

/-! ## Chains that call each other -/

/-- How far the carrying out of chains has got. -/
structure Progress where
  heap : Heap
  events : Log := []
  failure : Option String := none
  isAborted : Bool := false
deriving DecidableEq, Repr

namespace Progress

variable {s s' s'' : Progress} {fate : Fate} {e : Entry} {es : Chain} {n k : Nat}
  {due : List (Fate × Entry)}

/-- An entry ends. -/
def note (s : Progress) (fate : Fate) (e : Entry) : Progress :=
  { s with events := s.events ++ [⟨e, fate⟩] }

@[simp] theorem heap_note (s : Progress) (fate : Fate) (e : Entry) :
    (s.note fate e).heap = s.heap := rfl

/-- An action is performed. -/
def perform (s : Progress) (a : Action) : Progress :=
  if a.fails then
    match s.failure with
    | some _ => { s with isAborted := true }
    | none => { s with failure := some a.label }
  else s

/-- A reference is given up. -/
def giveUp (s : Progress) (h : Handle) : Progress := { s with heap := (s.heap.release h).2 }

/-- Entries are carried out of which `n` are not in the heap. -/
structure Onward (s : Progress) (n : Nat) (s' : Progress) : Prop where
  weight_le : s'.heap.weight ≤ n + s.heap.weight
  failure : s.failure ≠ none → s'.failure = s.failure

theorem Onward.trans (h : s.Onward n s') (h' : s'.Onward k s'') : s.Onward (n + k) s'' where
  weight_le := by
    have := h.weight_le
    have := h'.weight_le
    omega
  failure hs := (h'.failure fun hs' => hs ((h.failure hs).symm.trans hs')).trans (h.failure hs)

theorem Onward.mono (h : s.Onward n s') (hnk : n ≤ k) : s.Onward k s' :=
  ⟨Nat.le_trans h.weight_le (Nat.add_le_add_right hnk _), h.failure⟩

theorem onward_note (s : Progress) (fate : Fate) (e : Entry) : s.Onward 0 (s.note fate e) :=
  ⟨Nat.le_add_left _ _, fun _ => rfl⟩

theorem onward_perform (s : Progress) (a : Action) : s.Onward 0 (s.perform a) := by
  rw [perform]
  split
  · split
    · exact ⟨Nat.le_add_left _ _, fun _ => rfl⟩
    · next hnone => exact ⟨Nat.le_add_left _ _, fun hs => absurd hnone hs⟩
  · exact ⟨Nat.le_add_left _ _, fun _ => rfl⟩

theorem length_add_weight_giveUp (s : Progress) (h : Handle) :
    (s.heap.release h).1.length + (s.giveUp h).heap.weight = s.heap.weight :=
  s.heap.length_release_add_weight h

/-- Entries leave the heap before they are carried out. -/
theorem Onward.of_giveUp {h : Handle} (hs : (s.giveUp h).Onward (s.heap.release h).1.length s') :
    s.Onward 0 s' where
  weight_le := by
    have hle := hs.weight_le
    rw [length_add_weight_giveUp] at hle
    exact Nat.le_trans hle (Nat.le_add_left _ _)
  failure := hs.failure

/-- How the next entry of a chain ends: like the one before it, unless that one has led to a
failure. -/
def nextFate (s s' : Progress) (fate : Fate) : Fate :=
  if s'.failure = s.failure then fate else .dropped

/-- Carries out a chain, one entry after another. A chain that an entry takes out of the heap is
carried out by a call within the turn of that entry, and the call does not return if the program is
aborted. What a call is given has left the heap, so the chain and the heap together get smaller. -/
def carryOut (s : Progress) (fate : Fate) (es : Chain) :
    { s' : Progress // s.Onward es.length s' } :=
  match es with
  | [] => ⟨s, Nat.le_add_left _ _, fun _ => rfl⟩
  | e :: es =>
    let s₁ := s.note fate e
    let s₂ : { s₂ : Progress // s₁.Onward 0 s₂ } :=
      match e.duty, fate with
      | .perform a, .ran => ⟨s₁.perform a, s₁.onward_perform a⟩
      | .perform _, .dropped => ⟨s₁, Nat.le_add_left _ _, fun _ => rfl⟩
      | .giveUp h, _ =>
        let s₂ := (s₁.giveUp h).carryOut .ran (s₁.heap.release h).1
        ⟨s₂.1, .of_giveUp s₂.2⟩
    have honward := (s.onward_note fate e).trans s₂.2
    if s₂.1.isAborted then ⟨s₂.1, honward.mono (Nat.zero_le _)⟩
    else
      let s₃ := s₂.1.carryOut (s.nextFate s₂.1 fate) es
      ⟨s₃.1, (honward.trans s₃.2).mono (by simp)⟩
termination_by es.length + s.heap.weight
decreasing_by
  · have hlt (r : Handle) : (s₁.heap.release r).1.length + (s₁.giveUp r).heap.weight <
        (e :: es).length + s.heap.weight := by
      rw [length_add_weight_giveUp, heap_note, List.length_cons]
      omega
    exact hlt _
  · have hlt : es.length + s₂.1.heap.weight < (e :: es).length + s.heap.weight := by
      have := honward.weight_le
      rw [List.length_cons]
      omega
    exact hlt

/-- The turn of one entry. -/
def turn (s : Progress) (fate : Fate) (e : Entry) : Progress :=
  match e.duty, fate with
  | .perform a, .ran => (s.note fate e).perform a
  | .perform _, .dropped => s.note fate e
  | .giveUp h, _ => ((s.note fate e).giveUp h).carryOut .ran (s.heap.release h).1

theorem onward_turn (s : Progress) (fate : Fate) (e : Entry) : s.Onward 0 (s.turn fate e) := by
  have hnote := s.onward_note fate e
  unfold turn
  split
  · exact hnote.trans (onward_perform _ _)
  · exact hnote
  · exact hnote.trans (.of_giveUp (Subtype.property _))

theorem carryOut_nil (s : Progress) (fate : Fate) : (s.carryOut fate []).1 = s := by
  rw [carryOut]

theorem carryOut_cons (s : Progress) (fate : Fate) (e : Entry) (es : Chain) :
    (s.carryOut fate (e :: es)).1 =
      if (s.turn fate e).isAborted then s.turn fate e
      else (s.turn fate e).carryOut (s.nextFate (s.turn fate e) fate) es := by
  rw [carryOut]
  obtain ⟨ticket, duty⟩ := e
  cases duty with
  | perform a => cases fate <;> exact apply_ite Subtype.val _ _ _
  | giveUp h => exact apply_ite Subtype.val _ _ _

/-! ## One list of due entries instead of calls -/

/-- The cascade in which some entries are due. -/
def cascade (s : Progress) (due : List (Fate × Entry)) : Cascade :=
  { heap := s.heap, due, events := s.events, failure := s.failure, isAborted := s.isAborted }

/-- What a cascade comes to that has got from one state to another and has some entries yet to end:
unless the program is aborted they end, and after a failure they are dropped. -/
def goOn (s s' : Progress) (due : List (Fate × Entry)) : Cascade :=
  if s'.isAborted then s'.cascade []
  else (s'.cascade (if s'.failure = s.failure then due else Cascade.spoil due)).settle

theorem goOn_of_aborted (hab : s'.isAborted = true) : s.goOn s' due = s'.cascade [] := if_pos hab

theorem goOn_of_not_aborted (hab : s'.isAborted = false) : s.goOn s' due =
    (s'.cascade (if s'.failure = s.failure then due else Cascade.spoil due)).settle :=
  if_neg (by simp [hab])

theorem goOn_of_same (hab : s'.isAborted = false) (hfailure : s'.failure = s.failure) :
    s.goOn s' due = (s'.cascade due).settle := by
  rw [goOn_of_not_aborted hab, if_pos hfailure]

/-- An entry that is to be dropped stays so. -/
theorem goOn_trans (hs : s.Onward n s') (hs' : s'.Onward k s'') :
    s'.goOn s'' (if s'.failure = s.failure then due else Cascade.spoil due) = s.goOn s'' due := by
  cases hab : s''.isAborted with
  | true => rw [goOn_of_aborted hab, goOn_of_aborted hab]
  | false =>
      rw [goOn_of_not_aborted hab, goOn_of_not_aborted hab]
      by_cases hsame : s'.failure = s.failure
      · rw [if_pos hsame, hsame]
      · have hfailed : s'.failure ≠ none := fun hnone =>
          hsame (hs.failure fun h => hsame (hnone.trans h.symm))
        rw [if_neg hsame, hs'.failure hfailed, if_pos rfl, if_neg hsame]

/-- The turn of one entry, if calls do what a cascade does. -/
theorem settle_turn (hab : s.isAborted = false)
    (hcall : ∀ h due,
      (((s.note fate e).giveUp h).cascade ((s.heap.release h).1.map (.ran, ·) ++ due)).settle =
        ((s.note fate e).giveUp h).goOn
          (((s.note fate e).giveUp h).carryOut .ran (s.heap.release h).1) due) :
    (s.cascade ((fate, e) :: due)).settle = s.goOn (s.turn fate e) due := by
  rw [← Cascade.settle_step]
  obtain ⟨ticket, duty⟩ := e
  cases duty with
  | giveUp h => exact hcall h due
  | perform a =>
      cases fate with
      | dropped => exact (@goOn_of_same s (s.note .dropped _) due hab rfl).symm
      | ran =>
          by_cases hfails : a.fails = true
          · cases hfailure : s.failure with
            | some label =>
                simp [Cascade.step, Cascade.fail, cascade, turn, perform, note, hfails, hfailure,
                  goOn, Cascade.settle_of_idle]
            | none =>
                simp [Cascade.step, Cascade.fail, cascade, turn, perform, note, hfails, hfailure,
                  goOn, hab, Cascade.spoil]
          · simp [Cascade.step, cascade, turn, perform, note, hfails, goOn, hab]

/-- Chains that call each other do what a cascade does that keeps all entries that are due in one
list. -/
theorem settle_cascade (hab : s.isAborted = false) (fate : Fate) (es : Chain)
    (due : List (Fate × Entry)) :
    (s.cascade (es.map (fate, ·) ++ due)).settle = s.goOn (s.carryOut fate es) due := by
  -- The measure is the one by which calls are defined.
  induction hn : es.length + s.heap.weight using Nat.strongRecOn
    generalizing s fate es due with
  | ind n ih =>
    subst hn
    cases es with
    | nil => rw [carryOut_nil, goOn_of_same hab rfl, List.map_nil, List.nil_append]
    | cons e es =>
        have hcall (h : Handle) (due : List (Fate × Entry)) :
            (((s.note fate e).giveUp h).cascade
                ((s.heap.release h).1.map (.ran, ·) ++ due)).settle =
              ((s.note fate e).giveUp h).goOn
                (((s.note fate e).giveUp h).carryOut .ran (s.heap.release h).1) due := by
          have hab : ((s.note fate e).giveUp h).isAborted = false := hab
          refine ih s.heap.weight ?_ hab .ran _ due ((s.note fate e).length_add_weight_giveUp h)
          rw [List.length_cons]
          omega
        rw [List.map_cons, List.cons_append, carryOut_cons, settle_turn hab hcall]
        have honward := s.onward_turn fate e
        generalize s.turn fate e = s' at honward
        cases hab' : s'.isAborted with
        | true => rw [goOn_of_aborted hab', if_pos rfl, goOn_of_aborted hab']
        | false =>
            have hdue : (if s'.failure = s.failure then es.map (fate, ·) ++ due
                else Cascade.spoil (es.map (fate, ·) ++ due)) =
              es.map (s.nextFate s' fate, ·) ++
                if s'.failure = s.failure then due else Cascade.spoil due := by
              rw [nextFate]
              split
              · rfl
              · exact Cascade.spoil_append due fate es
            have hrest := honward.weight_le
            rw [if_neg Bool.false_ne_true, goOn_of_not_aborted hab', hdue,
              ih (es.length + s'.heap.weight) (by rw [List.length_cons]; omega) hab' _ es _ rfl,
              goOn_trans honward (s'.carryOut _ es).2]

/-- A cascade that begins with a chain does what a call does. -/
theorem settle_start (heap : Heap) (es : Chain) :
    (Cascade.start heap es).settle = (carryOut { heap } .ran es).1.cascade [] := by
  have hstart : Cascade.start heap es = cascade { heap } (es.map (.ran, ·) ++ []) := by
    rw [List.append_nil]
    rfl
  rw [hstart, settle_cascade rfl]
  cases hab : (carryOut { heap } .ran es).1.isAborted with
  | true => rw [goOn_of_aborted hab]
  | false =>
      rw [goOn_of_not_aborted hab]
      split <;> exact Cascade.settle_of_idle rfl

end Progress

/-! ## No entry ends twice -/

namespace Heap

variable {h : Heap}

theorem length_entries (h : Heap) : h.entries.length = h.weight := by
  simp only [entries, weight]
  induction h.cells with
  | nil => rfl
  | cons x rest ih =>
      rw [List.flatMap_cons, List.length_append, ih, List.map_cons, sum_cons]
      cases x <;> rfl

/-- The entries that leave the heap and those that stay. -/
theorem perm_release (h : Heap) (handle : Handle) :
    ((h.release handle).1 ++ (h.release handle).2.entries).Perm h.entries := by
  rw [List.perm_iff_count]
  intro e
  cases handle with
  | none => rfl
  | some c =>
      cases hs : h.get? c with
      | none => simp only [release, hs, List.nil_append]
      | some s =>
          by_cases hlast : s.refs ≤ 1
          · have hset := countP_entries_set hs none (· == e)
            simp only [cellChain, List.countP_nil] at hset
            rw [release_last hs hlast, List.count_append]
            simp only [List.count_eq_countP]
            omega
          · have hset := countP_entries_set hs (some { s with refs := s.refs - 1 }) (· == e)
            simp only [cellChain] at hset
            rw [release_more hs hlast, List.nil_append]
            simp only [List.count_eq_countP]
            omega

end Heap

namespace Cascade

variable {m : Cascade} {n : Nat}

/-- The entries that have ended, those that are due, and those in the heap. -/
def remains (m : Cascade) : Chain := m.events.map Event.entry ++ m.dueEntries ++ m.heap.entries

theorem remains_of_cons {fate : Fate} {e : Entry} {rest : List (Fate × Entry)}
    (hdue : m.due = (fate, e) :: rest) : m.remains =
      (m.events.map Event.entry ++ [e]) ++ (rest.map Prod.snd ++ m.heap.entries) := by
  rw [remains, dueEntries_cons hdue, List.append_cons]
  simp only [List.append_assoc]

/-- No step makes an entry, or lets one end again. -/
theorem subperm_remains_step (m : Cascade) : m.step.remains.Subperm m.remains := by
  have hending := m.step_ending
  generalize m.step = m' at hending
  cases hending with
  | idle => exact .refl _
  | performed hdue =>
      rw [remains_of_cons hdue]
      exact (List.Perm.of_eq (by simp [remains, dueEntries])).subperm
  | failed hdue =>
      rw [remains_of_cons hdue]
      exact (List.Perm.of_eq (by simp [remains, dueEntries, Function.comp_def])).subperm
  | aborted hdue =>
      rw [remains_of_cons hdue]
      refine List.Sublist.subperm ?_
      simp [remains, dueEntries]
  | @gaveUp fate e rest h hdue =>
      have hrelease := (m.heap.perm_release h).append_left (rest.map Prod.snd)
      have hfreed := (List.perm_append_comm_assoc (m.heap.release h).1 (rest.map Prod.snd)
        (m.heap.release h).2.entries).trans hrelease
      rw [remains_of_cons hdue]
      refine (List.Perm.trans (.of_eq ?_) (hfreed.append_left _)).subperm
      simp [remains, dueEntries, Function.comp_def]

theorem subperm_remains_iterate (m : Cascade) (k : Nat) :
    (step^[k] m).remains.Subperm m.remains := by
  induction k generalizing m with
  | zero => exact .refl _
  | succ k ih => exact (ih m.step).trans m.subperm_remains_step

/-- What an object holds is due first, or it leaves the heap then. -/
theorem perm_remains_begin (heap : Heap) (o : Object) :
    (begin heap o).remains.Perm (o.own ++ heap.entries) := by
  have hstart (heap : Heap) (es : Chain) : (start heap es).remains = es ++ heap.entries := by
    rw [remains, dueEntries_start]
    rfl
  cases o with
  | chain entries => exact .of_eq (hstart heap entries)
  | pinnable p => exact .of_eq (hstart heap p.cleanups)
  | handle h => exact (List.Perm.of_eq (hstart _ _)).trans (heap.perm_release h)

theorem length_remains (m : Cascade) : m.remains.length = m.events.length + m.weight := by
  simp only [remains, weight, dueEntries, List.length_append, List.length_map, Heap.length_entries]
  omega

theorem events_begin (heap : Heap) (o : Object) : (begin heap o).events = [] := by
  cases o <;> rfl

theorem begin_eq (heap : Heap) (o : Object) :
    begin heap o = start (o.freed heap).2 (o.freed heap).1 := by
  cases o <;> rfl

end Cascade

/-! ## Commands -/

namespace World

variable {w : World} {id : String} {o : Object} {c : Command} {es : Chain} {issued : List Entry}

/-- What an object holds was pending, at the object or in the heap. -/
theorem subperm_remains_begin (ho : w.find? id = some o) :
    (Cascade.begin w.heap o).remains.Subperm w.pending := by
  have hown : o.own.Sublist (w.held.flatMap Object.own) :=
    List.sublist_flatten_of_mem (List.mem_map_of_mem (mem_held_of_find? ho))
  exact (Cascade.perm_remains_begin w.heap o).subperm.trans (hown.append_right _).subperm

/-- The entries of a target chain were pending, at the object or in the heap. -/
theorem subperm_remains_flush (hn : w.names.Nodup) (ht : w.target? id = some es) :
    (Cascade.begin (w.setTarget id []).heap (.chain es)).remains.Subperm w.pending := by
  have hswap := swapped_setTarget hn (entriesAt?_of_target? ht) []
  have hperm : (es ++ (w.setTarget id []).pending).Perm w.pending := by
    refine List.perm_iff_count.mpr fun e => ?_
    have hcount := hswap.pending (· == e)
    rw [List.countP_nil, Nat.add_zero, Nat.add_comm] at hcount
    rw [List.count_append]
    exact hcount
  have hheap : (es ++ (w.setTarget id []).heap.entries).Sublist
      (es ++ (w.setTarget id []).pending) := (List.sublist_append_right _ _).append_left es
  exact (Cascade.perm_remains_begin _ _).subperm.trans (hheap.subperm.trans hperm.subperm)

/-- A command that gives up an object or the entries of its target chain lets only pending entries
end. -/
theorem subperm_remains_outset (hn : w.names.Nodup) (ho : w.find? id = some o)
    (hc : c = .reset id ∨ c = .drop id ∨ c = .allocate id ∧ o.isHandle = true ∨
      c = .flush id ∧ (o.target? w.heap).isSome) :
    (Cascade.begin (w.outset id o c).heap (w.givenUp o c)).remains.Subperm w.pending := by
  rcases hc with rfl | rfl | ⟨rfl, -⟩ | ⟨rfl, hopen⟩
  · exact subperm_remains_begin ho
  · exact subperm_remains_begin ho
  · exact subperm_remains_begin ho
  · obtain ⟨es, hes⟩ := Option.isSome_iff_exists.mp hopen
    rw [givenUp, hes]
    exact subperm_remains_flush hn ((target?_of_find? ho).trans hes)

/-- Every entry that has been made is pending or has ended. -/
theorem Books.length_pending_add_log (b : w.Books [] issued) :
    w.pending.length + w.log.length = issued.length := by
  have h := b.ledger.entries fun _ => true
  simp only [List.countP_true, List.length_map, List.nil_append] at h
  rw [pending, List.length_append]
  exact h

theorem log_giveUp (w : World) (o : Object) :
    (w.giveUp o).2.log = w.log ++ (Cascade.begin w.heap o).settle.events := by
  rw [giveUp_eq_settle, Cascade.begin_eq]

/-- What a command adds to the log that gives up an object or the entries of its target chain. -/
theorem log_step_of_find? (ho : w.find? id = some o)
    (hc : c = .reset id ∨ c = .drop id ∨ c = .allocate id ∧ o.isHandle = true ∨
      c = .flush id ∧ (o.target? w.heap).isSome) :
    (w.step c).2.log =
      w.log ++ (Cascade.begin (w.outset id o c).heap (w.givenUp o c)).settle.events := by
  rcases hc with rfl | rfl | ⟨rfl, hhandle⟩ | ⟨rfl, hopen⟩
  · rw [Cascade.begin_eq]
    exact (log_reset ho).2
  · rw [step, drop, ho]
    exact log_giveUp (w.erase id) o
  · cases o with
    | chain entries => contradiction
    | pinnable p => contradiction
    | handle h =>
        have hlog := log_giveUp (w.put id (.handle none)) (.handle h)
        rw [step, allocate, ho]
        dsimp only [giveUp] at hlog ⊢
        -- A new chain comes into the heap if no action has failed, but no entry ends by that.
        generalize (w.put id (.handle none)).release h = reaction at hlog ⊢
        obtain ⟨reply, w'⟩ := reaction
        cases reply <;> exact hlog
  · obtain ⟨es, hes⟩ := Option.isSome_iff_exists.mp hopen
    have hlog := log_giveUp (w.setTarget id []) (.chain es)
    rw [log_setTarget] at hlog
    rw [step, flush, target?_of_find? ho, hes, givenUp, hes]
    exact hlog

/-- After every history that has not been aborted, let an object be reset or dropped, let a handle
be allocated anew, or let a target chain be carried out. What this sets going comes to its end after
a number of steps, whatever the shared chains refer to. Each step ends the entry whose turn it is,
and the entries that are due and those in the heap get fewer by it; so at any time, also while
chains are unwound after a failure, no more steps are left than entries, and in all there are no
more than were pending. The same comes of chains that call each other, defined by recursion on that
measure. The command has recorded just the entries that have ended. They have all been pending
before, none ends twice, and unless the program has been aborted, what was pending and has not ended
is pending still. -/
theorem cascades_terminate {history : List Command}
    (hab : (steps {} history).isAborted = false) (ho : (steps {} history).find? id = some o)
    (hc : c = .reset id ∨ c = .drop id ∨ c = .allocate id ∧ o.isHandle = true ∨
      c = .flush id ∧ (o.target? (steps {} history).heap).isSome) :
    let w := steps {} history
    let heap := (w.outset id o c).heap
    let given := w.givenUp o c
    let begun := Cascade.begin heap given
    let called := (Progress.carryOut { heap := (given.freed heap).2 } .ran (given.freed heap).1).1
    ∃ n, begun.EndsAfter n ∧ (∀ k, n ≤ k + (Cascade.step^[k] begun).weight) ∧
      begun.weight ≤ w.pending.length ∧ Cascade.step^[n] begun = called.cascade [] ∧
      (w.step c).2.log = w.log ++ called.events ∧ called.events.length = n ∧
      (called.events.map Event.entry).Nodup ∧
      (∀ e ∈ called.events.map Event.entry, e ∈ w.pending) ∧
      ((w.step c).2.isAborted = false → (w.step c).2.pending.length + n = w.pending.length) := by
  intro w heap given begun called
  have b : w.Books [] _ := books_steps history hab
  obtain ⟨n, hends, hsettle⟩ := begun.exists_endsAfter
  have hcalled : begun.settle = called.cascade [] := by
    rw [show begun = _ from Cascade.begin_eq heap given, Progress.settle_start]
  have hiterate := hsettle.trans hcalled
  have hlog : (w.step c).2.log = w.log ++ called.events := by
    rw [log_step_of_find? ho hc]
    exact congrArg (fun m : Cascade => w.log ++ m.events) hcalled
  have hlength : called.events.length = n := by
    have hevents := hends.length_events
    rwa [hiterate, Cascade.events_begin, List.length_nil, Nat.zero_add] at hevents
  have hbegun : begun.remains.Subperm w.pending := subperm_remains_outset b.names ho hc
  have hended : (called.events.map Event.entry).Subperm w.pending := by
    have hremains := (begun.subperm_remains_iterate n).trans hbegun
    rw [hiterate, Cascade.remains, List.append_assoc] at hremains
    exact (List.sublist_append_left _ _).subperm.trans hremains
  refine ⟨n, hends, hends.le_weight, ?_, hiterate, hlog, hlength, ?_, fun e he => hended.subset he,
    fun hab' => ?_⟩
  · have hle := hbegun.length_le
    rwa [Cascade.length_remains, Cascade.events_begin, List.length_nil, Nat.zero_add] at hle
  · obtain ⟨es, hperm, hsub⟩ := hended
    exact hperm.nodup_iff.mp (b.nodup_pending.sublist hsub)
  · have hnone : w.registration? c = none := by
      rcases hc with rfl | rfl | ⟨rfl, -⟩ | ⟨rfl, -⟩ <;> rfl
    have b' := b.moves (w.moves_step c) hab'
    rw [hnone, Option.toList_none, List.map_nil, List.append_nil] at b'
    have hbefore := b.length_pending_add_log
    have hafter := b'.length_pending_add_log
    rw [hlog, List.length_append] at hafter
    omega

/-- A chain is reset that has a chain inside it and refers to a shared one. After the failure of an
action the shared chain is carried out all the same. -/
theorem cascades_terminate_failing :
    let history : List Command := [.createHandle "h" true, .register "h" { label := "shared" },
      .createChain "n", .register "n" { label := "inner" }, .createChain "a",
      .register "a" { label := "first" }, .nest "n" "a",
      .register "a" { label := "failed", fails := true }, .moveInto "h" "a",
      .register "a" { label := "late" }]
    let w := steps {} history
    let begun := Cascade.begin w.heap (.chain (w.chainAt (.object "a")))
    w.isAborted = false ∧ w.find? "a" = some (.chain (w.chainAt (.object "a"))) ∧
      w.pending.length = 7 ∧ begun.due.length = 5 ∧ begun.EndsAfter 7 ∧
      (w.step (.reset "a")).2.log.texts = ["first", "inner", "failed", "shared", "!late"] ∧
      (w.step (.reset "a")).2.pending = [] := by
  intro history w begun
  have hab : w.isAborted = false := by
    simp only [w, history]
    decide +kernel
  have ho : w.find? "a" = some (.chain (w.chainAt (.object "a"))) := by
    simp only [w, history]
    decide +kernel
  have hpending : w.pending.length = 7 := by
    simp only [w, history]
    decide +kernel
  have hdue : begun.due.length = 5 := by
    simp only [begun, w, history]
    decide +kernel
  have htexts : (w.step (.reset "a")).2.log.texts =
      ["first", "inner", "failed", "shared", "!late"] := by
    simp only [w, history]
    decide +kernel
  have hlog : (w.step (.reset "a")).2.log.length = w.log.length + 7 := by
    simp only [w, history]
    decide +kernel
  have hab' : (w.step (.reset "a")).2.isAborted = false := by
    simp only [w, history]
    decide +kernel
  obtain ⟨n, hends, -, -, -, hevents, hlength, -, -, hleft⟩ :=
    cascades_terminate hab ho (Or.inl rfl)
  rw [hevents, List.length_append, hlength] at hlog
  obtain rfl : n = 7 := Nat.add_left_cancel hlog
  have hnone : (w.step (.reset "a")).2.pending.length + 7 = 0 + 7 := (hleft hab').trans hpending
  exact ⟨hab, ho, hpending, hdue, hends, htexts,
    List.length_eq_zero_iff.mp (Nat.add_right_cancel hnone)⟩

end World

end Lifespan.Cleanup
