import Lifespan.Proofs.Cleanup.Conservation
import Lifespan.Proofs.Cleanup.Cycles
import Lifespan.Proofs.Cleanup.Unwinding

/-!
# Commands in the course of which no action fails

As long as no action fails, whatever is given up is carried out as a whole: the entries of a chain
from the first to the last, and a chain that one of them takes out of the heap before the next one.
What is carried out in which order is settled by the chain and the heap, and a chain that is carried
out does not touch a shared chain to which nothing refers.
-/
namespace Lifespan.Cleanup

namespace Cascade

variable {m : Cascade} {h h' h₁ h₂ : Heap} {fate : Fate} {es es' : Chain} {log log' : Log}
  {c : CellId} {s : Shared}

namespace Ends

/-- If entries can end in a way, a cascade in which they are due first goes on like that. -/
theorem settle (hends : Ends fate h es log h') {due : List (Fate × Entry)} (hheap : m.heap = h)
    (hdue : m.due = es.map (fate, ·) ++ due) :
    m.settle = (m.after h' due log m.failure).settle := by
  induction hends generalizing m due with
  | nil =>
      rw [List.map_nil, List.nil_append] at hdue
      rw [after, List.append_nil, ← hheap, ← hdue]
  | @perform fate h h' e es a log hduty hfails _ ih =>
      have hstep : m.step = m.after h (es.map (fate, ·) ++ due) [⟨e, fate⟩] m.failure := by
        cases fate <;> simp [step, hdue, hduty, hfails, after, hheap]
      rw [← m.settle_step, hstep, ih rfl rfl, after_after]
      rfl
  | @giveUp fate h h₁ h₂ e es r inner log hduty _ _ ihInner ih =>
      have hstep : m.step = m.after (h.release r).2
          ((h.release r).1.map (.ran, ·) ++ (es.map (fate, ·) ++ due)) [⟨e, fate⟩] m.failure := by
        cases fate <;> simp [step, hdue, hduty, after, hheap]
      rw [← m.settle_step, hstep, ihInner rfl rfl, ih rfl rfl, after_after, after_after]
      rfl

/-- A cascade that begins with a chain, if its entries can be carried out. -/
theorem settle_start (hends : Ends .ran h es log h') :
    (start h es).settle = (start h es).after h' [] log none := by
  have hdue : (start h es).due = es.map (.ran, ·) ++ [] := (List.append_nil _).symm
  rw [hends.settle rfl hdue]
  exact settle_of_idle rfl

/-- The chain and the heap settle in which order entries end, and what is left. -/
theorem unique (hends : Ends fate h es log h₁) (hends' : Ends fate h es log' h₂) :
    log = log' ∧ h₁ = h₂ := by
  let m : Cascade := { heap := h, due := es.map (fate, ·) }
  have hdue : m.due = es.map (fate, ·) ++ [] := (List.append_nil _).symm
  have hsettle := (hends.settle (m := m) rfl hdue).symm.trans (hends'.settle rfl hdue)
  rw [settle_of_idle rfl, settle_of_idle rfl] at hsettle
  exact ⟨List.append_cancel_left (congrArg Cascade.events hsettle), congrArg Cascade.heap hsettle⟩

/-- Two chains, one after the other. -/
theorem split (hends : Ends fate h (es ++ es') log h') :
    ∃ log₁ log₂ h₁, log = log₁ ++ log₂ ∧ Ends fate h es log₁ h₁ ∧ Ends fate h₁ es' log₂ h' := by
  induction es generalizing h log with
  | nil => exact ⟨[], log, h, rfl, .nil, hends⟩
  | cons e es ih =>
      rw [List.cons_append] at hends
      cases hends with
      | perform hduty hfails hrest =>
          obtain ⟨log₁, log₂, h₁, rfl, hfirst, hlast⟩ := ih hrest
          exact ⟨_, log₂, h₁, rfl, .perform hduty hfails hfirst, hlast⟩
      | giveUp hduty hinner hrest =>
          obtain ⟨log₁, log₂, h₁, rfl, hfirst, hlast⟩ := ih hrest
          refine ⟨_, log₂, h₁, ?_, .giveUp hduty hinner hfirst, hlast⟩
          rw [List.cons_append, List.append_assoc]

/-- Ends of entries give up references one after another. -/
theorem releases (hends : Ends fate h es log h') : h.Releases h' := by
  induction hends with
  | nil => exact .refl
  | perform _ _ _ ih => exact ih
  | @giveUp _ h _ _ _ _ r _ _ _ _ _ ihInner ih =>
      exact ((Heap.Releases.single h r).trans ihInner).trans ih

theorem mem_log (hends : Ends fate h es log h') {e : Entry} (he : e ∈ es) :
    e ∈ log.map Event.entry :=
  List.mem_map.mpr ⟨⟨e, fate⟩, hends.sublist.subset (List.mem_map_of_mem he), rfl⟩

/-- A shared chain that is taken out of the heap is carried out as a whole, without a break. -/
theorem exists_block (hends : Ends fate h es log h') (hs : h.get? c = some s)
    (hgone : h'.get? c = none) :
    ∃ inner h₁ h₂, inner <:+: log ∧ Ends .ran h₁ s.chain inner h₂ := by
  induction hends generalizing s with
  | nil => simp [hs] at hgone
  | perform _ _ _ ih =>
      obtain ⟨inner, h₁, h₂, hpart, hinner⟩ := ih hs hgone
      exact ⟨inner, h₁, h₂, hpart.trans (List.infix_cons (List.infix_refl _)), hinner⟩
  | @giveUp fate h h₁ h₂ e es r inner log _ hinner hrest ihInner ih =>
      by_cases hfree : (h.release r).2.get? c = none
      · -- This entry has given up the last reference.
        obtain ⟨rfl, hlast⟩ := (Heap.get?_release_eq_none_iff hs r).mp hfree
        rw [Heap.release_last hs hlast] at hinner
        exact ⟨inner, _, h₁, ⟨[⟨e, fate⟩], log, by simp⟩, hinner⟩
      · obtain ⟨t, ht⟩ := Option.ne_none_iff_exists'.mp hfree
        obtain ⟨s', hs', hchain⟩ := Heap.chain_of_release ht
        obtain rfl := Option.some.inj (hs.symm.trans hs')
        rw [hchain]
        cases hkept : h₁.get? c with
        | none =>
            obtain ⟨inner', h₁', h₂', ⟨l, l', rfl⟩, hinner'⟩ := ihInner ht hkept
            exact ⟨inner', h₁', h₂', ⟨⟨e, fate⟩ :: l, l' ++ log, by simp⟩, hinner'⟩
        | some u =>
            obtain ⟨t', ht', hchain'⟩ := hinner.releases.chain hkept
            obtain rfl := Option.some.inj (ht.symm.trans ht')
            obtain ⟨inner', h₁', h₂', ⟨l, l', rfl⟩, hinner'⟩ := ih hkept hgone
            rw [hchain']
            exact ⟨inner', h₁', h₂', ⟨⟨e, fate⟩ :: (inner ++ l), l', by simp⟩, hinner'⟩

/-- A shared chain to which no entry refers plays no part: it stays, and anything could stand in its
place. -/
theorem frame (hends : Ends fate h es log h') (hes : ∀ e ∈ es, ¬ e.owns c)
    (hh : ∀ x, ¬ h.Refers x c) :
    h'.get? c = h.get? c ∧ ∀ t, Ends fate (h.set c t) es log (h'.set c t) := by
  induction hends with
  | nil => exact ⟨rfl, fun _ => .nil⟩
  | perform hduty hfails _ ih =>
      obtain ⟨hkept, hframe⟩ := ih (fun e he => hes e (List.mem_cons_of_mem _ he)) hh
      exact ⟨hkept, fun t => .perform hduty hfails (hframe t)⟩
  | @giveUp fate h h₁ h₂ e es r inner log hduty hinner _ ihInner ih =>
      have hne : r ≠ some c := by
        rintro rfl
        exact hes e List.mem_cons_self (by simp [Entry.owns, hduty])
      have hfreed : ∀ e ∈ (h.release r).1, ¬ e.owns c := by
        intro e he hc
        obtain ⟨x, s, hs, he⟩ := Heap.exists_of_mem_release he
        exact hh x ⟨s, hs, e, he, hc⟩
      have hh' : ∀ x, ¬ (h.release r).2.Refers x c := fun x hx => hh x (h.loses_release r x c hx)
      obtain ⟨hkept, hframe⟩ := ihInner hfreed hh'
      obtain ⟨hkept', hframe'⟩ := ih (fun e he => hes e (List.mem_cons_of_mem _ he))
        fun x hx => hh' x (hinner.releases.loses x c hx)
      refine ⟨hkept'.trans (hkept.trans (h.get?_release_of_ne hne)), fun t => ?_⟩
      refine .giveUp hduty ?_ (hframe' t)
      rw [h.release_set hne]
      exact hframe t

end Ends

/-- If no action fails in the course of a cascade, all entries of its chain are carried out. -/
theorem ends_of_failures (hnone : (start h es).settle.events.failures = 0) :
    (start h es).settle.failure = none ∧ (start h es).settle.isAborted = false ∧
      Ends .ran h es (start h es).settle.events (start h es).settle.heap := by
  have tally := (tally_start h es).settle
  have houtcome : (start h es).Outcome .ran es [] :=
    outcome (List.append_nil _).symm fun _ => rfl
  cases houtcome with
  | ended hends _ =>
      replace hends : Ends .ran h es _ _ := hends
      rw [hends.settle_start]
      exact ⟨rfl, rfl, hends⟩
  | failed _ _ hsettle =>
      replace hsettle := hsettle.trans (settle_of_idle rfl)
      rw [hsettle] at hnone tally
      rw [tally.running rfl] at hnone
      contradiction
  | aborted hab =>
      rw [(tally.aborted hab).1] at hnone
      contradiction

end Cascade

/-! ## Histories without failures -/

theorem Log.failures_mono {l l' : Log} (h : l <+: l') : l.failures ≤ l'.failures :=
  h.sublist.countP_le

/-- What is given up at a moment is carried out as a whole. -/
def Moment.Runs (m : Moment) (log : Log) : Prop :=
  ∃ o, m.hand = some o ∧
    Cascade.Ends .ran (o.freed m.cascade.heap).2 (o.freed m.cascade.heap).1 log m.finish.heap

theorem Moment.Runs.unique {m : Moment} {log log' : Log} (h : m.Runs log) (h' : m.Runs log') :
    log = log' := by
  obtain ⟨o, ho, hends⟩ := h
  obtain ⟨o', ho', hends'⟩ := h'
  obtain rfl := Option.some.inj (ho.symm.trans ho')
  exact (hends.unique hends').1

namespace World

variable {w w' : World} {o : Object} {id : String} {hand hand' : List Object}
  {made : List Registration} {launched : List Moment}

/-- The ends of entries that no chain has taken. -/
def refusals (made : List Registration) : Log :=
  (made.filter fun r => !r.isAccepted).map fun r => ⟨r.entry, .dropped⟩

/-- If no action fails when an object is given up, all that it holds is carried out. -/
theorem ends_of_giveUp (hcalm : (w.giveUp o).2.log.failures = 0) :
    ∃ events, w.giveUp o = (.ok .done, { w with
        heap := (w.giveUp o).2.heap
        log := w.log ++ events }) ∧
      Cascade.Ends .ran (o.freed w.heap).2 (o.freed w.heap).1 events (w.giveUp o).2.heap := by
  rw [giveUp_eq_settle] at hcalm ⊢
  dsimp only at hcalm ⊢
  rw [Log.failures_append] at hcalm
  obtain ⟨hfailure, hab, hends⟩ := Cascade.ends_of_failures (Nat.eq_zero_of_add_eq_zero hcalm).2
  refine ⟨_, ?_, hends⟩
  rw [hfailure, hab, Bool.or_false]

/-- What a move adds to the log if no action fails: what is in hand is carried out, and an entry
that no chain takes is dropped. -/
theorem runs_move (h : Move w hand made launched w' hand') (hcalm : w'.log.failures = 0) :
    w'.isAborted = w.isAborted ∧ ∃ traces, List.Forall₂ Moment.Runs launched traces ∧
      w'.log = w.log ++ refusals made ++ traces.flatten := by
  have hquiet {log : Log} (hlog : log = w.log) : log = w.log ++ [] ++ [].flatten := by
    rw [hlog, List.flatten_nil, List.append_nil, List.append_nil]
  cases h with
  | regroup | insert | take | exchange | adjust | pin | allocate | retain =>
      exact ⟨rfl, [], .nil, hquiet rfl⟩
  | refuse a => exact ⟨rfl, [], .nil, (List.append_nil _).symm⟩
  | enter duty => exact ⟨isAborted_setTarget _ _ _, [], .nil, hquiet (log_setTarget _ _ _)⟩
  | delegate =>
      exact ⟨by rw [isAborted_setTarget, isAborted_setTarget], [], .nil,
        hquiet (by rw [log_setTarget, log_setTarget])⟩
  | vacate | pinFrom =>
      exact ⟨isAborted_setTarget _ _ _, [], .nil, hquiet (log_setTarget _ _ _)⟩
  | giveUp o =>
      obtain ⟨events, hgiveUp, hends⟩ := ends_of_giveUp hcalm
      have hruns : (w.launch hand' o).Runs events := by
        rw [w.giveUp_eq hand' o] at hends
        exact ⟨o, rfl, hends⟩
      refine ⟨congrArg (·.2.isAborted) hgiveUp, [events], .cons hruns .nil, ?_⟩
      rw [congrArg (·.2.log) hgiveUp]
      simp [refusals]

/-- What moves add to the log, if they do not both make entries and give up objects. -/
theorem runs_moves (h : Moves w hand made launched w' hand') (hcalm : w'.log.failures = 0)
    (hone : made = [] ∨ launched = []) :
    w'.isAborted = w.isAborted ∧ ∃ traces, List.Forall₂ Moment.Runs launched traces ∧
      w'.log = w.log ++ refusals made ++ traces.flatten := by
  induction h with
  | nil => exact ⟨rfl, [], .nil, by simp [refusals]⟩
  | @cons _ _ _ _ _ _ made made' launched launched' hmove hmoves ih =>
      have hone' : made' = [] ∨ launched' = [] :=
        hone.imp (fun h => (List.append_eq_nil_iff.mp h).2) fun h => (List.append_eq_nil_iff.mp h).2
      have hcalm' := Log.failures_mono hmoves.before.log
      obtain ⟨hab, traces, hruns, hlog⟩ := runs_move hmove (by omega)
      obtain ⟨hab', traces', hruns', hlog'⟩ := ih hcalm hone'
      refine ⟨hab'.trans hab, traces ++ traces', List.rel_append hruns hruns', ?_⟩
      rcases hone with hone | hone
      · obtain ⟨rfl, rfl⟩ := List.append_eq_nil_iff.mp hone
        simp [hlog', hlog, refusals]
      · obtain ⟨rfl, rfl⟩ := List.append_eq_nil_iff.mp hone
        cases hruns
        cases hruns'
        simp [hlog', hlog, refusals]

/-- No command both makes an entry and gives up an object. -/
theorem registration?_or_launches (w : World) (c : Command) :
    (w.registration? c).toList = [] ∨ w.launches c = [] := by
  cases c with
  | reset | flush | drop | allocate | releaseOnPool => exact Or.inl rfl
  | _ => exact Or.inr rfl

/-- What a command adds to the log if no action fails: what it gives up is carried out, and an entry
that no chain takes is dropped. -/
theorem runs_step (w : World) (c : Command) (hcalm : (w.step c).2.log.failures = 0) :
    (w.step c).2.isAborted = w.isAborted ∧
      ∃ traces, List.Forall₂ Moment.Runs (w.launches c) traces ∧
        (w.step c).2.log = w.log ++ refusals (w.registration? c).toList ++ traces.flatten :=
  runs_moves (w.moves_step c) hcalm (w.registration?_or_launches c)

/-- As long as no action fails, the program is not aborted. -/
theorem isAborted_of_failures (history : List Command)
    (hcalm : (w.steps history).log.failures = 0) : (w.steps history).isAborted = w.isAborted := by
  induction history generalizing w with
  | nil => rfl
  | cons c rest ih =>
      have hle := Log.failures_mono ((w.step c).2.before_steps rest).log
      exact (ih hcalm).trans (w.runs_step c (Nat.eq_zero_of_le_zero (hcalm ▸ hle))).1

end World

end Lifespan.Cleanup
