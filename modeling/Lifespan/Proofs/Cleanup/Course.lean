import Lifespan.Proofs.Cleanup.Moment

/-!
# Chains as a whole

A cascade ends one entry after another and keeps all that are due in one list, whichever chains they
come from. Here the same is told chain by chain: when an entry gives up the last reference to a
shared chain, that chain is carried out as a whole before the next entry of the outer chain. If an
action fails, the chains that are being carried out at that moment lie inside each other, and what
is left of each one is dropped, from the innermost one outwards.
-/
namespace Lifespan.Cleanup

instance : DecidablePred Event.Failed := fun ev =>
  match h : ev.entry.duty with
  | .perform a =>
    decidable_of_iff (ev.fate = .ran ∧ a.fails = true) (by simp [Event.Failed, h])
  | .giveUp _ => isFalse (by simp [Event.Failed, h])

/-- The number of actions that have failed. -/
def Log.failures (l : Log) : Nat := l.countP (·.Failed)

theorem Log.failures_append (l l' : Log) : Log.failures (l ++ l') = l.failures + l'.failures :=
  List.countP_append

theorem Log.failures_concat_of_not {ev : Event} (h : ¬ ev.Failed) (l : Log) :
    Log.failures (l ++ [ev]) = l.failures := by
  simp [failures, h]

theorem Log.failures_concat {ev : Event} (h : ev.Failed) (l : Log) :
    Log.failures (l ++ [ev]) = l.failures + 1 := by
  simp [failures, h]

/-- Some events are found again among others by their entries, if these differ. -/
theorem Log.filter_of_sublist {l l' : Log} (hsub : l.Sublist l') (hn : (l'.map Event.entry).Nodup) :
    l'.filter (fun ev => decide (ev.entry ∈ l.map Event.entry)) = l := by
  induction hsub with
  | slnil => rfl
  | @cons l l' ev hsub ih =>
      rw [List.map_cons, List.nodup_cons] at hn
      have hev : ev.entry ∉ l.map Event.entry := fun hmem => hn.1 ((hsub.map _).subset hmem)
      rw [List.filter_cons_of_neg (by simpa using hev), ih hn.2]
  | @cons_cons l l' ev _ ih =>
      rw [List.map_cons, List.nodup_cons] at hn
      rw [List.filter_cons_of_pos (by simp)]
      refine congrArg (ev :: ·) (Eq.trans (List.filter_congr fun x hx => ?_) (ih hn.2))
      have hne : x.entry ≠ ev.entry := fun heq => hn.1 (heq ▸ List.mem_map_of_mem hx)
      simp [hne]

namespace Cascade

variable {m : Cascade} {h h' h₁ h₂ : Heap} {fate : Fate} {es es' : Chain} {log log' : Log}
  {label : String}

/-! ## Chains that end in one way -/

/-- All entries of a chain are carried out, or all are dropped, with no action failing. A reference
is given up either way, and the entries that this takes out of the heap are carried out before the
next entry of the chain ends. -/
inductive Ends : Fate → Heap → Chain → Log → Heap → Prop where
  | nil {fate : Fate} {h : Heap} : Ends fate h [] [] h
  | perform {fate : Fate} {h h' : Heap} {e : Entry} {es : Chain} {a : Action} {log : Log} :
    e.duty = .perform a → (fate = .ran → a.fails = false) → Ends fate h es log h' →
      Ends fate h (e :: es) (⟨e, fate⟩ :: log) h'
  | giveUp {fate : Fate} {h h₁ h₂ : Heap} {e : Entry} {es : Chain} {r : Handle} {inner log : Log} :
    e.duty = .giveUp r → Ends .ran (h.release r).2 (h.release r).1 inner h₁ →
      Ends fate h₁ es log h₂ → Ends fate h (e :: es) (⟨e, fate⟩ :: (inner ++ log)) h₂

namespace Ends

theorem append (hends : Ends fate h es log h₁) (hends' : Ends fate h₁ es' log' h₂) :
    Ends fate h (es ++ es') (log ++ log') h₂ := by
  induction hends with
  | nil => exact hends'
  | perform hduty hfails _ ih => exact .perform hduty hfails (ih hends')
  | giveUp hduty hinner _ _ ih =>
      rw [List.cons_append, List.cons_append, List.append_assoc]
      exact .giveUp hduty hinner (ih hends')

/-- Every entry ends once: those of the chain, and those that leave the heap. -/
theorem length_add_weight (hends : Ends fate h es log h') :
    log.length + h'.weight = es.length + h.weight := by
  induction hends with
  | nil => rfl
  | perform _ _ _ ih =>
      rw [List.length_cons, List.length_cons]
      omega
  | @giveUp _ h _ _ _ _ r _ _ _ _ _ ihInner ih =>
      have := h.length_release_add_weight r
      rw [List.length_cons, List.length_cons, List.length_append]
      omega

/-- The entries of the chain end in their order. -/
theorem sublist (hends : Ends fate h es log h') : (es.map (Event.mk · fate)).Sublist log := by
  induction hends with
  | nil => exact .slnil
  | perform _ _ _ ih => exact ih.cons_cons _
  | giveUp _ _ _ _ ih => exact (ih.trans (List.sublist_append_right _ _)).cons_cons _

end Ends

/-! ## Chains in which an action fails -/

/-- A chain that is being carried out, divided at the entry whose turn it is. -/
structure Frame where
  before : Chain
  entry : Entry
  after : Chain
deriving DecidableEq, Repr

namespace Frame

/-- The chain as a whole. -/
def chain (f : Frame) : Chain := f.before ++ f.entry :: f.after

/-- The ends of the entries if an action fails during the turn of that entry: those before it have
been carried out, it has had its turn, and those behind it are dropped. -/
def events (f : Frame) : Log :=
  f.before.map (⟨·, .ran⟩) ++ ⟨f.entry, .ran⟩ :: f.after.map (⟨·, .dropped⟩)

theorem map_entry_events (f : Frame) : f.events.map Event.entry = f.chain := by
  simp [events, chain, Function.comp_def]

end Frame

/-- The action with a label fails while a chain is carried out. The frames are the chains that are
being carried out at that moment, from the outermost one to that of the action. What is left of a
chain is dropped when the chains inside it are done with. -/
inductive Unwinds : Heap → Chain → String → List Frame → Log → Heap → Prop where
  | here {h h₁ h₂ : Heap} {f : Frame} {a : Action} {ran dropped : Log} :
    Ends .ran h f.before ran h₁ → f.entry.duty = .perform a → a.fails = true →
      Ends .dropped h₁ f.after dropped h₂ →
      Unwinds h f.chain a.label [f] (ran ++ ⟨f.entry, .ran⟩ :: dropped) h₂
  | within {h h₁ h₂ h₃ : Heap} {f : Frame} {frames : List Frame} {r : Handle} {label : String}
    {ran inner dropped : Log} :
    Ends .ran h f.before ran h₁ → f.entry.duty = .giveUp r →
      Unwinds (h₁.release r).2 (h₁.release r).1 label frames inner h₂ →
      Ends .dropped h₂ f.after dropped h₃ →
      Unwinds h f.chain label (f :: frames) (ran ++ ⟨f.entry, .ran⟩ :: (inner ++ dropped)) h₃

namespace Unwinds

variable {frames : List Frame}

/-- Entries that are carried out before a chain belong to the outermost frame. -/
theorem prepend (hends : Ends .ran h es log h₁) (hunwinds : Unwinds h₁ es' label frames log' h₂) :
    ∃ frames', Unwinds h (es ++ es') label frames' (log ++ log') h₂ := by
  cases hunwinds with
  | @here _ _ _ f _ _ _ hbefore hduty hfails hafter =>
      have h := Unwinds.here (f := { f with before := es ++ f.before })
        (hends.append hbefore) hduty hfails hafter
      rw [Frame.chain, List.append_assoc, List.append_assoc] at h
      exact ⟨_, h⟩
  | @within _ _ _ _ f _ _ _ _ _ _ hbefore hduty hinner hafter =>
      have h := Unwinds.within (f := { f with before := es ++ f.before })
        (hends.append hbefore) hduty hinner hafter
      rw [Frame.chain, List.append_assoc, List.append_assoc] at h
      exact ⟨_, h⟩

theorem length_add_weight (hunwinds : Unwinds h es label frames log h') :
    log.length + h'.weight = es.length + h.weight := by
  induction hunwinds with
  | here hbefore _ _ hafter =>
      have h₁ := hbefore.length_add_weight
      have h₂ := hafter.length_add_weight
      simp only [Frame.chain, List.length_append, List.length_cons]
      omega
  | @within _ h₁ _ _ _ _ r _ _ _ _ hbefore _ _ hafter ih =>
      have hb := hbefore.length_add_weight
      have ha := hafter.length_add_weight
      have := h₁.length_release_add_weight r
      simp only [Frame.chain, List.length_append, List.length_cons]
      omega

/-- The entries of every chain that is being carried out end as its frame says. -/
theorem sublist (hunwinds : Unwinds h es label frames log h') :
    ∀ f ∈ frames, f.events.Sublist log := by
  induction hunwinds with
  | here hbefore _ _ hafter =>
      intro f hf
      obtain rfl := List.mem_singleton.mp hf
      exact hbefore.sublist.append (hafter.sublist.cons_cons _)
  | @within _ _ _ _ _ _ _ _ ran inner dropped hbefore _ _ hafter ih =>
      intro f hf
      rcases List.mem_cons.mp hf with rfl | hf
      · have hafter := hafter.sublist.trans (List.sublist_append_right inner dropped)
        exact hbefore.sublist.append (hafter.cons_cons _)
      · have hinner := (ih f hf).trans (List.sublist_append_left inner dropped)
        exact (hinner.trans (List.sublist_cons_self _ _)).trans (List.sublist_append_right ran _)

/-- If no entry ends twice, then those of a chain that is being carried out end just as its frame
says. -/
theorem filter_log (hunwinds : Unwinds h es label frames log h')
    (hn : (log.map Event.entry).Nodup) {f : Frame} (hf : f ∈ frames) :
    log.filter (fun ev => decide (ev.entry ∈ f.chain)) = f.events := by
  rw [← f.map_entry_events]
  exact Log.filter_of_sublist (hunwinds.sublist f hf) hn

end Unwinds

/-! ## From entries to chains -/

/-- A cascade that has gone on for some events. -/
def after (m : Cascade) (heap : Heap) (due : List (Fate × Entry)) (log : Log)
    (failure : Option String) : Cascade :=
  { m with heap, due, events := m.events ++ log, failure }

theorem after_after (m : Cascade) (h h' : Heap) (due due' : List (Fate × Entry)) (log log' : Log)
    (failure failure' : Option String) :
    (m.after h due log failure).after h' due' log' failure' =
      m.after h' due' (log ++ log') failure' := by
  simp only [after, List.append_assoc]

/-- What becomes of the entries that are still due when an action fails. -/
def spoil (due : List (Fate × Entry)) : List (Fate × Entry) := due.map fun d => (.dropped, d.2)

theorem spoil_append (due : List (Fate × Entry)) (fate : Fate) (es : Chain) :
    spoil (es.map (fate, ·) ++ due) = es.map (.dropped, ·) ++ spoil due := by
  simp only [spoil, List.map_append, List.map_map]
  rfl

/-- What becomes of the first entries that are due, if these are a chain: they all end in one way,
or an action fails, or a second one does. Then the cascade goes on with what is still due. -/
inductive Outcome (m : Cascade) (fate : Fate) (es : Chain) (due : List (Fate × Entry)) : Prop where
  | ended {log : Log} {h : Heap} : Ends fate m.heap es log h →
    m.settle = (m.after h due log m.failure).settle → Outcome m fate es due
  | failed {label : String} {frames : List Frame} {log : Log} {h : Heap} : m.failure = none →
    Unwinds m.heap es label frames log h →
    m.settle = (m.after h (spoil due) log (some label)).settle → Outcome m fate es due
  | aborted : m.settle.isAborted = true → Outcome m fate es due

namespace Outcome

variable {due : List (Fate × Entry)}

/-- Entries that have ended in the same way before. -/
theorem prepend (hfate : m.failure = none → fate = .ran) (hends : Ends fate m.heap es log h)
    (hsettle : m.settle = (m.after h (es'.map (fate, ·) ++ due) log m.failure).settle)
    (houtcome : (m.after h (es'.map (fate, ·) ++ due) log m.failure).Outcome fate es' due) :
    m.Outcome fate (es ++ es') due := by
  cases houtcome with
  | ended hends' hsettle' =>
      rw [after_after] at hsettle'
      exact .ended (hends.append hends') (hsettle.trans hsettle')
  | failed hnone hunwinds hsettle' =>
      obtain rfl := hfate hnone
      obtain ⟨frames, hunwinds⟩ := hunwinds.prepend hends
      rw [after_after] at hsettle'
      exact .failed hnone hunwinds (hsettle.trans hsettle')
  | aborted hab => exact .aborted (hsettle ▸ hab)

/-- After a failure, what is left of the chain is dropped. -/
theorem unwind {frames : List Frame} (hnone : m.failure = none)
    (hsettle : m.settle = (m.after h (es'.map (.dropped, ·) ++ spoil due) log (some label)).settle)
    (houtcome : (m.after h (es'.map (.dropped, ·) ++ spoil due) log (some label)).Outcome .dropped
      es' (spoil due))
    (hunwinds : ∀ log' h', Ends .dropped h es' log' h' →
      Unwinds m.heap es label frames (log ++ log') h') :
    m.Outcome fate es due := by
  cases houtcome with
  | ended hends hsettle' =>
      rw [after_after] at hsettle'
      exact .failed hnone (hunwinds _ _ hends) (hsettle.trans hsettle')
  | failed hnone' => contradiction
  | aborted hab => exact .aborted (hsettle ▸ hab)

/-- A chain that an entry takes out of the heap ends before what is left of the outer one. -/
theorem giveUp {m' : Cascade} {e : Entry} {r : Handle} (hfate : m.failure = none → fate = .ran)
    (hduty : e.duty = .giveUp r)
    (hm' : m' = m.after (m.heap.release r).2
      ((m.heap.release r).1.map (.ran, ·) ++ (es.map (fate, ·) ++ due)) [⟨e, fate⟩] m.failure)
    (hsettle : m.settle = m'.settle)
    (hfreed : m'.Outcome .ran (m.heap.release r).1 (es.map (fate, ·) ++ due))
    (hrest : ∀ {h fate due log failure}, h.weight ≤ m.heap.weight →
      (failure = none → fate = .ran) →
        (m.after h (es.map (fate, ·) ++ due) log failure).Outcome fate es due) :
    m.Outcome fate (e :: es) due := by
  subst hm'
  have hle {log : Log} {h : Heap} (hlen : log.length + h.weight =
      (m.heap.release r).1.length + (m.heap.release r).2.weight) : h.weight ≤ m.heap.weight := by
    have := m.heap.length_release_add_weight r
    omega
  cases hfreed with
  | @ended inner h hinner hsettle' =>
      have hone : Ends fate m.heap [e] (⟨e, fate⟩ :: (inner ++ [])) h := .giveUp hduty hinner .nil
      rw [List.append_nil] at hone
      rw [after_after] at hsettle'
      exact .prepend hfate hone (hsettle.trans hsettle')
        (hrest (hle hinner.length_add_weight) hfate)
  | failed hnone hinner hsettle' =>
      obtain rfl := hfate hnone
      rw [after_after, spoil_append] at hsettle'
      exact .unwind hnone (hsettle.trans hsettle') (hrest (hle hinner.length_add_weight) nofun)
        fun log' h' hends => .within (f := ⟨[], e, es⟩) .nil hduty hinner hends
  | aborted hab => exact .aborted (hsettle ▸ hab)

end Outcome

/-- A cascade ends chains as a whole. -/
theorem outcome {due : List (Fate × Entry)} (hdue : m.due = es.map (fate, ·) ++ due)
    (hfate : m.failure = none → fate = .ran) : m.Outcome fate es due := by
  -- What an entry takes out of the heap is due in its place, so the chain and the heap together get
  -- smaller with each entry that ends, and a chain that is taken out is smaller than both.
  induction hn : es.length + m.heap.weight using Nat.strongRecOn
    generalizing m fate es due with
  | ind n ih =>
    subst hn
    cases es with
    | nil =>
        rw [List.map_nil, List.nil_append] at hdue
        refine .ended .nil ?_
        rw [after, List.append_nil, ← hdue]
    | cons e es =>
        have hrest {h : Heap} {fate : Fate} {due : List (Fate × Entry)} {log : Log}
            {failure : Option String} (hle : h.weight ≤ m.heap.weight)
            (hfate : failure = none → fate = .ran) :
            (m.after h (es.map (fate, ·) ++ due) log failure).Outcome fate es due := by
          refine ih (es.length + h.weight) ?_ rfl hfate rfl
          rw [List.length_cons]
          omega
        have hsettle := m.settle_step.symm
        have hending := m.step_ending
        generalize m.step = m' at hsettle hending
        rw [List.map_cons, List.cons_append] at hdue
        cases hending with
        | idle hidle =>
            rw [hidle] at hdue
            contradiction
        | aborted => exact .aborted (by rw [hsettle, settle_of_idle rfl])
        | performed hdue' hduty hfails =>
            obtain ⟨⟨rfl, rfl⟩, rfl⟩ : (_ ∧ _) ∧ _ := by simpa using hdue.symm.trans hdue'
            have hone : Ends fate m.heap [e] [⟨e, fate⟩] m.heap := .perform hduty hfails .nil
            exact .prepend hfate hone hsettle (hrest (Nat.le_refl _) hfate)
        | @failed _ _ a hdue' hduty hfails hnone =>
            obtain ⟨⟨rfl, rfl⟩, rfl⟩ : (_ ∧ _) ∧ _ := by simpa using hdue.symm.trans hdue'
            have hsettle' : m.settle = (m.after m.heap (es.map (.dropped, ·) ++ spoil due)
                [⟨e, .ran⟩] (some a.label)).settle := by
              rw [← spoil_append due .ran es]
              exact hsettle
            exact .unwind hnone hsettle' (hrest (Nat.le_refl _) nofun) fun log' h' hends =>
              .here (f := ⟨[], e, es⟩) .nil hduty hfails hends
        | @gaveUp _ _ _ r hdue' hduty =>
            obtain ⟨⟨rfl, rfl⟩, rfl⟩ : (_ ∧ _) ∧ _ := by simpa using hdue.symm.trans hdue'
            refine .giveUp hfate hduty rfl hsettle ?_ hrest
            refine ih m.heap.weight ?_ rfl (fun _ => rfl) (m.heap.length_release_add_weight r)
            rw [List.length_cons]
            omega

/-! ## A single failure -/

/-- How many actions have failed: at most one before the program is aborted, and then two. -/
structure Tally (m : Cascade) : Prop where
  running : m.isAborted = false → m.events.failures = if m.failure.isSome then 1 else 0
  aborted : m.isAborted = true → m.events.failures = 2 ∧ m.due = []

theorem tally_start (heap : Heap) (chain : Chain) : (start heap chain).Tally :=
  ⟨fun _ => rfl, nofun⟩

/-- Before a step the program has not been aborted. -/
theorem Tally.isAborted (tally : m.Tally) (hdue : m.due ≠ []) : m.isAborted = false :=
  Bool.eq_false_iff.mpr fun hab => hdue (tally.aborted hab).2

/-- A step without a failure. -/
theorem Tally.append (tally : m.Tally) (hdue : m.due ≠ []) {ev : Event} (hev : ¬ ev.Failed)
    (heap : Heap) (due : List (Fate × Entry)) : (m.after heap due [ev] m.failure).Tally where
  running hab := by
    rw [after, Log.failures_concat_of_not hev]
    exact tally.running hab
  aborted hab := absurd ((tally.isAborted hdue).symm.trans hab) nofun

theorem Tally.step (tally : m.Tally) : m.step.Tally := by
  have hending := m.step_ending
  generalize m.step = m' at hending
  cases hending with
  | idle => exact tally
  | performed hdue hduty hfails =>
      refine tally.append (by simp [hdue]) ?_ _ _
      rintro ⟨hfate, a, ha, hfailed⟩
      cases hduty.symm.trans ha
      rw [hfails hfate] at hfailed
      contradiction
  | failed hdue hduty hfails hnone =>
      have hab := tally.isAborted (by simp [hdue])
      have hcount := tally.running hab
      rw [hnone] at hcount
      refine ⟨fun _ => ?_, fun h => absurd (hab.symm.trans h) nofun⟩
      rw [Log.failures_concat ⟨rfl, _, hduty, hfails⟩, hcount]
      rfl
  | aborted hdue hduty hfails hlabel =>
      have hcount := tally.running (tally.isAborted (by simp [hdue]))
      rw [hlabel] at hcount
      refine ⟨nofun, fun _ => ⟨?_, rfl⟩⟩
      rw [Log.failures_concat ⟨rfl, _, hduty, hfails⟩, hcount]
      rfl
  | gaveUp hdue hduty =>
      refine tally.append (by simp [hdue]) ?_ _ _
      rintro ⟨_, a, ha, _⟩
      cases hduty.symm.trans ha

theorem Tally.settle (tally : m.Tally) : m.settle.Tally :=
  (settle_induction (fun _ h => h.step) m tally).1

/-- If just one action fails in the course of a cascade, it unwinds the chains that are being
carried out. -/
theorem unwinds_of_failures (hone : (start h es).settle.events.failures = 1) :
    ∃ label frames, (start h es).settle.failure = some label ∧
      (start h es).settle.isAborted = false ∧
      Unwinds h es label frames (start h es).settle.events (start h es).settle.heap := by
  have tally := (tally_start h es).settle
  have houtcome : (start h es).Outcome .ran es [] :=
    outcome (List.append_nil _).symm fun _ => rfl
  cases houtcome with
  | ended hends hsettle =>
      replace hsettle := hsettle.trans (settle_of_idle rfl)
      rw [hsettle] at hone tally
      rw [tally.running rfl] at hone
      contradiction
  | failed _ hunwinds hsettle =>
      replace hsettle := hsettle.trans (settle_of_idle rfl)
      rw [hsettle]
      exact ⟨_, _, rfl, rfl, hunwinds⟩
  | aborted hab =>
      rw [(tally.aborted hab).1] at hone
      contradiction

end Cascade

end Lifespan.Cleanup
