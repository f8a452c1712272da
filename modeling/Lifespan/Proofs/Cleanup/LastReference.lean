import Lifespan.Cleanup.Sharing
import Mathlib.Data.List.Basic

/-!
# The last reference

The count that is kept with a shared chain is the number of references that have not been given up,
whichever threads act in whatever order. So the count falls from one to zero once at most, and after
that no thread holds a reference through which it could reach the chain. The thread that saw the
count fall is the only one that frees the chain.

A thread that saw its handle to be the only reference is left alone with it: the others hold
nothing that they could clone, and the thread itself does nothing else in the meantime.
-/

namespace Lifespan.Cleanup.Sharing

variable {s s' : Sharing} {i j : Nat} {t u : Thread}

/-! ## Moves in a row -/

/-- The state after moves in a row, if the threads can make them. -/
def run (s : Sharing) (moves : List Move) : Option Sharing := moves.foldlM step s

theorem run_cons (s : Sharing) (m : Move) (rest : List Move) :
    s.run (m :: rest) = (s.step m).bind fun next => next.run rest := rfl

/-- What every move keeps, moves in a row keep. -/
theorem run_induction {P : Sharing → Prop} (hstep : ∀ {s s' m}, step s m = some s' → P s → P s')
    {moves : List Move} (h : s.run moves = some s') (hs : P s) : P s' := by
  induction moves generalizing s with
  | nil =>
      cases h
      exact hs
  | cons m rest ih =>
      rw [run_cons] at h
      obtain ⟨next, hnext, hrest⟩ := Option.bind_eq_some_iff.mp h
      exact ih hrest (hstep hnext hs)

/-- The states that can be reached are those to which runs lead. -/
theorem reachable_iff_run :
    Reachable s ↔ ∃ others moves, (start others).run moves = some s := by
  constructor
  · intro h
    induction h with
    | start others => exact ⟨others, [], rfl⟩
    | @step s t m _ hstep ih =>
        obtain ⟨others, moves, hrun⟩ := ih
        refine ⟨others, moves ++ [m], ?_⟩
        rw [run] at hrun
        simp [run, List.foldlM_append, hrun, hstep]
  · rintro ⟨others, moves, hrun⟩
    exact run_induction (fun hstep hs => hs.step hstep) hrun (.start others)

/-- The moves that let the count fall from one to zero. -/
def lastReleases (s : Sharing) : List Move → List Move
  | [] => []
  | m :: rest =>
    match s.step m with
    | none => []
    | some next =>
      if s.count = 1 ∧ next.count = 0 then m :: next.lastReleases rest else next.lastReleases rest

/-- Whether a move carries the chain out and frees it. -/
def Move.isDestroy : Move → Bool
  | destroy _ => true
  | _ => false

/-- The thread that changes the chain by a move. -/
def Move.writer? : Move → Option Nat
  | extend i _ | change i _ => some i
  | _ => none

/-- The entry that a move adds to the chain. -/
def Move.entry? : Move → Option Entry
  | extend _ e => some e
  | _ => none

/-- What a move makes of the entries of the chain, as long as it is not freed. -/
def Move.written (entries : Chain) : Move → Chain
  | extend _ e => entries ++ [e]
  | change _ entries' => entries'
  | _ => entries

/-! ## What a move does -/

@[simp] theorem calm?_eq_some : s.calm? i = some t ↔ s.threads[i]? = some t ∧ t.stage = .calm := by
  simp [calm?, Option.filter_eq_some_iff]

@[simp] theorem holder?_eq_some :
    s.holder? i = some t ↔ (s.threads[i]? = some t ∧ t.stage = .calm) ∧ 0 < t.handles := by
  simp [holder?, Option.filter_eq_some_iff]

@[simp] theorem writer?_eq_some :
    s.writer? i = some t ↔ s.threads[i]? = some t ∧ t.stage = .exclusive := by
  simp [writer?, Option.filter_eq_some_iff]

/-- What a move does to the references. -/
inductive Turn (s : Sharing) : Sharing → Prop where
  | gain (i : Nat) (t u : Thread) : s.threads[i]? = some t → t.stage = .calm → 0 < t.references →
    u.stage = .calm → u.references = t.references + 1 → Turn s (s.increment.setThread i u)
  | lose (i : Nat) (t u : Thread) : s.threads[i]? = some t → t.stage = .calm →
    u.references + 1 = t.references → Turn s (s.decrement i u)
  | send (i j : Nat) (t u t' u' : Thread) : i ≠ j → s.threads[i]? = some t → t.stage = .calm →
    s.threads[j]? = some u → t'.stage = .calm → t'.references + 1 = t.references →
    u'.stage = u.stage → u'.references = u.references + 1 →
    Turn s ((s.setThread i t').setThread j u')
  | keep (i : Nat) (t u : Thread) : s.threads[i]? = some t → t.stage = .calm → u.stage = .calm →
    u.references = t.references → Turn s (s.setThread i u)
  | inspect (i : Nat) (t : Thread) : s.threads[i]? = some t → t.stage = .calm → 0 < t.handles →
    Turn s (s.setThread i { t with stage := if s.count = 1 then .exclusive else .calm })
  | write (i : Nat) (t : Thread) (entries : Chain) : s.threads[i]? = some t →
    t.stage = .exclusive → Turn s { s with chain := entries }
  | letGo (i : Nat) (t : Thread) : s.threads[i]? = some t → t.stage = .exclusive →
    Turn s (s.setThread i { t with stage := .calm })
  | destroy (i : Nat) (t : Thread) : s.threads[i]? = some t → t.stage = .destroying →
    Turn s ({ s with isFreed := true, runs := s.runs ++ [s.chain], chain := [] }.setThread i
      { t with stage := .calm })

theorem turn_step {m : Move} (h : s.step m = some s') : Turn s s' := by
  cases m with
  | clone i =>
      simp only [step, Option.map_eq_some_iff, holder?_eq_some] at h
      obtain ⟨t, ⟨⟨ht, hcalm⟩, hpos⟩, rfl⟩ := h
      exact .gain i t _ ht hcalm (by simp [Thread.references]; omega) hcalm
        (by simp [Thread.references]; omega)
  | send i j =>
      simp only [step] at h
      split at h
      · next t u ht hu =>
        split at h
        · cases h
        · next hij =>
          cases h
          rw [holder?_eq_some] at ht
          obtain ⟨⟨ht, hcalm⟩, hpos⟩ := ht
          exact .send i j t u _ _ hij ht hcalm hu hcalm (by simp [Thread.references]; omega) rfl
            (by simp [Thread.references]; omega)
      · cases h
  | drop i =>
      simp only [step, Option.map_eq_some_iff, holder?_eq_some] at h
      obtain ⟨t, ⟨⟨ht, hcalm⟩, hpos⟩, rfl⟩ := h
      exact .lose i t _ ht hcalm (by simp [Thread.references]; omega)
  | registerCopy i =>
      simp only [step, Option.map_eq_some_iff, holder?_eq_some] at h
      obtain ⟨t, ⟨⟨ht, hcalm⟩, hpos⟩, rfl⟩ := h
      exact .gain i t _ ht hcalm (by simp [Thread.references]; omega) hcalm
        (by simp [Thread.references]; omega)
  | moveInto i =>
      simp only [step, Option.map_eq_some_iff, holder?_eq_some] at h
      obtain ⟨t, ⟨⟨ht, hcalm⟩, hpos⟩, rfl⟩ := h
      exact .keep i t _ ht hcalm hcalm (by simp [Thread.references]; omega)
  | fire i =>
      simp only [step, Option.map_eq_some_iff, Option.filter_eq_some_iff, calm?_eq_some,
        decide_eq_true_eq] at h
      obtain ⟨t, ⟨⟨ht, hcalm⟩, hpos⟩, rfl⟩ := h
      exact .lose i t _ ht hcalm (by simp [Thread.references]; omega)
  | destroy i =>
      simp only [step, Option.map_eq_some_iff, Option.filter_eq_some_iff, decide_eq_true_eq] at h
      obtain ⟨t, ⟨ht, hstage⟩, rfl⟩ := h
      exact .destroy i t ht hstage
  | inspect i =>
      simp only [step, Option.map_eq_some_iff, holder?_eq_some] at h
      obtain ⟨t, ⟨⟨ht, hcalm⟩, hpos⟩, rfl⟩ := h
      exact .inspect i t ht hcalm hpos
  | extend i e =>
      simp only [step, Option.map_eq_some_iff, writer?_eq_some] at h
      obtain ⟨t, ⟨ht, hstage⟩, rfl⟩ := h
      exact .write i t _ ht hstage
  | change i entries =>
      simp only [step, Option.map_eq_some_iff, writer?_eq_some] at h
      obtain ⟨t, ⟨ht, hstage⟩, rfl⟩ := h
      exact .write i t entries ht hstage
  | letGo i =>
      simp only [step, Option.map_eq_some_iff, writer?_eq_some] at h
      obtain ⟨t, ⟨ht, hstage⟩, rfl⟩ := h
      exact .letGo i t ht hstage

/-! ## The invariant -/

/-- Whether a thread is about to free the chain, as a number. -/
def Thread.dues (t : Thread) : Nat := if t.stage = .destroying then 1 else 0

/-- The number of threads that are about to free the chain. -/
def dues (s : Sharing) : Nat := sum (s.threads.map Thread.dues)

/-- What the count, the threads and the memory of a shared chain have to do with each other. -/
structure Sound (s : Sharing) : Prop where
  counted : s.count = s.references
  /-- As soon as there is none, one thread is about to free the chain or has done so, and no thread
  before. (The difference is zero where the count is more than one.) -/
  due : s.dues + s.runs.length = 1 - s.count
  freed : s.isFreed = true ↔ s.runs.length = 1
  spent : s.isFreed = true → s.chain = []
  exclusive : ∀ t ∈ s.threads, t.stage = .exclusive → t.handles = 1 ∧ s.references = 1

@[simp] theorem references_withStage (t : Thread) (x : Stage) :
    ({ t with stage := x } : Thread).references = t.references := rfl

theorem Thread.dues_of_ne (h : t.stage ≠ .destroying) : t.dues = 0 := if_neg h

theorem Thread.dues_of_destroying (h : t.stage = .destroying) : t.dues = 1 := if_pos h

theorem references_setThread (h : s.threads[i]? = some t) (u : Thread) :
    (s.setThread i u).references + t.references = s.references + u.references :=
  sum_map_set Thread.references h u

theorem dues_setThread (h : s.threads[i]? = some t) (u : Thread) :
    (s.setThread i u).dues + t.dues = s.dues + u.dues :=
  sum_map_set Thread.dues h u

theorem dues_setThread_of_ne (h : s.threads[i]? = some t) (ht : t.stage ≠ .destroying)
    (hu : u.stage ≠ .destroying) : (s.setThread i u).dues = s.dues := by
  have hset := dues_setThread h u
  rw [Thread.dues_of_ne ht, Thread.dues_of_ne hu] at hset
  omega

/-- What a thread is in the middle of does not change the references. -/
theorem references_setStage {r : Sharing} {x : Stage} (h : r.threads[i]? = some t) :
    (r.setThread i { t with stage := x }).references = r.references := by
  have hset := references_setThread h { t with stage := x }
  simp only [references_withStage] at hset
  omega

theorem references_le (h : s.threads[i]? = some t) : t.references ≤ s.references := by
  have hset := references_setThread h {}
  simp only [Thread.references] at hset ⊢
  omega

theorem dues_le (h : s.threads[i]? = some t) : t.dues ≤ s.dues := by
  have hset := dues_setThread h {}
  simp only [Thread.dues, reduceCtorEq, if_false] at hset ⊢
  omega

/-- What two threads hold they hold both. -/
theorem references_add_le (hij : i ≠ j) (ht : s.threads[i]? = some t)
    (hu : s.threads[j]? = some u) : t.references + u.references ≤ s.references := by
  have hset := references_setThread ht {}
  have hle : u.references ≤ (s.setThread i {}).references :=
    references_le (i := j) (by rwa [setThread, List.getElem?_set_ne hij])
  simp only [Thread.references] at hset hle ⊢
  omega

namespace Sound

/-- While there is a reference, the chain has neither been freed nor is it about to be. -/
theorem unfreed (hs : s.Sound) (h : 0 < s.references) : s.dues = 0 ∧ s.isFreed = false := by
  have hdue := hs.due
  rw [hs.counted] at hdue
  have hrun : ¬ s.isFreed = true := by
    rw [hs.freed]
    omega
  exact ⟨by omega, by simpa using hrun⟩

/-- A thread that is about to free the chain is the only one, and no reference is left. -/
theorem of_destroying (hs : s.Sound) (ht : s.threads[i]? = some t)
    (hstage : t.stage = .destroying) :
    s.references = 0 ∧ s.dues = 1 ∧ s.runs = [] ∧ s.isFreed = false := by
  have hle := dues_le ht
  have hdue := hs.due
  have hone : t.dues = 1 := Thread.dues_of_destroying hstage
  have hruns : s.runs.length = 0 := by omega
  have hrun : ¬ s.isFreed = true := by
    rw [hs.freed]
    omega
  refine ⟨?_, by omega, List.length_eq_zero_iff.mp hruns, by simpa using hrun⟩
  rw [← hs.counted]
  omega

/-- Where a thread that is in the middle of nothing has a reference, no thread may change the
chain. -/
theorem not_exclusive (hs : s.Sound) (ht : s.threads[i]? = some t) (hcalm : t.stage = .calm)
    (hpos : 0 < t.references) : ∀ u ∈ s.threads, u.stage ≠ .exclusive := by
  intro u hu hstage
  obtain ⟨hone, hall⟩ := hs.exclusive u hu hstage
  obtain ⟨j, hj⟩ := List.mem_iff_getElem?.mp hu
  have hij : i ≠ j := by
    rintro rfl
    rw [ht] at hj
    cases hj
    simp [hcalm] at hstage
  have hle := references_add_le hij ht hj
  simp only [Thread.references] at hle hpos
  omega

theorem counted_turn (hs : s.Sound) (h : Turn s s') : s'.count = s'.references := by
  have hcounted := hs.counted
  cases h with
  | gain i t u ht _ _ _ hu =>
      have hset := sum_map_set Thread.references ht u
      simp only [references, setThread, increment] at hcounted ⊢
      omega
  | lose i t u ht _ hu =>
      have hle := references_le ht
      have hset := sum_map_set Thread.references ht
        { u with stage := if s.count = 1 then .destroying else .calm }
      simp only [references, setThread, decrement, references_withStage] at hcounted hle hset ⊢
      omega
  | send i j t u t' u' hij ht _ hu _ ht' _ hu' =>
      have hset := sum_map_set Thread.references ht t'
      have hu : (s.threads.set i t')[j]? = some u := by rwa [List.getElem?_set_ne hij]
      have hset' := sum_map_set Thread.references hu u'
      simp only [references, setThread] at hcounted ⊢
      omega
  | keep i t u ht _ _ hu =>
      have hset := sum_map_set Thread.references ht u
      simp only [references, setThread] at hcounted ⊢
      omega
  | inspect i t ht _ _ =>
      rw [references_setStage ht]
      exact hcounted
  | write i t entries _ _ => exact hcounted
  | letGo i t ht _ =>
      rw [references_setStage ht]
      exact hcounted
  | destroy i t ht _ => exact hcounted.trans (references_setStage ht).symm

theorem due_turn (hs : s.Sound) (h : Turn s s') : s'.dues + s'.runs.length = 1 - s'.count := by
  have hdue := hs.due
  have hcounted := hs.counted
  cases h with
  | gain i t u ht hcalm hpos hu _ =>
      have hle := references_le ht
      have hsame : (s.increment.setThread i u).dues = s.dues :=
        dues_setThread_of_ne (s := s.increment) ht (by simp [hcalm]) (by simp [hu])
      rw [hsame]
      simp only [setThread, increment]
      omega
  | lose i t u ht hcalm hu =>
      have hle := references_le ht
      have hset := dues_setThread ht { u with stage := if s.count = 1 then .destroying else .calm }
      rw [Thread.dues_of_ne (t := t) (by simp [hcalm])] at hset
      simp only [dues, setThread, decrement] at hdue hset ⊢
      by_cases hlast : s.count = 1
      · rw [if_pos hlast, Thread.dues_of_destroying rfl] at hset
        rw [if_pos hlast]
        omega
      · rw [if_neg hlast, Thread.dues_of_ne (t := { u with stage := .calm }) (by simp)] at hset
        rw [if_neg hlast]
        omega
  | send i j t u t' u' hij ht hcalm hu ht' _ hu' _ =>
      have hu : (s.setThread i t').threads[j]? = some u := by
        rwa [setThread, List.getElem?_set_ne hij]
      have hset := dues_setThread hu u'
      have hsame : u'.dues = u.dues := by simp [Thread.dues, hu']
      rw [dues_setThread_of_ne ht (by simp [hcalm]) (by simp [ht'])] at hset
      simp only [setThread] at hset ⊢
      omega
  | keep i t u ht hcalm hu _ =>
      rw [dues_setThread_of_ne ht (by simp [hcalm]) (by simp [hu])]
      exact hdue
  | inspect i t ht hcalm _ =>
      rw [dues_setThread_of_ne ht (by simp [hcalm]) (by split <;> simp)]
      exact hdue
  | write i t entries _ _ => exact hdue
  | letGo i t ht hstage =>
      rw [dues_setThread_of_ne ht (by simp [hstage]) (by simp)]
      exact hdue
  | destroy i t ht hstage =>
      obtain ⟨hnone, hone, hruns, -⟩ := hs.of_destroying ht hstage
      have hset := dues_setThread ht { t with stage := .calm }
      rw [Thread.dues_of_destroying hstage, Thread.dues_of_ne (t := { t with stage := .calm })
        (by simp)] at hset
      simp only [dues, setThread, hruns] at hone hset ⊢
      simp only [List.nil_append, List.length_singleton]
      omega

theorem freed_turn (hs : s.Sound) (h : Turn s s') : s'.isFreed = true ↔ s'.runs.length = 1 := by
  cases h with
  | destroy i t ht hstage =>
      obtain ⟨-, -, hruns, -⟩ := hs.of_destroying ht hstage
      simp [setThread, hruns]
  | _ => exact hs.freed

theorem spent_turn (hs : s.Sound) (h : Turn s s') : s'.isFreed = true → s'.chain = [] := by
  cases h with
  | write i t entries ht hstage =>
      have hone := (hs.exclusive t (List.mem_of_getElem? ht) hstage).2
      intro hfreed
      simp [(hs.unfreed (by omega)).2] at hfreed
  | destroy i t ht hstage => exact fun _ => rfl
  | _ => exact hs.spent

theorem exclusive_turn (hs : s.Sound) (h : Turn s s') :
    ∀ v ∈ s'.threads, v.stage = .exclusive → v.handles = 1 ∧ s'.references = 1 := by
  intro v hv hstage
  cases h with
  | gain i t u ht hcalm hpos hu _ =>
      rcases List.mem_or_eq_of_mem_set hv with hold | rfl
      · exact absurd hstage (hs.not_exclusive ht hcalm hpos v hold)
      · simp [hu] at hstage
  | lose i t u ht hcalm hu =>
      rcases List.mem_or_eq_of_mem_set hv with hold | rfl
      · exact absurd hstage (hs.not_exclusive ht hcalm (by omega) v hold)
      · split at hstage <;> simp at hstage
  | send i j t u t' u' hij ht hcalm hu ht' _ hu' _ =>
      have hnone := hs.not_exclusive ht hcalm (by omega)
      rcases List.mem_or_eq_of_mem_set hv with hold | rfl
      · rcases List.mem_or_eq_of_mem_set hold with hold | rfl
        · exact absurd hstage (hnone v hold)
        · simp [ht'] at hstage
      · rw [hu'] at hstage
        exact absurd hstage (hnone u (List.mem_of_getElem? hu))
  | keep i t u ht hcalm hu hsame =>
      have hset := references_setThread ht u
      rcases List.mem_or_eq_of_mem_set hv with hold | rfl
      · obtain ⟨hone, hall⟩ := hs.exclusive v hold hstage
        exact ⟨hone, by omega⟩
      · simp [hu] at hstage
  | inspect i t ht hcalm hpos =>
      have hall := references_setStage (r := s) (x := if s.count = 1 then .exclusive else .calm) ht
      have hle := references_le ht
      rcases List.mem_or_eq_of_mem_set hv with hold | rfl
      · exact absurd hstage (hs.not_exclusive ht hcalm (by simp [Thread.references]; omega) v hold)
      · -- The count is the number of references, so the handle is all that there is.
        have hlast : s.count = 1 := by
          by_contra hne
          simp [hne] at hstage
        have hone := hs.counted
        simp only [Thread.references] at hle
        exact ⟨by simp only; omega, by omega⟩
  | write i t entries _ _ => exact hs.exclusive v hv hstage
  | letGo i t ht hexclusive =>
      rcases List.mem_or_eq_of_mem_set hv with hold | rfl
      · obtain ⟨hone, hall⟩ := hs.exclusive v hold hstage
        exact ⟨hone, (references_setStage ht).trans hall⟩
      · simp at hstage
  | destroy i t ht hdue =>
      have hnone := (hs.of_destroying ht hdue).1
      rcases List.mem_or_eq_of_mem_set hv with hold | rfl
      · have hall := (hs.exclusive v hold hstage).2
        omega
      · simp at hstage

/-- Each move keeps the invariant. -/
theorem turn (hs : s.Sound) (h : Turn s s') : s'.Sound where
  counted := hs.counted_turn h
  due := hs.due_turn h
  freed := hs.freed_turn h
  spent := hs.spent_turn h
  exclusive := hs.exclusive_turn h

theorem step {m : Move} (hs : s.Sound) (h : s.step m = some s') : s'.Sound :=
  hs.turn (turn_step h)

theorem start (others : Nat) : (start others).Sound where
  counted := by simp [Sharing.start, references, Thread.references, sum_eq_zero]
  due := by simp [Sharing.start, dues, Thread.dues, sum_eq_zero]
  freed := by simp [Sharing.start]
  spent := by simp [Sharing.start]
  exclusive := by simp [Sharing.start]

theorem step_destroy (hs : s.Sound) (h : s.step (.destroy i) = some s') :
    s.references = 0 ∧ s.runs = [] ∧ s.isFreed = false := by
  simp only [Sharing.step, Option.map_eq_some_iff, Option.filter_eq_some_iff,
    decide_eq_true_eq] at h
  obtain ⟨t, ⟨ht, hstage⟩, -⟩ := h
  obtain ⟨hnone, -, hruns, hfreed⟩ := hs.of_destroying ht hstage
  exact ⟨hnone, hruns, hfreed⟩

/-- A thread that changes the chain holds the only reference, whatever it changes. -/
theorem step_writer {m : Move} (hs : s.Sound) (h : s.step m = some s') (hm : m.writer? = some i) :
    s.references = 1 ∧ ∃ t, s.threads[i]? = some t ∧ t.handles = 1 := by
  obtain ⟨t, ht, hstage⟩ : ∃ t, s.threads[i]? = some t ∧ t.stage = .exclusive := by
    cases m with
    | extend j e | change j entries =>
        cases hm
        simp only [Sharing.step, Option.map_eq_some_iff, writer?_eq_some] at h
        obtain ⟨t, ht, -⟩ := h
        exact ⟨t, ht⟩
    | _ => contradiction
  obtain ⟨hone, hall⟩ := hs.exclusive t (List.mem_of_getElem? ht) hstage
  exact ⟨hall, t, ht, hone⟩

/-- A move that reads or writes the memory of the chain finds it there. -/
theorem unfreed_of_touches {m : Move} (hs : s.Sound) (h : s.step m = some s')
    (htouches : m.touches = true) : s.isFreed = false := by
  have of_holder {i : Nat} {t : Thread} (ht : s.threads[i]? = some t) (hpos : 0 < t.references) :
      s.isFreed = false := by
    have hle := references_le ht
    exact (hs.unfreed (by omega)).2
  cases m with
  | send i j => simp [Move.touches] at htouches
  | moveInto i => simp [Move.touches] at htouches
  | letGo i => simp [Move.touches] at htouches
  | destroy i => exact (hs.step_destroy h).2.2
  | extend i e | change i entries =>
      have hone := (hs.step_writer h rfl).1
      exact (hs.unfreed (by omega)).2
  | fire i =>
      simp only [Sharing.step, Option.map_eq_some_iff, Option.filter_eq_some_iff, calm?_eq_some,
        decide_eq_true_eq] at h
      obtain ⟨t, ⟨⟨ht, -⟩, hpos⟩, -⟩ := h
      exact of_holder ht (by simp [Thread.references]; omega)
  | _ =>
      simp only [Sharing.step, Option.map_eq_some_iff, holder?_eq_some] at h
      obtain ⟨t, ⟨⟨ht, -⟩, hpos⟩, -⟩ := h
      exact of_holder ht (by simp [Thread.references]; omega)

/-- Once no reference is left, the chain has been freed or some thread can free it. -/
theorem exists_destroy (hs : s.Sound) (hnone : s.references = 0) (hkept : s.isFreed = false) :
    ∃ i s', s.step (.destroy i) = some s' := by
  have hdue := hs.due
  rw [hs.counted, hnone] at hdue
  have hruns : s.runs.length ≠ 1 := by
    rw [Ne, ← hs.freed, hkept]
    exact Bool.false_ne_true
  obtain ⟨t, ht, hstage⟩ : ∃ t ∈ s.threads, t.stage = .destroying := by
    by_contra hno
    have hzero : s.dues = 0 := by
      refine sum_eq_zero fun n hn => ?_
      obtain ⟨t, ht, rfl⟩ := List.mem_map.mp hn
      exact Thread.dues_of_ne fun hstage => hno ⟨t, ht, hstage⟩
    omega
  obtain ⟨i, hi⟩ := List.mem_iff_getElem?.mp ht
  refine ⟨i, Option.isSome_iff_exists.mp ?_⟩
  simp [Sharing.step, hi, hstage]

/-- A move lets the count fall by one at most, and nothing raises it from zero. -/
theorem count_turn (hs : s.Sound) (h : Turn s s') :
    (s.count = 0 → s'.count = 0) ∧ s.count ≤ s'.count + 1 := by
  have hcounted := hs.counted
  cases h with
  | gain i t u ht hcalm hpos hu _ =>
      have hle := references_le ht
      simp only [setThread, increment]
      omega
  | lose i t u ht hcalm hu =>
      simp only [setThread, decrement]
      omega
  | _ =>
      simp only [setThread]
      omega

/-- The count falls to zero once at most. -/
theorem length_lastReleases {moves : List Move} (hs : s.Sound) (h : s.run moves = some s') :
    (s.lastReleases moves).length + (1 - s.count) = 1 - s'.count := by
  induction moves generalizing s with
  | nil =>
      cases h
      simp [lastReleases]
  | cons m rest ih =>
      rw [run_cons] at h
      obtain ⟨next, hnext, hrest⟩ := Option.bind_eq_some_iff.mp h
      obtain ⟨hzero, hfall⟩ := hs.count_turn (turn_step hnext)
      have hlater := ih (hs.step hnext) hrest
      simp only [lastReleases, hnext]
      split
      · rw [List.length_cons]
        omega
      · omega

theorem run {moves : List Move} (hs : s.Sound) (h : s.run moves = some s') : s'.Sound :=
  run_induction (fun hstep hs => hs.step hstep) h hs

end Sound

/-- How often a move carries the chain out. -/
theorem length_runs_step {m : Move} (h : s.step m = some s') :
    s'.runs.length = s.runs.length + m.isDestroy.toNat := by
  cases m with
  | send i j =>
      simp only [step] at h
      split at h
      · split at h
        · cases h
        · cases h
          simp [setThread, Move.isDestroy]
      · cases h
  | _ =>
      simp only [step, Option.map_eq_some_iff] at h
      obtain ⟨t, -, rfl⟩ := h
      simp [setThread, decrement, increment, Move.isDestroy]

theorem length_runs_run {moves : List Move} (h : s.run moves = some s') :
    s'.runs.length = s.runs.length + moves.countP Move.isDestroy := by
  induction moves generalizing s with
  | nil =>
      cases h
      simp
  | cons m rest ih =>
      rw [run_cons] at h
      obtain ⟨next, hnext, hrest⟩ := Option.bind_eq_some_iff.mp h
      rw [ih hrest, length_runs_step hnext, List.countP_cons]
      cases m.isDestroy
      · simp
      · simp
        omega

namespace Sound

/-- What has been carried out, or is to be, changes only as a move changes the chain. -/
theorem written_step {m : Move} (hs : s.Sound) (h : s.step m = some s') :
    s'.runs.flatten ++ s'.chain = m.written (s.runs.flatten ++ s.chain) := by
  -- Nothing has been carried out as long as there is somebody who may change the chain.
  have hwriter {i : Nat} (hm : m.writer? = some i) : s.runs = [] := by
    have hone := (hs.step_writer h hm).1
    have hdue := hs.due
    rw [hs.counted, hone] at hdue
    exact List.eq_nil_of_length_eq_zero (by omega)
  cases m with
  | send i j =>
      simp only [Sharing.step] at h
      split at h
      · split at h
        · cases h
        · cases h
          rfl
      · cases h
  | extend i e | change i entries =>
      have hruns := hwriter rfl
      simp only [Sharing.step, Option.map_eq_some_iff] at h
      obtain ⟨t, -, rfl⟩ := h
      simp [hruns, Move.written]
  | _ =>
      simp only [Sharing.step, Option.map_eq_some_iff] at h
      obtain ⟨t, -, rfl⟩ := h
      simp [setThread, decrement, increment, Move.written]

theorem written_run {moves : List Move} (hs : s.Sound) (h : s.run moves = some s') :
    s'.runs.flatten ++ s'.chain = moves.foldl Move.written (s.runs.flatten ++ s.chain) := by
  induction moves generalizing s with
  | nil =>
      cases h
      rfl
  | cons m rest ih =>
      rw [run_cons] at h
      obtain ⟨next, hnext, hrest⟩ := Option.bind_eq_some_iff.mp h
      rw [ih (hs.step hnext) hrest, hs.written_step hnext, List.foldl_cons]

/-- A chain that was freed was carried out once, as it had become by all that was written. -/
theorem runs_of_freed {moves : List Move} {others : Nat} (hs : s.Sound)
    (h : (Sharing.start others).run moves = some s) (hfreed : s.isFreed = true) :
    s.runs = [moves.foldl Move.written []] := by
  obtain ⟨c, hc⟩ := List.length_eq_one_iff.mp (hs.freed.mp hfreed)
  have hwritten := (Sound.start others).written_run h
  rw [hc, hs.spent hfreed] at hwritten
  rw [hc]
  simpa [Sharing.start] using hwritten

end Sound

/-- Where entries are only added, none is lost. -/
theorem foldl_written_of_extend {moves : List Move} (h : ∀ i entries, .change i entries ∉ moves)
    (entries : Chain) :
    moves.foldl Move.written entries = entries ++ moves.filterMap Move.entry? := by
  induction moves generalizing entries with
  | nil => simp
  | cons m rest ih =>
      have hrest := ih fun i added hmem => h i added (List.mem_cons_of_mem m hmem)
      rw [List.foldl_cons, hrest]
      cases m with
      | change i added => exact absurd List.mem_cons_self (h i added)
      | extend i e => simp [Move.written, Move.entry?]
      | _ => rfl

/-- Whatever threads that share a chain do, and in whatever order, the chain is carried out and
freed once at most, and not before its last reference has been given up. -/
theorem released_once {others : Nat} {moves : List Move}
    (reached : (start others).run moves = some s) :
    -- The count is right, and falls to zero once at most.
    s.count = s.references ∧ ((start others).lastReleases moves).length ≤ 1 ∧
    -- The chain is carried out and freed once at most, as it had become by what was written to it:
    -- with all entries that were ever added, if nothing else was done to it.
    moves.countP Move.isDestroy = s.runs.length ∧ s.runs.length ≤ 1 ∧
    (s.isFreed = true ↔ s.runs.length = 1) ∧
    (s.isFreed = true → s.references = 0 ∧ s.runs = [moves.foldl Move.written []] ∧
      ((∀ i entries, .change i entries ∉ moves) → s.runs = [moves.filterMap Move.entry?])) ∧
    -- It is not freed before the last reference is given up, and can be afterwards.
    (∀ i next, s.step (.destroy i) = some next → s.references = 0 ∧ s.isFreed = false) ∧
    (s.references = 0 → s.isFreed = true ∨ ∃ i next, s.step (.destroy i) = some next) ∧
    -- Whoever reads or writes its memory finds it there.
    (∀ m next, s.step m = some next → m.touches = true → s.isFreed = false) ∧
    -- Whoever changes it, in whatever way, holds the only reference.
    (∀ m i next, s.step m = some next → m.writer? = some i →
      s.references = 1 ∧ ∃ t, s.threads[i]? = some t ∧ t.handles = 1) := by
  have sound := (Sound.start others).run reached
  have hfalls := (Sound.start others).length_lastReleases reached
  have hruns := length_runs_run reached
  have hdue := sound.due
  refine ⟨sound.counted, by omega, ?_, by omega, sound.freed, ?_, ?_, ?_, ?_, ?_⟩
  · simpa [start] using hruns.symm
  · intro hfreed
    have hone := sound.freed.mp hfreed
    have hwritten := sound.runs_of_freed reached hfreed
    refine ⟨sound.counted ▸ by omega, hwritten, fun hadded => ?_⟩
    rw [hwritten, foldl_written_of_extend hadded, List.nil_append]
  · intro i next hnext
    obtain ⟨hnone, -, hkept⟩ := sound.step_destroy hnext
    exact ⟨hnone, hkept⟩
  · intro hnone
    cases hfreed : s.isFreed with
    | true => exact .inl rfl
    | false => exact .inr (sound.exists_destroy hnone hfreed)
  · intro m next hnext htouches
    exact sound.unfreed_of_touches hnext htouches
  · intro m i next hnext hm
    exact sound.step_writer hnext hm

/-- Three threads get hold of a chain, of which the first one has exchanged the entries. It looks
again while the others hold references, and the one that gives the last of them up frees the chain.
-/
def relay : List Move :=
  [.inspect 0, .extend 0 ⟨0, .perform { label := "first" }⟩,
    .change 0 [⟨1, .perform { label := "last" }⟩], .letGo 0, .clone 0, .send 0 1, .registerCopy 1,
    .inspect 0, .clone 1, .send 1 2, .drop 0, .drop 1, .drop 2, .fire 1, .destroy 1]

/-- What the relay leads to, and that nobody can do anything with the chain afterwards. -/
theorem released_once_relay :
    ∃ s, (start 2).run relay = some s ∧ s.isFreed = true ∧
      (start 2).lastReleases relay = [.fire 1] ∧ relay.countP Move.isDestroy = 1 ∧
      s.runs = [[⟨1, .perform { label := "last" }⟩]] ∧
      ∀ m next, s.step m = some next → m.touches = false := by
  obtain ⟨-, -, hcount, -, -, hfreed, -, -, htouch, -⟩ :=
    @released_once _ 2 relay rfl
  refine ⟨_, rfl, rfl, by decide, hcount, (hfreed rfl).2.1, ?_⟩
  intro m next hnext
  cases htouches : m.touches with
  | false => rfl
  | true => exact absurd (htouch m next hnext htouches) (by decide)

end Lifespan.Cleanup.Sharing
