import Lifespan.Proofs.Cleanup.Spent

/-!
# The order in which entries are carried out

Entries are carried out in the order of the list in which they wait, the oldest first, and an entry
that takes another list out of the heap is followed by all of that list. So it makes no difference
whether a list is carried out after another one, or is moved behind it first.
-/
namespace Lifespan.Cleanup

/-- The heap when the entries of an object have been moved away. -/
def Object.drained (heap : Heap) : Object → Heap
  | .handle h => heap.setChain h []
  | _ => heap

/-- No pending entry refers to what an object refers to. -/
def Object.Apart (heap : Heap) (es : Chain) (o : Object) : Prop :=
  ∀ c, o = .handle (some c) → (∀ e ∈ es, ¬ e.owns c) ∧ ∀ x, ¬ heap.Refers x c

namespace Object

variable {heap h₁ h₂ : Heap} {o : Object} {es moved : Chain} {log log₁ log₂ : Log}

/-- If the entries of an object have been moved to the end of a chain, they are carried out just as
they are when the object is given up after the chain. -/
theorem ends_drained_iff (hopen : o.target? heap = some moved)
    (hapart : o.Apart heap (es ++ moved)) :
    (∃ h, Cascade.Ends .ran (o.drained heap) (es ++ moved) log h) ↔
      ∃ log₁ log₂ h₁ h₂, log = log₁ ++ log₂ ∧ Cascade.Ends .ran heap es log₁ h₁ ∧
        Cascade.Ends .ran (o.freed h₁).2 (o.freed h₁).1 log₂ h₂ := by
  have hbare (hfreed : ∀ h, o.freed h = (moved, h)) (hdrained : o.drained heap = heap) :
      (∃ h, Cascade.Ends .ran (o.drained heap) (es ++ moved) log h) ↔
        ∃ log₁ log₂ h₁ h₂, log = log₁ ++ log₂ ∧ Cascade.Ends .ran heap es log₁ h₁ ∧
          Cascade.Ends .ran (o.freed h₁).2 (o.freed h₁).1 log₂ h₂ := by
    simp only [hfreed, hdrained]
    constructor
    · rintro ⟨h, hends⟩
      obtain ⟨log₁, log₂, h₁, heq, hfirst, hlast⟩ := hends.split
      exact ⟨log₁, log₂, h₁, h, heq, hfirst, hlast⟩
    · rintro ⟨log₁, log₂, h₁, h₂, rfl, hfirst, hlast⟩
      exact ⟨h₂, hfirst.append hlast⟩
  cases o with
  | chain entries =>
      cases hopen
      exact hbare (fun _ => rfl) rfl
  | pinnable p =>
      cases hopen
      exact hbare (fun _ => rfl) rfl
  | handle r =>
      obtain ⟨c, s, rfl, hs, hrefs, rfl⟩ := Heap.exclusive?_eq_some_iff.mp hopen
      obtain ⟨hunowned, hunreferred⟩ := hapart c rfl
      have hes : ∀ e ∈ es, ¬ e.owns c := fun e he => hunowned e (List.mem_append_left _ he)
      have hmoved : ∀ e ∈ s.chain, ¬ e.owns c := fun e he => hunowned e (List.mem_append_right _ he)
      have hdrained : (handle (some c)).drained heap = heap.set c (some { s with chain := [] }) :=
        Heap.setChain_eq hs []
      -- The chain stays where it is until its handle is given up.
      have hfreed {h₁ : Heap} {log₁ : Log} (hends : Cascade.Ends .ran heap es log₁ h₁) :
          (handle (some c)).freed h₁ = (s.chain, h₁.set c none) :=
        Heap.release_last ((hends.frame hes hunreferred).1.trans hs) (Nat.le_of_eq hrefs)
      rw [hdrained]
      constructor
      -- Its entries are put back for the first chain, and it is taken out for the second one.
      · rintro ⟨h, hends⟩
        obtain ⟨log₁, log₂, k, rfl, hfirst, hlast⟩ := hends.split
        have hunreferred' : ∀ x, ¬ (heap.set c (some { s with chain := [] })).Refers x c :=
          fun x hx => hunreferred x (Heap.loses_set hs (by simp) x c hx)
        have hfirst' := (hfirst.frame hes hunreferred').2 (heap.get? c)
        rw [Heap.set_set, Heap.set_get?] at hfirst'
        have hlast' := (hlast.frame hmoved fun x hx =>
          hunreferred' x (hfirst.releases.loses x c hx)).2 none
        refine ⟨log₁, log₂, _, h.set c none, rfl, hfirst', ?_⟩
        rw [hfreed hfirst', Heap.set_set]
        exact hlast'
      · rintro ⟨log₁, log₂, h₁, h₂, rfl, hfirst, hlast⟩
        rw [hfreed hfirst] at hlast
        have hkept := (hfirst.frame hes hunreferred).1.trans hs
        have hunreferred' : ∀ x, ¬ (h₁.set c none).Refers x c := fun x hx =>
          hunreferred x (hfirst.releases.loses x c (Heap.loses_set hkept (by simp) x c hx))
        have hlast' := (hlast.frame hmoved hunreferred').2 (some { s with chain := [] })
        rw [Heap.set_set] at hlast'
        exact ⟨_, ((hfirst.frame hes hunreferred).2 _).append hlast'⟩

/-- The same for cascades, as long as no action fails. -/
theorem events_drained (hopen : o.target? heap = some moved) (hapart : o.Apart heap (es ++ moved))
    {c : Cascade} (hc : c = (Cascade.start heap es).settle) {d : Cascade}
    (hd : d = (Cascade.start (o.freed c.heap).2 (o.freed c.heap).1).settle)
    {m : Cascade} (hm : m = (Cascade.start (o.drained heap) (es ++ moved)).settle)
    (hcalm : m.events.failures = 0 ∨ (c.events ++ d.events).failures = 0) :
    m.events = c.events ++ d.events := by
  rcases hcalm with hcalm | hcalm
  · rw [hm] at hcalm
    obtain ⟨log₁, log₂, h₁, h₂, heq, hfirst, hlast⟩ :=
      (ends_drained_iff hopen hapart).mp ⟨_, (Cascade.ends_of_failures hcalm).2.2⟩
    have hheap : c.heap = h₁ := congrArg Cascade.heap (hc.trans hfirst.settle_start)
    have hevents : c.events = log₁ := congrArg Cascade.events (hc.trans hfirst.settle_start)
    rw [hheap] at hd
    have hevents' : d.events = log₂ := congrArg Cascade.events (hd.trans hlast.settle_start)
    rw [hm, hevents, hevents']
    exact heq
  · rw [Log.failures_append] at hcalm
    obtain ⟨hcalm₁, hcalm₂⟩ := Nat.add_eq_zero_iff.mp hcalm
    rw [hc] at hcalm₁
    rw [hd] at hcalm₂
    have hfirst := (Cascade.ends_of_failures hcalm₁).2.2
    have hlast := (Cascade.ends_of_failures hcalm₂).2.2
    rw [← hc] at hfirst
    rw [← hd] at hlast
    obtain ⟨h, hends⟩ :=
      (ends_drained_iff hopen hapart).mpr ⟨_, _, _, _, rfl, hfirst, hlast⟩
    rw [hm, hends.settle_start]
    rfl

theorem freed_of_target? (hopen : o.target? heap = some es) : (o.freed heap).1 = es := by
  cases o with
  | chain entries => exact Option.some.inj hopen
  | pinnable p => exact Option.some.inj hopen
  | handle r =>
      obtain ⟨c, s, rfl, hs, hrefs, rfl⟩ := Heap.exclusive?_eq_some_iff.mp hopen
      rw [freed, Heap.release_last hs (Nat.le_of_eq hrefs)]

theorem get?_freed_of_ne {c : CellId} (hne : o ≠ .handle (some c)) :
    (o.freed heap).2.get? c = heap.get? c := by
  cases o with
  | chain entries => rfl
  | pinnable p => rfl
  | handle r => exact heap.get?_release_of_ne fun heq => hne (congrArg handle heq)

/-- What is given up with an object does not depend on a shared chain to which it does not refer. -/
theorem freed_set {c : CellId} (hne : o ≠ .handle (some c)) (t : Option Shared) :
    o.freed (heap.set c t) = ((o.freed heap).1, (o.freed heap).2.set c t) := by
  cases o with
  | chain entries => rfl
  | pinnable p => rfl
  | handle r => exact heap.release_set (fun heq => hne (congrArg handle heq)) t

end Object

namespace World

variable {w : World} {id source target : String} {o : Object} {es moved : Chain}
  {issued : List Entry}

/-- What a reset adds to the log. -/
theorem log_reset (ho : w.find? id = some o) :
    (w.reset id).2.heap = (Cascade.start (o.freed w.heap).2 (o.freed w.heap).1).settle.heap ∧
      (w.reset id).2.log =
        w.log ++ (Cascade.start (o.freed w.heap).2 (o.freed w.heap).1).settle.events := by
  obtain ⟨o', _, heq⟩ := exists_reset ho
  rw [heq, giveUp_eq_settle]
  exact ⟨rfl, rfl⟩

theorem find?_reset_ne (hne : source ≠ id) : (w.reset id).2.find? source = w.find? source := by
  cases ho : w.find? id with
  | none =>
      rw [reset, ho]
      rfl
  | some o =>
      obtain ⟨o', _, heq⟩ := exists_reset ho
      rw [heq, find?, objects_giveUp]
      exact find?_put_ne w o' hne

/-- Other entries at an object are given up instead of those that it had. -/
theorem exists_freed_setTarget (ho : w.find? id = some o) (hes : o.target? w.heap = some es)
    (es' : Chain) : ∃ o', (w.setTarget id es').find? id = some o' ∧
      (∀ r, o' = .handle r → o = .handle r) ∧
      o'.freed (w.setTarget id es').heap = (es', (o.freed w.heap).2) := by
  simp only [setTarget, ho]
  cases o with
  | chain entries => exact ⟨_, find?_put_self ho _, fun _ => Object.noConfusion, rfl⟩
  | pinnable p => exact ⟨_, find?_put_self ho _, fun _ => Object.noConfusion, rfl⟩
  | handle r =>
      obtain ⟨c, s, rfl, hs, hrefs, _⟩ := Heap.exclusive?_eq_some_iff.mp hes
      refine ⟨_, ho, fun _ h => h, ?_⟩
      dsimp only
      have hs' : (w.heap.set c (some { s with chain := es' })).get? c =
          some { s with chain := es' } := by
        rw [Heap.get?_set hs, if_pos rfl]
      rw [Heap.setChain_eq hs, Object.freed, Heap.release_last hs' (Nat.le_of_eq hrefs),
        Object.freed, Heap.release_last hs (Nat.le_of_eq hrefs), Heap.set_set]

theorem get?_setTarget_of_ne {c : CellId} (ho : w.find? id = some o) (hne : o ≠ .handle (some c))
    (es' : Chain) : (w.setTarget id es').heap.get? c = w.heap.get? c := by
  simp only [setTarget, ho]
  cases o with
  | chain entries => rfl
  | pinnable p => rfl
  | handle r =>
      cases r with
      | none => rfl
      | some d =>
          have hdc : d ≠ c := fun heq => hne (congrArg (Object.handle ∘ some) heq)
          simp only [Heap.setChain]
          split
          · rfl
          · exact Heap.get?_set_of_ne _ hdc _

theorem heap_setTarget_nil (ho : w.find? id = some o) :
    (w.setTarget id []).heap = o.drained w.heap := by
  simp only [setTarget, ho]
  cases o <;> rfl

namespace Books

/-- Two objects with target chains do not refer to the same shared chain. -/
theorem ne_handle (b : w.Books [] issued) (hne : source ≠ target) {c : CellId}
    (hsource : w.find? source = some (.handle (some c))) (ho : w.find? target = some o)
    (hes : o.target? w.heap = some es) : o ≠ .handle (some c) := by
  rintro rfl
  obtain ⟨d, s, heq, hs, hrefs, _⟩ := Heap.exclusive?_eq_some_iff.mp hes
  cases heq
  exact b.ne_of_exclusive? hne hsource ho hs hrefs rfl

/-- When all entries of one object have gone to another, they are given up with that one. -/
theorem freed_delegate {o' : Object} (b : w.Books [] issued) (hne : source ≠ target)
    (ho : w.find? source = some o) (hopen : o.target? w.heap = some moved)
    (ho' : w.find? target = some o') (hes : o'.target? w.heap = some es) (es' : Chain) :
    ∃ p, ((w.setTarget target es').setTarget source []).find? target = some p ∧
      p.freed ((w.setTarget target es').setTarget source []).heap =
        (es', o.drained (o'.freed w.heap).2) := by
  obtain ⟨p, hp, hhandle, hfreed⟩ := exists_freed_setTarget ho' hes es'
  have hsource : (w.setTarget target es').find? source = some o := by
    rw [find?_setTarget_ne w hne, ho]
  refine ⟨p, by rw [find?_setTarget_ne _ (Ne.symm hne), hp], ?_⟩
  rw [heap_setTarget_nil hsource]
  cases o with
  | chain entries => exact hfreed
  | pinnable q => exact hfreed
  | handle r =>
      obtain ⟨c, s, rfl, hs, _, _⟩ := Heap.exclusive?_eq_some_iff.mp hopen
      have hne' := b.ne_handle hne ho ho' hes
      have hs' : (w.setTarget target es').heap.get? c = some s := by
        rw [get?_setTarget_of_ne ho' hne', hs]
      have hs'' : (o'.freed w.heap).2.get? c = some s := by
        rw [Object.get?_freed_of_ne hne', hs]
      rw [Object.drained, Heap.setChain_eq hs', Object.drained, Heap.setChain_eq hs'',
        Object.freed_set fun heq => hne' (hhandle _ heq), hfreed]

/-- An object with a target chain has it as long as others are given up, and no pending entry refers
to it. -/
theorem apart_of_target? {o' : Object} (b : w.Books [] issued) (hne : source ≠ target)
    (ho : w.find? source = some o) (hopen : o.target? w.heap = some moved)
    (ho' : w.find? target = some o') (hes : o'.target? w.heap = some es) :
    o.target? (o'.freed w.heap).2 = some moved ∧ o.Apart (o'.freed w.heap).2 (es ++ moved) := by
  have hmoved : w.target? source = some moved := by rw [target?, ho, Option.bind_some, hopen]
  have hes' : w.target? target = some es := by rw [target?, ho', Option.bind_some, hes]
  constructor
  · cases o with
    | chain entries => exact hopen
    | pinnable p => exact hopen
    | handle r =>
        obtain ⟨c, s, rfl, hs, hrefs, hchain⟩ := Heap.exclusive?_eq_some_iff.mp hopen
        refine Heap.exclusive?_eq_some_iff.mpr ⟨c, s, rfl, ?_, hrefs, hchain⟩
        rw [Object.get?_freed_of_ne (b.ne_handle hne ho ho' hes), hs]
  · rintro c rfl
    obtain ⟨hunowned, _⟩ := b.unowned_of_target? hmoved ho
    refine ⟨fun e he => ?_, fun x hx => ?_⟩
    · rcases List.mem_append.mp he with he | he
      · exact hunowned e (mem_pending_of_target? hes' he)
      · exact hunowned e (mem_pending_of_target? hmoved he)
    · have hloses : w.heap.Loses (o'.freed w.heap).2 := by
        cases o' with
        | chain entries => exact .refl _
        | pinnable p => exact .refl _
        | handle r => exact Heap.loses_release _ r
      obtain ⟨s, hs, e, he, hc⟩ := hloses x c hx
      exact hunowned e (List.mem_append_right _ (Heap.mem_entries hs he)) hc

/-- Resetting an object that has taken over all entries of another one carries out the same as
resetting first the one and then the other. -/
theorem log_delegate_reset (b : w.Books [] issued) (hne : source ≠ target)
    (hmoved : w.target? source = some moved) (hes : w.target? target = some es)
    (hcalm : (w.steps [.delegate source target, .reset target]).log.failures = 0 ∨
      (w.steps [.reset target, .reset source]).log.failures = 0) :
    (w.steps [.delegate source target, .reset target]).log =
      (w.steps [.reset target, .reset source]).log := by
  obtain ⟨o, ho, hopen⟩ := Option.bind_eq_some_iff.mp hmoved
  obtain ⟨o', ho', hopen'⟩ := Option.bind_eq_some_iff.mp hes
  obtain ⟨p, hp, hfreed⟩ := b.freed_delegate hne ho hopen ho' hopen' (es ++ moved)
  obtain ⟨hkept, hapart⟩ := b.apart_of_target? hne ho hopen ho' hopen'
  have hdelegate : (w.step (.delegate source target)).2 =
      (w.setTarget target (es ++ moved)).setTarget source [] := by
    simp only [step, World.delegate, if_neg hne, hmoved, hes, Chain.delegate_eq]
    rfl
  have hone : (w.steps [.delegate source target, .reset target]).log =
      w.log ++ (Cascade.start (o.drained (o'.freed w.heap).2) (es ++ moved)).settle.events := by
    have h := (log_reset hp).2
    rw [hfreed, log_setTarget, log_setTarget, ← hdelegate] at h
    exact h
  have hheap := (log_reset ho').1
  have hfirst := (log_reset ho').2
  rw [Object.freed_of_target? hopen'] at hheap hfirst
  have hlast := (log_reset (w := (w.reset target).2) ((find?_reset_ne hne).trans ho)).2
  rw [hheap, hfirst, List.append_assoc] at hlast
  replace hlast : (w.steps [.reset target, .reset source]).log = _ := hlast
  rw [hone, hlast, Log.failures_append, Log.failures_append] at hcalm
  rw [hone, hlast]
  refine congrArg (w.log ++ ·) (Object.events_drained hkept hapart rfl rfl rfl ?_)
  omega

end Books

/-- In the course of a history without failures, entries are carried out in the order in which they
were registered, depth first.

What waits in each list after the history is what is there when registrations add entries to the
ends of lists, delegation and the like move one list behind another, and those entries are left out
that have ended. Each command adds to the log what its launches carry out: the entries of a chain
one after another, each followed by all of the chain that it takes out of the heap, if it takes one
out; there is just one way to do so. Apart from this, only entries that no list has taken end.

In particular, delegation carries out nothing, and resetting the target of a delegation afterwards
carries out just what resetting first the target and then the source would have carried out, if
either can be done without a failure. -/
theorem runs_in_order {history : List Command} (hcalm : (steps {} history).log.failures = 0) :
    let w := steps {} history
    (∀ s, w.chainAt s =
      (Edit.applyAll (fun _ => []) (allEdits {} history) s).filter w.log.awaits) ∧
    (∀ before c after, history = before ++ c :: after →
      let v := steps {} before
      ∃ traces, (∀ ts, List.Forall₂ Moment.Runs (v.launches c) ts ↔ ts = traces) ∧
        (v.step c).2.log = v.log ++ refusals (v.registration? c).toList ++ traces.flatten) ∧
    ∀ source target, source ≠ target → (w.target? source).isSome → (w.target? target).isSome →
      (w.step (.delegate source target)).2.log = w.log ∧
      ((w.steps [.delegate source target, .reset target]).log.failures = 0 ∨
        (w.steps [.reset target, .reset source]).log.failures = 0 →
          (w.steps [.delegate source target, .reset target]).log =
            (w.steps [.reset target, .reset source]).log) := by
  intro w
  have hab : w.isAborted = false := isAborted_of_failures history hcalm
  have b := books_steps history hab
  refine ⟨fun s => ?_, fun before c after heq => ?_, fun source target hne hsource htarget => ?_⟩
  · exact books_empty.chainAt_steps (fun s => by cases s <;> rfl) history rfl hcalm s
  · have hearlier : ((steps {} before).step c).2.log <+: w.log := by
      have hsteps : w = ((steps {} before).step c).2.steps after := by
        simp only [w, heq, steps_append]
        rfl
      rw [hsteps]
      exact (before_steps _ after).log
    have hle := Log.failures_mono hearlier
    obtain ⟨_, traces, hruns, hlog⟩ :=
      (steps {} before).runs_step c (Nat.eq_zero_of_le_zero (hcalm ▸ hle))
    refine ⟨traces, fun ts => ⟨fun h => ?_, fun h => h ▸ hruns⟩, hlog⟩
    exact List.right_unique_forall₂' (fun _ _ _ h h' => h.unique h') h hruns
  · obtain ⟨moved, hmoved⟩ := Option.isSome_iff_exists.mp hsource
    obtain ⟨es, hes⟩ := Option.isSome_iff_exists.mp htarget
    refine ⟨?_, b.log_delegate_reset hne hmoved hes⟩
    simp only [step, delegate, if_neg hne, hmoved, hes, done, log_setTarget]

/-- A nested chain holds the one copy of a handle, and another chain the other. What gives up the
last reference is moved to an empty chain and waits there, while the nested chain is carried out. -/
theorem runs_in_order_nested :
    let s : Slice := ⟨[1, 2]⟩
    let history : List Command := [.createChain "a", .createChain "b", .createPinnable "p",
      .createHandle "h" true, .register "h" { label := "shared" }, .createChain "n",
      .register "n" { label := "inner" }, .registerCopy "h" "n", .register "a" { label := "first" },
      .nest "n" "a", .moveInto "h" "b", .register "b" { label := "second" },
      .pinSliceFrom "p" s "a", .delegate "b" "a", .register "a" { label := "third" },
      .register "b" { label := "fourth" }, .reset "p"]
    let w := steps {} history
    w.log.failures = 0 ∧ w.log.texts = ["first", "inner"] ∧
      (Edit.applyAll (fun _ => []) (allEdits {} history) (.object "a")).filter w.log.awaits =
        [⟨5, .giveUp (some 0)⟩, ⟨6, .perform { label := "second" }⟩,
          ⟨7, .perform { label := "third" }⟩] ∧
      w.chainAt (.object "a") = [⟨5, .giveUp (some 0)⟩, ⟨6, .perform { label := "second" }⟩,
        ⟨7, .perform { label := "third" }⟩] ∧
      (w.steps [.reset "a", .reset "b"]).log.texts =
        ["first", "inner", "shared", "second", "third", "fourth"] ∧
      (w.steps [.delegate "b" "a", .reset "a"]).log = (w.steps [.reset "a", .reset "b"]).log := by
  intro s history w
  have hcalm : w.log.failures = 0 := by
    simp only [w, history, s]
    decide +kernel
  have htexts : w.log.texts = ["first", "inner"] := by
    simp only [w, history, s]
    decide +kernel
  have hlist : (Edit.applyAll (fun _ => []) (allEdits {} history) (.object "a")).filter
      w.log.awaits = [⟨5, .giveUp (some 0)⟩, ⟨6, .perform { label := "second" }⟩,
        ⟨7, .perform { label := "third" }⟩] := by
    simp only [w, history, s]
    decide +kernel
  have hopen : (w.target? "b").isSome ∧ (w.target? "a").isSome := by
    simp only [w, history, s]
    decide +kernel
  have hlast : (w.steps [.reset "a", .reset "b"]).log.texts =
      ["first", "inner", "shared", "second", "third", "fourth"] := by
    simp only [w, history, s]
    decide +kernel
  have hcalm' : (w.steps [.reset "a", .reset "b"]).log.failures = 0 := by
    simp only [w, history, s]
    decide +kernel
  obtain ⟨hlists, _, hdelegate⟩ := runs_in_order hcalm
  obtain ⟨_, hsame⟩ := hdelegate "b" "a" (by decide) hopen.1 hopen.2
  exact ⟨hcalm, htexts, hlist, (hlists (.object "a")).trans hlist, hlast, hsame (Or.inr hcalm')⟩

end World

end Lifespan.Cleanup
