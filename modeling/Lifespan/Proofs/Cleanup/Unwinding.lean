import Lifespan.Proofs.Cleanup.Course
import Lifespan.Proofs.Cleanup.References

/-!
# Commands in the course of which an action fails

A command that gives up what an object holds may make an action fail. Then the chains that are being
carried out are unwound, and the command ends with the failure. Nothing is lost by that: what was
pending before has either ended, and just once, or is pending still, and references are counted
right. The object, or the chain of it that was to be carried out, is left as empty as if nothing had
failed, except that a pinnable slice goes on showing what it showed.
-/
namespace Lifespan.Cleanup

namespace World

variable {w w' : World} {o : Object} {id : String} {c : Command} {events : Log}
  {issued : List Entry}

/-! ## Giving up an object -/

/-- Giving up an object gives up references one after another. -/
theorem releases_giveUp (w : World) (o : Object) : w.heap.Releases (w.giveUp o).2.heap := by
  rw [w.giveUp_eq [] o]
  exact (w.launch [] o).releases_finish

theorem giveUp_eq_settle (w : World) (o : Object) : w.giveUp o =
    let c := (Cascade.start (o.freed w.heap).2 (o.freed w.heap).1).settle
    (match c.failure with
      | some label => .error (if c.isAborted then .doubleFailure else .cleanup label)
      | none => .ok .done,
      { w with
        heap := c.heap
        log := w.log ++ c.events
        isAborted := w.isAborted || c.isAborted }) := by
  cases o <;> rfl

/-- If just one action fails when an object is given up, it unwinds the chains that are being
carried out. -/
theorem unwinds_of_giveUp (hone : (w.giveUp o).2.log.failures = w.log.failures + 1) :
    ∃ label frames events, (w.giveUp o).1 = .error (.cleanup label) ∧
      (w.giveUp o).2.log = w.log ++ events ∧ (w.giveUp o).2.isAborted = w.isAborted ∧
      Cascade.Unwinds (o.freed w.heap).2 (o.freed w.heap).1 label frames events
        (w.giveUp o).2.heap := by
  rw [giveUp_eq_settle] at hone ⊢
  dsimp only at hone ⊢
  rw [Log.failures_append] at hone
  obtain ⟨label, frames, hfailure, hab, hunwinds⟩ :=
    Cascade.unwinds_of_failures (Nat.add_left_cancel hone)
  refine ⟨label, frames, _, ?_, rfl, ?_, hunwinds⟩
  · rw [hfailure, hab]
    rfl
  · rw [hab, Bool.or_false]

/-- What a command gives up that is carried out on an object: the object itself, or just the entries
of its target chain. -/
def givenUp (w : World) (o : Object) : Command → Object
  | .flush _ => .chain ((o.target? w.heap).getD [])
  | _ => o

/-- The world in which a command gives up an object or the entries of its target chain. -/
def outset (w : World) (id : String) (o : Object) : Command → World
  | .flush _ => w.setTarget id []
  | .drop _ => w.erase id
  | _ => w.put id o.emptied

/-- If no fault comes of giving up an object, not just one action has failed. -/
theorem failures_ne_of_ok {r : Reply} (hok : w.giveUp o = (.ok r, w')) :
    w'.log.failures ≠ w.log.failures + 1 := by
  intro hone
  have hunwinds := unwinds_of_giveUp (w := w) (o := o)
  rw [hok] at hunwinds
  obtain ⟨_, _, _, hfault, _⟩ := hunwinds hone
  contradiction

@[simp] theorem log_outset (w : World) (id : String) (o : Object) (c : Command) :
    (w.outset id o c).log = w.log := by
  cases c with
  | flush => exact log_setTarget w id []
  | _ => rfl

@[simp] theorem isAborted_outset (w : World) (id : String) (o : Object) (c : Command) :
    (w.outset id o c).isAborted = w.isAborted := by
  cases c with
  | flush => exact isAborted_setTarget w id []
  | _ => rfl

/-- If one action fails, a command that gives up an object does no more than that. -/
theorem step_of_failures
    (hc : c = .reset id ∨ c = .drop id ∨ c = .allocate id ∨ c = .flush id)
    (ho : w.find? id = some o) (hone : (w.step c).2.log.failures = w.log.failures + 1) :
    w.step c = (w.outset id o c).giveUp (w.givenUp o c) := by
  rcases hc with rfl | rfl | rfl | rfl
  · cases o with
    | chain entries =>
        simp only [step, reset, ho]
        rfl
    | handle h =>
        simp only [step, reset, ho]
        rfl
    | pinnable p =>
        simp only [step, reset, ho] at hone ⊢
        cases hreply : (w.outset id (.pinnable p) (.reset id)).giveUp (.pinnable p) with
        | mk reply w' =>
            have hrun : (w.put id (.pinnable { p with cleanups := [] })).run p.cleanups =
              (reply, w') := hreply
            rw [hrun] at hone ⊢
            cases reply with
            | ok r => exact (failures_ne_of_ok hreply hone).elim
            | error f => exact hreply.symm
  · simp only [step, drop, ho]
    rfl
  · cases o with
    | chain entries => simp [step, allocate, ho, misnamed] at hone
    | pinnable p => simp [step, allocate, ho, misnamed] at hone
    | handle h =>
        simp only [step, allocate, ho] at hone ⊢
        cases hreply : (w.outset id (.handle h) (.allocate id)).giveUp (.handle h) with
        | mk reply w' =>
            have hrelease : (w.put id (.handle none)).release h = (reply, w') := hreply
            rw [hrelease] at hone ⊢
            cases reply with
            | ok r => exact (failures_ne_of_ok hreply hone).elim
            | error f => exact hreply.symm
  · simp only [step, flush] at hone ⊢
    cases ht : w.target? id with
    | none => simp [ht, refused] at hone
    | some entries =>
        rw [target?_of_find? ho] at ht
        rw [givenUp, ht]
        rfl

/-- What a command does that gives up an object or the entries of its target chain, if one action
fails. -/
theorem unwinds_of_step
    (hc : c = .reset id ∨ c = .drop id ∨ c = .allocate id ∨ c = .flush id)
    (ho : w.find? id = some o) (hone : (w.step c).2.log.failures = w.log.failures + 1) :
    let start := w.outset id o c
    (w.step c).2.objects = start.objects ∧ start.heap.Releases (w.step c).2.heap ∧
      (w.step c).2.isAborted = w.isAborted ∧
      ∃ label frames events, (w.step c).1 = .error (.cleanup label) ∧
        (w.step c).2.log = w.log ++ events ∧
        Cascade.Unwinds ((w.givenUp o c).freed start.heap).2 ((w.givenUp o c).freed start.heap).1
          label frames events (w.step c).2.heap := by
  intro start
  have hstep := step_of_failures hc ho hone
  rw [hstep, ← log_outset w id o c] at hone
  rw [hstep]
  obtain ⟨label, frames, events, hreply, hlog, hab, hunwinds⟩ := unwinds_of_giveUp hone
  rw [log_outset] at hlog
  rw [isAborted_outset] at hab
  have hobjects : (start.giveUp (w.givenUp o c)).2.objects = start.objects := by
    rw [giveUp_eq_settle]
  exact ⟨hobjects, start.releases_giveUp _, hab, label, frames, events, hreply, hlog, hunwinds⟩

/-! ## What is left -/

/-- What is pending in one world and what has ended since add up to what was pending before. The
heap is the one with which the ends have begun. -/
structure Accounts (w w' : World) (heap : Heap) (events : Log) : Prop where
  once : (w'.log.map Event.entry).Nodup
  pending : ∀ p, w'.pending.countP p + (events.map Event.entry).countP p = w.pending.countP p
  /-- A shared chain of which an entry has ended is not there any more. -/
  gone : ∀ c s, heap.get? c = some s → (∃ e ∈ s.chain, e ∈ events.map Event.entry) →
    w'.heap.get? c = none
  counted : ∀ c, w'.heap.refCount (some c) =
    w'.held.count (.handle (some c)) + w'.pending.countP (Entry.owns c)

theorem ended_rest (w : World) : w.rest.ended = w.log := List.append_nil w.log

/-- The books of two worlds say so if nothing but ends of entries lies between them. -/
theorem Books.accounts {heap : Heap} (b : w.Books [] issued) (b' : w'.Books [] issued)
    (hlog : w'.log = w.log ++ events) (hreleases : heap.Releases w'.heap) :
    w.Accounts w' heap events where
  once := by
    have h := b'.rest.nodup_ended b'.nodup_issued
    rwa [ended_rest] at h
  pending p := by
    have h := b.ledger.entries p
    have h' := b'.ledger.entries p
    rw [hlog, List.map_append, List.countP_append] at h'
    simp only [World.pending, List.countP_append]
    rw [List.nil_append] at h h'
    omega
  gone c s hs := by
    rintro ⟨e, he, hended⟩
    cases hs' : w'.heap.get? c with
    | none => rfl
    | some s' =>
        obtain ⟨t, ht, hchain⟩ := hreleases.chain hs'
        rw [hs] at ht
        cases ht
        have hwaits := (b'.rest.waits b'.nodup_issued hs' (hchain ▸ he)).2
        rw [ended_rest, hlog, List.map_append] at hwaits
        exact absurd (List.mem_append_right _ hended) hwaits
  counted c := by
    have h := b'.ledger.counted c
    rw [List.nil_append] at h
    rw [h, World.pending, List.countP_append, Nat.add_assoc]

/-- An object whose target chain is emptied keeps an empty one: nobody else can give up the single
reference to a shared chain. -/
theorem Accounts.target?_of_emptied {heap : Heap} {es : Chain} (h : w.Accounts w' heap events)
    (b : w.Books [] issued) (ht : w.target? id = some es)
    (hobjects : w'.objects = (w.setTarget id []).objects)
    (hreleases : (w.setTarget id []).heap.Releases w'.heap) : w'.target? id = some [] := by
  obtain ⟨o, ho, hes⟩ := Option.bind_eq_some_iff.mp (target?_setTarget ht [])
  refine Option.bind_eq_some_iff.mpr ⟨o, by rw [find?, hobjects]; exact ho, ?_⟩
  cases o with
  | chain entries => exact hes
  | pinnable p => exact hes
  | handle handle =>
      obtain ⟨c, s, rfl, hs, hrefs, hchain⟩ := Heap.exclusive?_eq_some_iff.mp hes
      have hswap := swapped_setTarget b.names (entriesAt?_of_target? ht) []
      -- the handle is the only reference before, and no entry has come since
      have hbefore := b.ledger.counted c
      rw [List.nil_append, Heap.refCount_eq, ← hswap.refs, hs, Option.map_some, Option.getD_some,
        hrefs, Nat.add_assoc, ← List.countP_append, ← World.pending] at hbefore
      have hpending := h.pending (Entry.owns c)
      have hafter := h.counted c
      have hheld : w'.held.count (.handle (some c)) = w.held.count (.handle (some c)) := by
        rw [held, hobjects]
        exact hswap.handles c
      have hmem := List.count_pos_iff.mpr (mem_held_of_find? ho)
      rw [hswap.handles] at hmem
      have hone : w'.heap.refCount (some c) = 1 := by omega
      obtain ⟨s', hs'⟩ := Heap.exists_of_refCount_pos (hone ▸ Nat.one_pos)
      rw [Heap.refCount_of_get? hs'] at hone
      obtain ⟨t, ht, hsame⟩ := hreleases.chain hs'
      rw [hs] at ht
      cases ht
      exact Heap.exclusive?_eq_some_iff.mpr ⟨c, s', rfl, hs', hone, hsame.symm.trans hchain⟩

/-! ## A pinnable slice without cleanups -/

theorem run_nil (w : World) : w.run [] = (.ok .done, w) := by
  simp [run, Cascade.settle_of_idle, Cascade.start]

theorem put_put (w : World) (id : String) (o o' : Object) :
    (w.put id o).put id o' = w.put id o' := by
  simp only [put, List.map_map]
  congr 1
  refine List.map_congr_left fun x _ => ?_
  by_cases hx : x.1 = id
  · simp [hx]
  · simp [hx]

/-- A reset without cleanups takes away what is shown, and does nothing else. -/
theorem reset_of_bare {p : Pinnable} (hp : w.find? id = some (.pinnable p))
    (hbare : p.cleanups = []) :
    w.reset id = (.ok .done, w.put id (.pinnable { p with view := .nothing, cleanups := [] })) := by
  simp only [reset, hp, hbare, run_nil, put_put]

end World

/-- After every history that does not abort the program, if just one action fails when an object is
reset, dropped or allocated anew or when its target chain is carried out, the command ends with that
failure. In each chain that is being carried out then, the entries before the one whose turn it is
have been carried out, and those behind it are dropped in their order, each once; where one of them
gives up a last reference, that chain is carried out as usual. No entry is lost, no shared chain
whose last reference was given up is left, references are counted right, and the object or its
target chain is empty. A pinnable slice goes on showing what it showed, until one more reset, which
carries out nothing. -/
theorem World.failure_contained {history : List Command} {c : Command} {id : String} {o : Object}
    (hab : (steps {} history).isAborted = false)
    (hc : c = .reset id ∨ c = .drop id ∨ c = .allocate id ∨ c = .flush id)
    (ho : (steps {} history).find? id = some o)
    (hone : ((steps {} history).step c).2.log.failures = (steps {} history).log.failures + 1) :
    let w := steps {} history
    let w' := (w.step c).2
    let start := w.outset id o c
    ∃ label frames events,
      (w.step c).1 = .error (.cleanup label) ∧ w'.isAborted = false ∧ w'.log = w.log ++ events ∧
      Cascade.Unwinds ((w.givenUp o c).freed start.heap).2 ((w.givenUp o c).freed start.heap).1
        label frames events w'.heap ∧
      (∀ f ∈ frames, events.filter (fun ev => decide (ev.entry ∈ f.chain)) = f.events) ∧
      w.Accounts w' start.heap events ∧
      w'.objects = start.objects ∧
      (c = .reset id ∨ c = .allocate id → w'.find? id = some o.emptied) ∧
      (c = .flush id → w'.target? id = some []) ∧
      ∀ p, c = .reset id → o = .pinnable p → w'.step (.reset id) =
        (.ok .done, w'.put id (.pinnable { p with view := .nothing, cleanups := [] })) := by
  intro w w' start
  obtain ⟨hobjects, hreleases, habort, label, frames, events, hreply, hlog, hunwinds⟩ :=
    unwinds_of_step hc ho hone
  have hab' : w'.isAborted = false := habort.trans hab
  have b := books_steps history hab
  have b' := b.moves (w.moves_step c) hab'
  have hmade : w.registration? c = none := by
    rcases hc with rfl | rfl | rfl | rfl <;> rfl
  rw [hmade, Option.toList_none, List.map_nil, List.append_nil] at b'
  have haccounts : w.Accounts w' start.heap events := b.accounts b' hlog hreleases
  have hfind : c = .reset id ∨ c = .allocate id → w'.find? id = some o.emptied := by
    intro hempty
    have hput : (w.put id o.emptied).find? id = some o.emptied := find?_put_self ho _
    rw [find?, hobjects]
    rcases hempty with rfl | rfl <;> exact hput
  have htarget : c = .flush id → w'.target? id = some [] := by
    rintro rfl
    cases ht : w.target? id with
    | none => simp [step, flush, ht, refused, w] at hone
    | some es => exact haccounts.target?_of_emptied b ht hobjects hreleases
  refine ⟨label, frames, events, hreply, hab', hlog, hunwinds, fun f hf => ?_, haccounts, hobjects,
    hfind, htarget, ?_⟩
  · have honce := haccounts.once
    rw [hlog, List.map_append] at honce
    exact hunwinds.filter_log honce.of_append_right hf
  · rintro p rfl rfl
    exact reset_of_bare (p := { p with cleanups := [] }) (hfind (Or.inl rfl)) rfl

/-- The action that fails belongs to a chain that is part of an entry of a pinnable slice. Of the
entries behind that one, the first gives up the last reference to a shared chain. -/
theorem World.failure_contained_nested :
    let s : Slice := ⟨[1, 2]⟩
    let history : List Command := [.createHandle "h" true, .register "h" { label := "shared" },
      .createChain "n", .register "n" { label := "first" },
      .register "n" { label := "failed", fails := true }, .register "n" { label := "late" },
      .createPinnable "p", .pinSlice "p" s { label := "own" }, .nest "n" "p", .moveInto "h" "p",
      .register "p" { label := "last" }]
    let chain : Chain := [⟨4, .perform { label := "own" }⟩, ⟨5, .giveUp (some 1)⟩,
      ⟨6, .giveUp (some 0)⟩, ⟨7, .perform { label := "last" }⟩]
    let w := steps {} history
    let w' := (w.step (.reset "p")).2
    w.isAborted = false ∧ w.find? "p" = some (.pinnable { view := .foreign s, cleanups := chain }) ∧
      w'.log.failures = w.log.failures + 1 ∧
      (w.step (.reset "p")).1 = .error (.cleanup "failed") ∧
      w'.log.textsFrom w.log.length = ["own", "first", "failed", "!late", "shared", "!last"] ∧
      (∃ frames events, Cascade.Unwinds w.heap chain "failed" frames events w'.heap ∧
        w.Accounts w' w.heap events) ∧
      w'.heap = ⟨[none, none]⟩ ∧ w'.find? "p" = some (.pinnable { view := .foreign s }) ∧
      w'.step (.reset "p") = (.ok .done, w'.put "p" (.pinnable {})) := by
  intro s history chain w w'
  have hab : w.isAborted = false := by
    simp only [w, history, s]
    decide +kernel
  have hfind : w.find? "p" = some (.pinnable { view := .foreign s, cleanups := chain }) := by
    simp only [w, history, s, chain]
    decide +kernel
  have hone : w'.log.failures = w.log.failures + 1 := by
    simp only [w', w, history, s]
    decide +kernel
  have hreply : (w.step (.reset "p")).1 = .error (.cleanup "failed") := by
    simp only [w, history, s]
    decide +kernel
  have htexts : w'.log.textsFrom w.log.length =
      ["own", "first", "failed", "!late", "shared", "!last"] := by
    simp only [w', w, history, s]
    decide +kernel
  have hheap : w'.heap = ⟨[none, none]⟩ := by
    simp only [w', w, history, s]
    decide +kernel
  dsimp only [w', w] at hab hfind hone hreply htexts hheap ⊢
  obtain ⟨label, frames, events, hfault, _, _, hunwinds, _, haccounts, _, hleft, _, hagain⟩ :=
    failure_contained hab (Or.inl rfl) hfind hone
  rw [hreply] at hfault
  cases hfault
  replace hleft := hleft (Or.inl rfl)
  replace hagain := hagain _ rfl rfl
  exact ⟨hab, hfind, hone, hreply, htexts, ⟨frames, events, hunwinds, haccounts⟩, hheap, hleft,
    hagain⟩

/-- A handle keeps its reference when the chain that it refers to is carried out, also if an action
fails. -/
example :
    let w := World.steps {} [.createHandle "h" true,
      .register "h" { label := "failed", fails := true }, .register "h" { label := "late" }]
    let next := w.step (.flush "h")
    next.1 = .error (.cleanup "failed") ∧ next.2.log.texts = ["failed", "!late"] ∧
      next.2.heap = ⟨[some ⟨1, []⟩]⟩ ∧ next.2.find? "h" = some (.handle (some 0)) := by
  decide +kernel

end Lifespan.Cleanup
