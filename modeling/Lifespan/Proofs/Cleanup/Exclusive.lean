import Lifespan.Proofs.Cleanup.Spent

/-!
# Shared chains are frozen

Entries are added to a shared chain, or moved to it or away from it, only through a handle that is
the one reference to it. So as long as anything else refers to a shared chain, be it a handle or an
entry that waits in whichever chain, its entries stay as they are, until the chain is taken out of
the heap.
-/
namespace Lifespan.Cleanup

/-! ## Heaps in which entries stay -/

namespace Heap

variable {h h' h'' : Heap} {c : CellId} {s : Shared}

theorem lt_length_of_get? (hs : h.get? c = some s) : c < h.cells.length :=
  (List.getElem?_eq_some_iff.mp (Option.join_eq_some_iff.mp hs)).1

/-- Of the shared chains of one heap, those that are left in another have the entries that they had.
-/
structure Keeps (h h' : Heap) : Prop where
  length_le : h.cells.length ≤ h'.cells.length
  /-- What is left has not changed, but for its number of references. -/
  chain : ∀ c < h.cells.length, ∀ s', h'.get? c = some s' →
    ∃ s, h.get? c = some s ∧ s.chain = s'.chain

theorem Keeps.refl (h : Heap) : h.Keeps h := ⟨Nat.le_refl _, fun _ _ s' hs' => ⟨s', hs', rfl⟩⟩

theorem Keeps.trans (hk : h.Keeps h') (hk' : h'.Keeps h'') : h.Keeps h'' where
  length_le := Nat.le_trans hk.length_le hk'.length_le
  chain c hlt s'' hs'' := by
    obtain ⟨s', hs', hchain'⟩ := hk'.chain c (Nat.lt_of_lt_of_le hlt hk.length_le) s'' hs''
    obtain ⟨s, hs, hchain⟩ := hk.chain c hlt s' hs'
    exact ⟨s, hs, hchain.trans hchain'⟩

/-- What is in both heaps has the same entries in both. -/
theorem Keeps.chain_eq {s' : Shared} (hk : h.Keeps h') (hs : h.get? c = some s)
    (hs' : h'.get? c = some s') : s'.chain = s.chain := by
  obtain ⟨t, ht, hchain⟩ := hk.chain c (lt_length_of_get? hs) s' hs'
  rw [hs] at ht
  cases ht
  exact hchain.symm

theorem Releases.keeps (hr : h.Releases h') : h.Keeps h' :=
  ⟨hr.before.length_le, fun _ _ _ hs' => hr.chain hs'⟩

theorem keeps_allocate (h : Heap) (chain : Chain) : h.Keeps (h.allocate chain).2 where
  length_le := (h.before_allocate chain).length_le
  chain c hlt s' hs' := by
    rw [get?_allocate, if_neg (Nat.ne_of_lt hlt)] at hs'
    exact ⟨s', hs', rfl⟩

theorem keeps_retain (h : Heap) (handle : Handle) (n : Nat) : h.Keeps (h.retain handle n) where
  length_le := (h.before_retain handle n).length_le
  chain c _ s' hs' := by
    simp only [retain] at hs'
    split at hs'
    · exact ⟨s', hs', rfl⟩
    · split at hs'
      · exact ⟨s', hs', rfl⟩
      · next d _ t ht =>
        rw [get?_set ht] at hs'
        split at hs'
        · next hdc =>
          cases hs'
          exact ⟨t, hdc ▸ ht, rfl⟩
        · exact ⟨s', hs', rfl⟩

/-- A handle is exclusive just when the count of its chain is one. -/
theorem isSome_exclusive?_iff (h : Heap) (c : CellId) :
    (h.exclusive? (some c)).isSome ↔ h.refCount (some c) = 1 := by
  cases hs : h.get? c with
  | none => simp [exclusive?, hs, refCount_of_none hs]
  | some s =>
      rw [refCount_of_get? hs]
      by_cases hrefs : s.refs = 1 <;> simp [exclusive?, hs, hrefs]

end Heap

/-! ## Changes of lists -/

namespace Edit

variable {l : Site → Chain} {s : Site} {edit : Edit} {edits : List Edit}

/-- The places whose lists change. -/
def sites : Edit → List Site
  | append s _ => [s]
  | delegate s t => [s, t]

theorem apply_of_not_mem (h : s ∉ edit.sites) : apply l edit s = l s := by
  cases edit with
  | append t e => exact Function.update_of_ne (by simpa [sites] using h) ..
  | delegate source target =>
      have hne : s ≠ source ∧ s ≠ target := by simpa [sites] using h
      rw [apply, Function.update_of_ne hne.1, Function.update_of_ne hne.2]

theorem applyAll_of_not_mem (h : ∀ edit ∈ edits, s ∉ edit.sites) : applyAll l edits s = l s := by
  induction edits generalizing l with
  | nil => rfl
  | cons edit rest ih =>
      rw [applyAll, List.foldl_cons]
      refine (ih fun edit' hmem => h edit' (List.mem_cons_of_mem _ hmem)).trans ?_
      exact apply_of_not_mem (h edit List.mem_cons_self)

end Edit

/-- The name of the object at which a command adds an entry, if it adds one. -/
def Command.receiver? : Command → Option String
  | .register id _ | .record id _ | .pinSlice id _ _ => some id
  | .registerCopy _ target | .moveInto _ target | .nest _ target => some target
  | _ => none

/-- At every moment, exclusive access to a shared chain can be had just when it has one reference:
one handle, or one entry that waits somewhere or is due. -/
theorem Moment.Books.isSome_exclusive? {m : Moment} {issued : List Entry} (b : m.Books issued)
    (c : CellId) : (m.cascade.heap.exclusive? (some c)).isSome ↔
      m.handles c + m.pending.countP (Entry.owns c) = 1 := by
  rw [Heap.isSome_exclusive?_iff, b.counted]

namespace World

variable {w w' : World} {id target : String} {o : Object} {c : CellId} {command : Command}
  {issued : List Entry} {edit : Edit} {s : Shared}

/-! ## References -/

/-- The number of references to a shared chain: handles, and entries that wait anywhere, also those
of objects that are parts of entries. -/
def references (w : World) (c : CellId) : Nat :=
  w.held.count (.handle (some c)) + w.pending.countP (Entry.owns c)

/-- Nothing but the handle with a name refers to a shared chain: no other handle, and no entry that
waits anywhere. -/
structure IsSole (w : World) (id : String) (c : CellId) : Prop where
  handle : ∀ id', w.find? id' = some (.handle (some c)) → id' = id
  entry : ∀ e ∈ w.pending, ¬ e.owns c

theorem Books.refCount_eq (b : w.Books [] issued) (c : CellId) :
    w.heap.refCount (some c) = w.references c := by
  have h := b.ledger.counted c
  rw [List.nil_append] at h
  rw [h, references, pending, List.countP_append]
  omega

/-- An object has the name that it is kept under. -/
theorem find?_of_mem (hn : w.names.Nodup) (h : (id, o) ∈ w.objects) : w.find? id = some o := by
  obtain ⟨before, after, heq⟩ := List.append_of_mem h
  refine List.lookup_eq_some_iff.mpr ⟨before, after, heq, fun x hx => ?_⟩
  have hdisjoint := hn
  rw [names, heq, List.map_append, List.map_cons] at hdisjoint
  have hne := (List.nodup_append.mp hdisjoint).2.2 x.1 (List.mem_map_of_mem hx) id
    List.mem_cons_self
  simpa using Ne.symm hne

/-- There is one reference to the chain of a handle just when nothing else refers to it. -/
theorem Books.references_eq_one_iff (b : w.Books [] issued)
    (ho : w.find? id = some (.handle (some c))) : w.references c = 1 ↔ w.IsSole id c := by
  have hcount := (perm_erase b.names ho).count_eq (.handle (some c))
  rw [List.count_cons_self] at hcount
  have hothers : (w.erase id).held.count (.handle (some c)) = 0 ↔
      ∀ id', w.find? id' = some (.handle (some c)) → id' = id := by
    rw [List.count_eq_zero]
    constructor
    · intro hnone id' ho'
      by_contra hne
      exact hnone (mem_held_of_find? ((find?_erase_ne w hne).trans ho'))
    · intro honly hmem
      obtain ⟨⟨id', o'⟩, hx, rfl⟩ := List.mem_map.mp hmem
      obtain ⟨hx, hne⟩ := List.mem_filter.mp hx
      exact of_decide_eq_true hne (honly id' (find?_of_mem b.names hx))
  have hentries : w.pending.countP (Entry.owns c) = 0 ↔ ∀ e ∈ w.pending, ¬ e.owns c :=
    List.countP_eq_zero
  constructor
  · intro hone
    rw [references] at hone
    exact ⟨hothers.mp (by omega), hentries.mp (by omega)⟩
  · intro hsole
    have := hothers.mpr hsole.handle
    have := hentries.mpr hsole.entry
    rw [references]
    omega

/-! ## What commands do to shared chains -/

/-- Where the entries of a target chain wait, if the chain is shared. -/
theorem refs_of_target? (hopen : (w.target? id).isSome) (hsite : w.site? id = some (.shared c)) :
    w.heap.refCount (some c) = 1 := by
  obtain ⟨o, ho, hsite⟩ := Option.bind_eq_some_iff.mp hsite
  rw [target?_of_find? ho] at hopen
  cases o with
  | chain entries => cases hsite
  | pinnable p => cases hsite
  | handle h =>
      obtain ⟨d, rfl, heq⟩ := Option.map_eq_some_iff.mp hsite
      cases heq
      exact (Heap.isSome_exclusive?_iff w.heap c).mp hopen

/-- The object at which a command adds its entry has a target chain. -/
theorem isSome_target?_of_registration {e : Entry} {r : String}
    (h : w.registration? command = some ⟨e, true⟩) (hr : command.receiver? = some r) :
    (w.target? r).isSome := by
  cases command with
  | register id a =>
      cases hr
      obtain ⟨o, ho, heq⟩ := Option.map_eq_some_iff.mp h
      rw [target?_of_find? ho, ← Object.isOpen_eq]
      exact congrArg Registration.isAccepted heq
  | pinSlice id s a =>
      cases hr
      simp only [registration?] at h
      split at h
      · next ho => rw [target?_of_find? ho]; rfl
      · contradiction
  | record id label =>
      cases hr
      simp only [registration?] at h
      split at h
      · assumption
      · contradiction
  | nest id target | registerCopy id target | moveInto id target =>
      cases hr
      simp only [registration?] at h
      split at h
      · next hopen => exact hopen.2
      · contradiction
  | _ => contradiction

theorem refCount_of_mem_additions {r : String} (hr : command.receiver? = some r)
    (hedit : edit ∈ w.additions command r) (hsite : .shared c ∈ edit.sites) :
    w.heap.refCount (some c) = 1 := by
  simp only [additions] at hedit
  split at hedit
  · next hregistration hs =>
    rw [List.mem_singleton.mp hedit, Edit.sites, List.mem_singleton] at hsite
    exact refs_of_target? (isSome_target?_of_registration hregistration hr) (hsite ▸ hs)
  · contradiction

theorem refCount_of_mem_transfers (hedit : edit ∈ w.transfers id target)
    (hsite : .shared c ∈ edit.sites) : w.heap.refCount (some c) = 1 := by
  simp only [transfers] at hedit
  split at hedit
  · next hopen =>
    split at hedit
    · next hs ht =>
      rw [List.mem_singleton.mp hedit, Edit.sites, List.mem_pair] at hsite
      rcases hsite with rfl | rfl
      · exact refs_of_target? hopen.2.1 hs
      · exact refs_of_target? hopen.2.2 ht
    · contradiction
  · contradiction

/-- What a command does to lists concerns a shared chain just if that has one reference, or is new.
-/
theorem refCount_of_mem_edits (hlt : c < w.heap.cells.length) (hedit : edit ∈ w.edits command)
    (hsite : .shared c ∈ edit.sites) : w.heap.refCount (some c) = 1 := by
  cases command with
  | register | record | pinSlice | registerCopy | moveInto =>
      exact refCount_of_mem_additions rfl hedit hsite
  | delegate => exact refCount_of_mem_transfers hedit hsite
  | nest id target =>
      simp only [edits] at hedit
      split at hedit
      · rcases List.mem_cons.mp hedit with rfl | hedit
        · simp only [Edit.sites, List.mem_pair, reduceCtorEq, Site.shared.injEq, false_or] at hsite
          exact absurd hsite (Nat.ne_of_lt hlt)
        · exact refCount_of_mem_additions rfl hedit hsite
      · contradiction
  | pinSliceFrom id s source =>
      simp only [edits] at hedit
      split at hedit
      · split at hedit
        · contradiction
        · exact refCount_of_mem_transfers hedit hsite
      · contradiction
  | rename id new =>
      simp only [edits] at hedit
      split at hedit
      · rw [List.mem_singleton.mp hedit] at hsite
        simp [Edit.sites] at hsite
      · contradiction
  | _ => contradiction

/-- Giving up objects leaves the entries of all shared chains as they are that it does not take out.
-/
theorem keeps_giveUp (w : World) (o : Object) : w.heap.Keeps (w.giveUp o).2.heap :=
  (w.releases_giveUp o).keeps

theorem keeps_releaseTimes (w : World) (h : Handle) (n : Nat) :
    w.heap.Keeps (w.releaseTimes h n).heap := by
  induction n generalizing w with
  | zero => exact .refl _
  | succ n ih => exact (w.keeps_giveUp (.handle h)).trans (ih _)

theorem keeps_reset (w : World) (id : String) : w.heap.Keeps (w.reset id).2.heap := by
  cases ho : w.find? id with
  | none =>
      rw [reset, ho]
      exact .refl _
  | some o =>
      obtain ⟨o', _, heq⟩ := exists_reset ho
      rw [heq]
      exact keeps_giveUp (w.put id o') o

theorem keeps_drop (w : World) (id : String) : w.heap.Keeps (w.drop id).2.heap := by
  rw [drop]
  split
  · exact .refl _
  · next o _ => exact keeps_giveUp (w.erase id) o

theorem keeps_allocate (w : World) (id : String) : w.heap.Keeps (w.allocate id).2.heap := by
  rw [allocate]
  split
  · next h _ =>
    have hkeeps := keeps_giveUp (w.put id (.handle none)) (.handle h)
    rw [giveUp] at hkeeps
    split
    · next heq =>
      rw [heq] at hkeeps
      exact hkeeps.trans (Heap.keeps_allocate _ _)
    · next heq =>
      rw [heq] at hkeeps
      exact hkeeps
  · exact .refl _

theorem keeps_releaseOnPool (w : World) (id : String) (copies workers : Nat) :
    w.heap.Keeps (w.releaseOnPool id copies workers).2.heap := by
  rw [releaseOnPool]
  split
  · next h _ =>
    split
    · exact .refl _
    · let w' : World := { w with heap := w.heap.retain h copies }
      have hkeeps := (w.heap.keeps_retain h copies).trans ((w'.keeps_releaseTimes h copies).trans
        (keeps_giveUp ((w'.releaseTimes h copies).put id (.handle none)) (.handle h)))
      rw [giveUp] at hkeeps
      dsimp only
      split
      · next heq =>
        rw [heq] at hkeeps
        exact hkeeps
      · next heq =>
        rw [heq] at hkeeps
        exact hkeeps
  · exact .refl _

/-- A shared chain with more than one reference is nobody's target chain. -/
theorem get?_setTarget_of_shared {es : Chain} (ht : w.target? id = some es)
    (hs : w.heap.get? c = some s) (hshared : s.refs ≠ 1) (es' : Chain) :
    (w.setTarget id es').heap.get? c = some s := by
  obtain ⟨o, ho, hopen⟩ := Option.bind_eq_some_iff.mp ht
  simp only [setTarget, ho]
  cases o with
  | chain entries => exact hs
  | pinnable p => exact hs
  | handle h =>
      obtain ⟨d, t, rfl, hd, hrefs, -⟩ := Heap.exclusive?_eq_some_iff.mp hopen
      have hdc : d ≠ c := by
        rintro rfl
        rw [hs] at hd
        cases hd
        exact hshared hrefs
      dsimp only
      rw [Heap.setChain_eq hd, Heap.get?_set_of_ne _ hdc, hs]

/-- A command that gives up objects leaves the entries of a shared chain with more than one
reference as they are if it does not take the chain out, also if an action fails in the course of
it. -/
theorem chain_eq_of_givesUp {s' : Shared} (hc : command.givesUp = true)
    (hs : w.heap.get? c = some s) (hshared : s.refs ≠ 1)
    (hs' : (w.step command).2.heap.get? c = some s') : s'.chain = s.chain := by
  cases command with
  | reset id => exact (w.keeps_reset id).chain_eq hs hs'
  | flush id =>
      simp only [step, flush] at hs'
      split at hs'
      · exact (Heap.Keeps.refl _).chain_eq hs hs'
      · next es ht =>
        have hkeeps := keeps_giveUp (w.setTarget id []) (.chain es)
        exact hkeeps.chain_eq (get?_setTarget_of_shared ht hs hshared []) hs'
  | drop id => exact (w.keeps_drop id).chain_eq hs hs'
  | allocate id => exact (w.keeps_allocate id).chain_eq hs hs'
  | releaseOnPool id copies workers =>
      exact (w.keeps_releaseOnPool id copies workers).chain_eq hs hs'
  | _ => contradiction

/-- A command leaves the entries of a shared chain as they are, if it has more than one reference
before the command and has not been taken out after it. -/
theorem Books.chain_eq_of_step {s' : Shared} (b : w.Books [] issued)
    (hs : w.heap.get? c = some s) (hshared : s.refs ≠ 1)
    (hs' : (w.step command).2.heap.get? c = some s') : s'.chain = s.chain := by
  have hlt := Heap.lt_length_of_get? hs
  cases hc : command.givesUp with
  | true => exact chain_eq_of_givesUp hc hs hshared hs'
  | false =>
      have hsame : (w.step command).2.chainAt (.shared c) = w.chainAt (.shared c) := by
        rw [World.chainAt_step b hc]
        refine Edit.applyAll_of_not_mem fun edit hedit hsite => ?_
        have hone := refCount_of_mem_edits hlt hedit hsite
        rw [Heap.refCount_of_get? hs] at hone
        exact hshared hone
      rwa [chainAt, hs', chainAt, hs] at hsame

theorem keeps_lentLaunches {m : Moment} (h : Handle) {n : Nat} (hm : m ∈ w.lentLaunches h n) :
    w.heap.Keeps m.cascade.heap := by
  induction n generalizing w with
  | zero => contradiction
  | succ n ih =>
      rcases List.mem_cons.mp hm with rfl | hm
      · exact .refl _
      · exact (w.keeps_giveUp (.handle h)).trans (ih hm)

/-- When a command is about to give something up, the entries of a shared chain with more than one
reference have stayed. -/
theorem chain_eq_of_launches {m : Moment} {s' : Shared} (hm : m ∈ w.launches command)
    (hs : w.heap.get? c = some s) (hshared : s.refs ≠ 1) (hs' : m.shared? c = some s') :
    s'.chain = s.chain := by
  cases command with
  | reset id | drop id | allocate id =>
      simp only [launches] at hm
      split at hm
      · rw [List.mem_singleton.mp hm] at hs'
        exact (Heap.Keeps.refl w.heap).chain_eq hs hs'
      · contradiction
  | flush id =>
      simp only [launches] at hm
      split at hm
      · next es ht =>
        have hkept := get?_setTarget_of_shared ht hs hshared []
        rw [List.mem_singleton.mp hm] at hs'
        exact (Heap.Keeps.refl (w.setTarget id []).heap).chain_eq hkept hs'
      · contradiction
  | releaseOnPool id copies workers =>
      simp only [launches] at hm
      split at hm
      · next h _ =>
        split at hm
        · contradiction
        · let w₁ : World := { w with heap := w.heap.retain h copies }
          have h₁ : w.heap.Keeps w₁.heap := Heap.keeps_retain _ _ _
          have hkeeps : w.heap.Keeps m.cascade.heap := by
            rcases List.mem_append.mp hm with hm | hm
            · exact h₁.trans (keeps_lentLaunches h hm)
            · rw [List.mem_singleton.mp hm]
              exact h₁.trans (w₁.keeps_releaseTimes h copies)
          exact hkeeps.chain_eq hs hs'
      · contradiction
  | _ => contradiction

/-- A handle that has no target chain does not take an entry. The entry is dropped, and nothing else
changes. -/
theorem step_register_of_handle {h : Handle} (ho : w.find? id = some (.handle h))
    (hclosed : w.target? id = none) (a : Action) :
    w.step (.register id a) = (.ok (.accepted false), { w with
      nextTicket := w.nextTicket + 1
      log := w.log ++ [⟨⟨w.nextTicket, .perform a⟩, .dropped⟩] }) := by
  rw [target?_of_find? ho] at hclosed
  simp only [step, register, ho, hclosed]
  rfl

end World

/-- At no moment of a command the entries of a shared chain differ from those before the command, if
it has more than one reference then. -/
theorem Moment.Reached.chain_eq {history : List Command} {command : Command} {m : Moment}
    {c : CellId} {s s' : Shared} (h : m.Reached (history ++ [command]))
    (hs : (World.steps {} history).heap.get? c = some s) (hshared : s.refs ≠ 1)
    (hs' : m.shared? c = some s') : s'.chain = s.chain := by
  generalize hall : history ++ [command] = all at h
  induction h generalizing s' with
  | rest hab =>
      rw [← hall, World.steps_append] at hab
      rw [← hall, World.steps_append] at hs'
      have hbefore := (World.steps {} history).before_step command
      have b := World.books_steps history (hbefore.isAborted hab)
      exact b.chain_eq_of_step hs hshared hs'
  | @launch history' command' _ hm _ =>
      obtain ⟨rfl, _⟩ := List.append_inj' hall rfl
      exact World.chain_eq_of_launches hm hs hshared hs'
  | @next _ m _ _ ih =>
      rw [shared?, heap_next] at hs'
      obtain ⟨t, ht, hchain⟩ := Heap.chain_of_release hs'
      exact hchain ▸ ih ht hall

/-- After every history that has not been aborted, a shared chain can be changed through a handle
just if nothing but the handle refers to the chain, no other handle and no entry that waits
anywhere; while a command is carried out, just if there is one reference to it at that moment. As
long as there are more, no command changes the entries of the chain, at no moment of it and not
afterwards, unless it takes the chain out of the heap; and an entry that is to be added through one
of the handles is turned down and dropped, which changes nothing else. -/
theorem World.frozen_while_shared (history : List Command)
    (hab : (steps {} history).isAborted = false) :
    let w := steps {} history
    (∀ m, Moment.Reached history m → ∀ c, (m.cascade.heap.exclusive? (some c)).isSome ↔
      m.handles c + m.pending.countP (Entry.owns c) = 1) ∧
    (∀ id h, w.find? id = some (.handle h) → ∀ es, w.target? id = some es ↔
      ∃ c s, h = some c ∧ w.IsSole id c ∧ w.heap.get? c = some s ∧ s.chain = es) ∧
    ∀ c s, w.heap.get? c = some s →
      s.refs = w.references c ∧
      (2 ≤ w.references c →
        (∀ command s', (w.step command).2.heap.get? c = some s' → s'.chain = s.chain) ∧
        (∀ command m s', Moment.Reached (history ++ [command]) m → m.shared? c = some s' →
          s'.chain = s.chain) ∧
        ∀ id a, w.find? id = some (.handle (some c)) → w.target? id = none ∧
          w.step (.register id a) = (.ok (.accepted false), { w with
            nextTicket := w.nextTicket + 1
            log := w.log ++ [⟨⟨w.nextTicket, .perform a⟩, .dropped⟩] })) := by
  intro w
  have b := books_steps history hab
  refine ⟨?_, ?_, ?_⟩
  · intro m hm c
    obtain ⟨_, _, bm⟩ := hm.books
    exact bm.isSome_exclusive? c
  · intro id h ho es
    rw [target?_of_find? ho, Object.target?, Heap.exclusive?_eq_some_iff]
    constructor
    · rintro ⟨c, s, rfl, hs, hrefs, hes⟩
      rw [← Heap.refCount_of_get? hs, b.refCount_eq] at hrefs
      exact ⟨c, s, rfl, (b.references_eq_one_iff ho).mp hrefs, hs, hes⟩
    · rintro ⟨c, s, rfl, hsole, hs, hes⟩
      refine ⟨c, s, rfl, hs, ?_, hes⟩
      rw [← Heap.refCount_of_get? hs, b.refCount_eq]
      exact (b.references_eq_one_iff ho).mpr hsole
  · intro c s hs
    have hrefs : s.refs = w.references c := by rw [← b.refCount_eq, Heap.refCount_of_get? hs]
    refine ⟨hrefs, fun hmore => ?_⟩
    have hshared : s.refs ≠ 1 := by omega
    refine ⟨fun command s' hs' => b.chain_eq_of_step hs hshared hs',
      fun command m s' hm hs' => hm.chain_eq hs hshared hs', fun id a ho => ?_⟩
    have hclosed : w.target? id = none := by
      rw [← Option.not_isSome_iff_eq_none, target?_of_find? ho, Object.target?,
        Heap.isSome_exclusive?_iff, Heap.refCount_of_get? hs]
      exact hshared
    exact ⟨hclosed, step_register_of_handle ho hclosed a⟩

/-- The other reference to a shared chain is owned by an entry of a chain that is part of an entry
of another one. When that is carried out the reference is given up, and the chain can be changed
again. -/
theorem World.frozen_while_shared_nested :
    let history : List Command := [.createHandle "h" true, .register "h" { label := "shared" },
      .createChain "n", .registerCopy "h" "n", .createChain "a", .nest "n" "a"]
    let w := steps {} history
    let chain : Chain := [⟨0, .perform { label := "shared" }⟩]
    w.isAborted = false ∧ w.references 0 = 2 ∧ w.target? "h" = none ∧
      w.step (.register "h" { label := "late" }) = (.ok (.accepted false), { w with
        nextTicket := w.nextTicket + 1
        log := w.log ++ [⟨⟨w.nextTicket, .perform { label := "late" }⟩, .dropped⟩] }) ∧
      (∃ s, (w.step (.reset "a")).2.heap.get? 0 = some s ∧ s.chain = chain) ∧
      (steps {} (history ++ [.reset "a"])).IsSole "h" 0 ∧
      (steps {} (history ++ [.reset "a"])).target? "h" = some chain := by
  intro history w chain
  have hab : w.isAborted = false := by
    simp only [w, history]
    decide +kernel
  have hs : w.heap.get? 0 = some ⟨2, chain⟩ := by
    simp only [w, history, chain]
    decide +kernel
  have ho : w.find? "h" = some (.handle (some 0)) := by
    simp only [w, history]
    decide +kernel
  obtain ⟨_, _, hshared⟩ := frozen_while_shared history hab
  obtain ⟨hrefs, hfrozen⟩ := hshared 0 _ hs
  obtain ⟨hkept, _, hrefused⟩ := hfrozen (Nat.le_of_eq hrefs)
  obtain ⟨hclosed, hregister⟩ := hrefused "h" { label := "late" } ho
  have hleft : ∃ s, (w.step (.reset "a")).2.heap.get? 0 = some s := by
    refine ⟨⟨1, chain⟩, ?_⟩
    simp only [w, history, chain]
    decide +kernel
  obtain ⟨s, hleft⟩ := hleft
  have hab' : (steps {} (history ++ [.reset "a"])).isAborted = false := by
    simp only [history]
    decide +kernel
  have ho' : (steps {} (history ++ [.reset "a"])).find? "h" = some (.handle (some 0)) := by
    simp only [history]
    decide +kernel
  have htarget : (steps {} (history ++ [.reset "a"])).target? "h" = some chain := by
    simp only [history, chain]
    decide +kernel
  obtain ⟨_, haccess, _⟩ := frozen_while_shared (history ++ [.reset "a"]) hab'
  obtain ⟨_, _, heq, hsole, _⟩ := (haccess "h" _ ho' chain).mp htarget
  cases heq
  exact ⟨hab, hrefs.symm, hclosed, hregister, ⟨s, hleft, hkept _ s hleft⟩, hsole, htarget⟩

end Lifespan.Cleanup
