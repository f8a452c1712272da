import Lifespan.Proofs.Cleanup.Lists

/-!
# Lists that have been carried out

A command that gives up objects leaves each list of entries as it is, or carries out all of it. So
what waits in a list at any time is what has been put there and has not ended.
-/
namespace Lifespan.Cleanup

/-- Whether an entry has not ended. -/
def Log.awaits (l : Log) (e : Entry) : Bool := decide (e ∉ l.map Event.entry)

namespace World

variable {w w' w'' : World} {id source target : String} {o : Object} {c : Command}
  {es moved : Chain} {issued issued' : List Entry} {events : Log} {e : Entry}

/-! ## Lists that have been carried out -/

/-- Each list is as it was, or all of its entries have ended. -/
def Spent (w w' : World) : Prop :=
  ∀ s, w'.chainAt s = w.chainAt s ∨
    w'.chainAt s = [] ∧ ∀ e ∈ w.chainAt s, e ∈ w'.log.map Event.entry

theorem spent_of_eq (h : w'.chainAt = w.chainAt) : w.Spent w' := fun s => Or.inl (congrFun h s)

theorem Spent.congr (h : w.Spent w') (hchain : w''.chainAt = w'.chainAt) (hlog : w''.log = w'.log) :
    w.Spent w'' := by
  intro s
  rw [hchain, hlog]
  exact h s

theorem Spent.trans (h : w.Spent w') (h' : w'.Spent w'') (hbefore : w'.Before w'') :
    w.Spent w'' := by
  have hlog {e : Entry} (he : e ∈ w'.log.map Event.entry) : e ∈ w''.log.map Event.entry :=
    (hbefore.log.map _).subset he
  intro s
  rcases h' s with heq' | ⟨hempty', hended'⟩
  · rw [heq']
    refine (h s).imp_right fun ⟨hempty, hended⟩ => ?_
    exact ⟨hempty, fun e he => hlog (hended e he)⟩
  · refine Or.inr ⟨hempty', ?_⟩
    rcases h s with heq | ⟨_, hended⟩
    · rwa [← heq]
    · exact fun e he => hlog (hended e he)

/-- What is in a shared chain ends when the chain is taken out of the heap. -/
theorem mem_log_of_gone {heap h : Heap} {d : CellId} {s : Shared} (hs : heap.get? d = some s)
    (hends : Cascade.Ends .ran (o.freed heap).2 (o.freed heap).1 events h)
    (hgone : h.get? d = none) (he : e ∈ s.chain) : e ∈ events.map Event.entry := by
  have hinside {t : Shared} (ht : (o.freed heap).2.get? d = some t) (he : e ∈ t.chain) :
      e ∈ events.map Event.entry := by
    obtain ⟨inner, _, _, hpart, hinner⟩ := hends.exists_block ht hgone
    exact (hpart.map _).subset (hinner.mem_log he)
  cases o with
  | chain entries => exact hinside hs he
  | pinnable p => exact hinside hs he
  | handle r =>
      cases hfreed : (heap.release r).2.get? d with
      | none =>
          obtain ⟨rfl, hlast⟩ := (Heap.get?_release_eq_none_iff hs r).mp hfreed
          refine hends.mem_log ?_
          rw [Object.freed, Heap.release_last hs hlast]
          exact he
      | some t =>
          obtain ⟨s', hs', hchain⟩ := Heap.chain_of_release hfreed
          obtain rfl := Option.some.inj (hs.symm.trans hs')
          exact hinside hfreed (hchain ▸ he)

theorem objects_giveUp (w : World) (o : Object) : (w.giveUp o).2.objects = w.objects := by
  rw [giveUp_eq_settle]

/-- Giving up an object carries out what it holds, and whole shared chains. -/
theorem spent_giveUp (hcalm : (w.giveUp o).2.log.failures = 0) : w.Spent (w.giveUp o).2 := by
  obtain ⟨events, hgiveUp, hends⟩ := ends_of_giveUp hcalm
  intro s
  cases s with
  | object id =>
      left
      simp only [chainAt, find?, objects_giveUp]
  | shared d =>
      simp only [chainAt]
      cases hleft : (w.giveUp o).2.heap.get? d with
      | some s' =>
          obtain ⟨s, hs, hchain⟩ := (w.releases_giveUp o).chain hleft
          exact Or.inl (by rw [hs]; exact hchain.symm)
      | none =>
          refine Or.inr ⟨rfl, fun e he => ?_⟩
          cases hs : w.heap.get? d with
          | none =>
              rw [hs] at he
              contradiction
          | some s =>
              rw [hs] at he
              rw [congrArg (·.2.log) hgiveUp, List.map_append]
              exact List.mem_append_right _ (mem_log_of_gone hs hends hleft he)

/-- What an object holds itself ends when the object is given up. -/
theorem mem_log_of_giveUp (hcalm : (w.giveUp o).2.log.failures = 0) (he : e ∈ o.own) :
    e ∈ (w.giveUp o).2.log.map Event.entry := by
  obtain ⟨events, hgiveUp, hends⟩ := ends_of_giveUp hcalm
  rw [congrArg (·.2.log) hgiveUp, List.map_append]
  refine List.mem_append_right _ (hends.mem_log ?_)
  cases o with
  | chain entries => exact he
  | pinnable p => exact he
  | handle h => contradiction

/-- The entries that have waited at a place are given up after they have been taken away from there.
-/
theorem spent_of_vacated {t : Site} (hheld : w.chainAt t = o.own)
    (hvacated : w'.chainAt = Function.update w.chainAt t [])
    (hcalm : (w'.giveUp o).2.log.failures = 0) : w.Spent (w'.giveUp o).2 := by
  intro s
  have hspent := spent_giveUp hcalm s
  rw [hvacated] at hspent
  by_cases hs : s = t
  · subst hs
    rw [Function.update_self] at hspent
    refine Or.inr ⟨hspent.elim (fun h => h) And.left, fun e he => mem_log_of_giveUp hcalm ?_⟩
    rwa [hheld] at he
  · rwa [Function.update_of_ne hs] at hspent

theorem spent_put_giveUp (o' : Object) (ho : w.find? id = some o) (hown : o'.own = [])
    (hcalm : ((w.put id o').giveUp o).2.log.failures = 0) :
    w.Spent ((w.put id o').giveUp o).2 :=
  spent_of_vacated (chainAt_of_find? ho) (by rw [chainAt_put ho, hown]) hcalm

/-! ## Commands that give up objects -/

/-- Giving up an object does not look at the others. -/
theorem giveUp_put (w : World) (id : String) (o o' : Object) :
    ((w.put id o').giveUp o).2 = (w.giveUp o).2.put id o' := by
  rw [giveUp_eq_settle, giveUp_eq_settle]
  rfl

/-- A reset gives up what an object holds, and leaves an object without entries. -/
theorem exists_reset (ho : w.find? id = some o) :
    ∃ o', o'.own = [] ∧ (w.reset id).2 = ((w.put id o').giveUp o).2 := by
  simp only [reset, ho]
  cases o with
  | chain entries => exact ⟨.chain [], rfl, rfl⟩
  | handle h => exact ⟨.handle none, rfl, rfl⟩
  | pinnable p =>
      let q : Pinnable := { p with cleanups := [] }
      have hrun : (w.put id (.pinnable q)).run p.cleanups =
        (w.put id (.pinnable q)).giveUp (.pinnable p) := rfl
      dsimp only
      split
      · next w' heq =>
        refine ⟨.pinnable { p with view := .nothing, cleanups := [] }, rfl, ?_⟩
        have hw' : _ = w' := congrArg Prod.snd (hrun.symm.trans heq)
        rw [giveUp_put] at hw' ⊢
        rw [← hw', put_put]
      · next w' heq => exact ⟨.pinnable q, rfl, (congrArg Prod.snd (hrun.symm.trans heq)).symm⟩

theorem spent_reset (hcalm : (w.reset id).2.log.failures = 0) : w.Spent (w.reset id).2 := by
  cases ho : w.find? id with
  | none =>
      rw [reset, ho]
      exact spent_of_eq rfl
  | some o =>
      obtain ⟨o', hown, heq⟩ := exists_reset ho
      rw [heq] at hcalm ⊢
      exact spent_put_giveUp o' ho hown hcalm

theorem spent_flush (hcalm : (w.flush id).2.log.failures = 0) : w.Spent (w.flush id).2 := by
  cases ht : w.target? id with
  | none =>
      rw [flush, ht]
      exact spent_of_eq rfl
  | some es =>
      obtain ⟨t, -, hheld, hset⟩ := exists_site (entriesAt?_of_target? ht)
      rw [flush, ht] at hcalm ⊢
      exact spent_of_vacated (o := .chain es) hheld (hset []) hcalm

theorem spent_drop (hcalm : (w.drop id).2.log.failures = 0) : w.Spent (w.drop id).2 := by
  cases ho : w.find? id with
  | none =>
      rw [drop, ho]
      exact spent_of_eq rfl
  | some o =>
      rw [drop, ho] at hcalm ⊢
      exact spent_of_vacated (chainAt_of_find? ho) (w.chainAt_erase id) hcalm

theorem spent_allocate (hcalm : (w.allocate id).2.log.failures = 0) :
    w.Spent (w.allocate id).2 := by
  rw [allocate] at hcalm ⊢
  rcases ho : w.find? id with _ | _ | h | _
  case some.handle =>
    rw [ho] at hcalm
    have hspent := spent_put_giveUp (.handle none) ho rfl
    rw [giveUp] at hspent
    dsimp only at hcalm ⊢
    split at hcalm
    · next w' heq =>
      rw [heq] at hspent
      have hfind : w'.find? id = some (.handle none) := by
        have hobjects := objects_release (w.put id (.handle none)) h
        rw [heq] at hobjects
        rw [find?, hobjects]
        exact find?_put_self ho _
      let w'' : World := { w' with heap := (w'.heap.allocate []).2 }
      have hfind' : w''.find? id = some (.handle none) := hfind
      have hput : (w''.put id (.handle (some (w'.heap.allocate []).1))).chainAt = w''.chainAt :=
        chainAt_put_of_same hfind' rfl
      have hallocate : w''.chainAt = w'.chainAt := by
        rw [chainAt_allocate, Function.update_eq_self_iff, chainAt_length]
      exact (hspent hcalm).congr (hput.trans hallocate) rfl
    · next heq =>
      rw [heq] at hspent
      exact hspent hcalm
  all_goals exact spent_of_eq rfl

theorem spent_releaseTimes (h : Handle) (n : Nat)
    (hcalm : (w.releaseTimes h n).log.failures = 0) : w.Spent (w.releaseTimes h n) := by
  induction n generalizing w with
  | zero => exact spent_of_eq rfl
  | succ n ih =>
      have hbefore := ((w.release h).2.moves_releaseTimes h n).before
      have hle := Log.failures_mono hbefore.log
      rw [releaseTimes] at hcalm ⊢
      have hfirst : w.Spent (w.giveUp (.handle h)).2 :=
        spent_giveUp (Nat.eq_zero_of_le_zero (hcalm ▸ hle))
      exact hfirst.trans (ih hcalm) hbefore

theorem spent_releaseOnPool {copies workers : Nat}
    (hcalm : (w.releaseOnPool id copies workers).2.log.failures = 0) :
    w.Spent (w.releaseOnPool id copies workers).2 := by
  rw [releaseOnPool] at hcalm ⊢
  rcases ho : w.find? id with _ | _ | h | _
  case some.handle =>
    rw [ho] at hcalm
    dsimp only at hcalm ⊢
    cases hpool : (Pool.create? workers none : Except Pool.Error (Pool Handle)) with
    | error e => exact spent_of_eq rfl
    | ok pool =>
        rw [hpool] at hcalm
        dsimp only at hcalm ⊢
        let w₁ : World := { w with heap := w.heap.retain h copies }
        let w₂ := w₁.releaseTimes h copies
        let w₃ := ((w₂.put id (.handle none)).giveUp (.handle h)).2
        have hspent (hcalm : w₃.log.failures = 0) : w.Spent w₃ := by
          have hfind : w₂.find? id = some (.handle h) := by
            rw [find?, objects_releaseTimes]
            exact ho
          have hbefore : w₂.Before w₃ :=
            (before_put _ _ _).trans ((w₂.put id (.handle none)).before_giveUp (.handle h))
          have hle := Log.failures_mono hbefore.log
          have h₁ : w.Spent w₁ := spent_of_eq (w.chainAt_retain h copies)
          have h₂ : w₁.Spent w₂ :=
            spent_releaseTimes h copies (Nat.eq_zero_of_le_zero (hcalm ▸ hle))
          have h₃ : w₂.Spent w₃ := spent_put_giveUp _ hfind rfl hcalm
          exact (h₁.trans h₂ (w₁.moves_releaseTimes h copies).before).trans h₃ hbefore
        simp only [w₃, w₂, w₁, giveUp] at hspent
        split at hcalm
        · next heq =>
          rw [heq] at hspent
          exact hspent hcalm
        · next heq =>
          rw [heq] at hspent
          exact hspent hcalm
  all_goals exact spent_of_eq rfl

/-- A command that gives up objects carries out whole lists. -/
theorem spent_step (hc : c.givesUp = true) (hcalm : (w.step c).2.log.failures = 0) :
    w.Spent (w.step c).2 := by
  cases c with
  | reset id => exact spent_reset hcalm
  | flush id => exact spent_flush hcalm
  | drop id => exact spent_drop hcalm
  | allocate id => exact spent_allocate hcalm
  | releaseOnPool id copies workers => exact spent_releaseOnPool hcalm
  | _ => contradiction

/-! ## Histories -/

theorem edits_of_givesUp (hc : c.givesUp = true) : w.edits c = [] := by
  cases c with
  | reset | flush | drop | allocate | releaseOnPool => rfl
  | _ => contradiction

theorem mem_pending_of_chainAt {s : Site} (he : e ∈ w.chainAt s) : e ∈ w.pending := by
  rw [pending, List.mem_append]
  cases s with
  | object id =>
      cases ho : w.find? id with
      | none => simp [chainAt, ho] at he
      | some o =>
          rw [chainAt_of_find? ho] at he
          exact Or.inl (List.mem_flatMap.mpr ⟨o, mem_held_of_find? ho, he⟩)
  | shared d =>
      rw [chainAt] at he
      cases hs : w.heap.get? d with
      | none =>
          rw [hs] at he
          contradiction
      | some s =>
          rw [hs] at he
          exact Or.inr (Heap.mem_entries hs he)

/-- What is pending has not ended. -/
theorem Books.awaits_of_mem (b : w.Books [] issued) {s : Site} (he : e ∈ w.chainAt s) :
    w.log.awaits e = true := by
  have hcount := b.count_add_count e
  have hpending := List.count_pos_iff.mpr (mem_pending_of_chainAt he)
  have honce := List.nodup_iff_count_le_one.mp b.nodup_issued e
  rw [← count_map_entry] at hcount
  exact decide_eq_true (List.count_eq_zero.mp (by omega))

/-- After a command, those entries are pending that its edits leave and that have not ended. -/
theorem Books.chainAt_step (b : w.Books [] issued) (b' : (w.step c).2.Books [] issued')
    (hcalm : (w.step c).2.log.failures = 0) (s : Site) : (w.step c).2.chainAt s =
      (Edit.applyAll w.chainAt (w.edits c) s).filter (w.step c).2.log.awaits := by
  have hkept : ((w.step c).2.chainAt s).filter (w.step c).2.log.awaits = (w.step c).2.chainAt s :=
    List.filter_eq_self.mpr fun e he => b'.awaits_of_mem he
  cases hc : c.givesUp with
  | false => rw [← World.chainAt_step b hc, hkept]
  | true =>
      rw [edits_of_givesUp hc]
      rcases spent_step hc hcalm s with heq | ⟨hempty, hended⟩
      · rw [heq] at hkept ⊢
        exact hkept.symm
      · rw [hempty]
        refine (List.filter_eq_nil_iff.mpr fun e he => ?_).symm
        simpa [Log.awaits] using hended e he

/-- After a history, those entries are pending that its edits leave and that have not ended. -/
theorem Books.chainAt_steps (b : w.Books [] issued) {l : Site → Chain}
    (hl : ∀ s, w.chainAt s = (l s).filter w.log.awaits) (history : List Command)
    (hab : w.isAborted = false) (hcalm : (w.steps history).log.failures = 0) (s : Site) :
    (w.steps history).chainAt s =
      (Edit.applyAll l (w.allEdits history) s).filter (w.steps history).log.awaits := by
  induction history generalizing w l issued with
  | nil => exact hl s
  | cons c rest ih =>
      have hle := Log.failures_mono ((w.step c).2.before_steps rest).log
      have hcalm' : (w.step c).2.log.failures = 0 := Nat.eq_zero_of_le_zero (hcalm ▸ hle)
      have hab' : (w.step c).2.isAborted = false := (w.runs_step c hcalm').1.trans hab
      have b' := b.moves (w.moves_step c) hab'
      have hlater (e : Entry) (he : (w.step c).2.log.awaits e) : w.log.awaits e := by
        have hearlier := ((w.before_step c).log.map Event.entry).subset
        exact decide_eq_true fun hmem => of_decide_eq_true he (hearlier hmem)
      -- What has ended before the command has also ended after it, so it may be left out there.
      have hsame (s : Site) : (w.chainAt s).filter (w.step c).2.log.awaits =
          (l s).filter (w.step c).2.log.awaits := by
        rw [hl, List.filter_filter]
        exact List.filter_congr fun e _ => by simpa using hlater e
      rw [allEdits, Edit.applyAll_append]
      refine ih b' (fun s => ?_) hab' hcalm
      rw [b.chainAt_step b' hcalm', Edit.filter_applyAll hsame]

end World

end Lifespan.Cleanup
