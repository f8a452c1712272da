import Lifespan.Proofs.Arena.Lifecycle
import Lifespan.Proofs.Source.Budget
import Lifespan.Source.AddressSpace

/-!
# An arena with a budget

The blocks of an arena are what is held from its source, at any time: a block that is granted is
kept until the release, and the release gives all of them back. So the counters of a budget that has
no other user agree with those of the arena.
-/

namespace Lifespan

open Source

namespace Arena

variable {σ : Type} [Source σ] {origin : σ} {a a' : Arena σ}

/-- The blocks are what is held from the source, which has come to its state by dealings. -/
def Dealt (origin : σ) (a : Arena σ) : Prop :=
  ∃ calls, Dealings origin calls a.source ∧ held calls = a.grants

theorem Dealt.asking (h : a.Dealt origin) (hask : a.Asking a') : a'.Dealt origin := by
  obtain ⟨calls, hcalls, hheld⟩ := h
  cases hask with
  | silent hsource hgrants => exact ⟨calls, hsource ▸ hcalls, hheld.trans hgrants.symm⟩
  | refused l _ halloc hgrants =>
      have hcall := hcalls.ask l
      rw [halloc] at hcall
      refine ⟨_, hcall, ?_⟩
      rw [held_concat, hheld, hgrants, Call.heldAfter]
  | granted l base _ halloc hgrants =>
      have hcall := hcalls.ask l
      rw [halloc] at hcall
      refine ⟨_, hcall, ?_⟩
      rw [held_concat, hheld, hgrants, Call.heldAfter]

/-- A new arena holds nothing. -/
theorem dealt_of_create? {config : Config} (h : create? config origin = .ok a) :
    a.Dealt origin := by
  obtain ⟨-, rfl⟩ := create?_eq_ok_iff.mp h
  exact ⟨[], .start, rfl⟩

omit [Source σ] in
theorem bytes_grants {claims : List Claim} (h : a.Accounts claims) :
    bytes a.grants = a.memoryBytes := h.memory.symm

omit [Source σ] in
theorem length_grants (a : Arena σ) : a.grants.length = a.blocks.length := List.length_map _

end Arena

/-- The blocks are what is held from the source, after any history of requests. -/
theorem Session.dealt_run {σ : Type} [Source σ] {origin : σ} {s : Session σ}
    (honest : Honest origin) (sound : s.arena.Sound origin) (h : s.arena.Dealt origin)
    (requests : List Request) : (s.run requests).arena.Dealt origin := by
  have hboth : (s.run requests).arena.Sound origin ∧ (s.run requests).arena.Dealt origin :=
    run_induction (P := fun s => s.arena.Sound origin ∧ s.arena.Dealt origin)
      (fun _ r hs => ⟨sound_step honest hs.1 r, hs.2.asking (step_asking honest hs.1 r)⟩)
      ⟨sound, h⟩ requests
  exact hboth.2

namespace Budgeted

variable {σ : Type} [Source σ]

/-- The counters of a budget after any dealings with it, whatever the source within answers; and for
an arena that is its only user, over a source within that is honest, after any history of requests
and after the release. -/
theorem counters_agree (inner : σ) {budget : Nat} (hbudget : budget ≤ Word.max) :
    let start : Budgeted σ := { budget, inner }
    (∀ {calls : List Call} {b : Budgeted σ}, Dealings start calls b →
      b.budget = budget ∧ b.used = bytes (held calls) ∧ b.used ≤ budget ∧
      b.live = (held calls).length ∧ b.refusals = excesses budget [] calls ∧
      -- What is given back has been counted, and so has a reservation that is undone.
      (∀ g ∈ held calls, g.layout.size ≤ b.used ∧ 1 ≤ b.live) ∧
      (∀ size reserved, b.reserve? size = some reserved →
        size ≤ reserved.used ∧ reserved.used - size = b.used ∧ reserved.used ≤ budget) ∧
      -- The sum of bytes is exact, and only what is within the budget is passed on.
      ∀ l, Source.allocate l b =
        if budget < b.used + l.size then (none, { b with refusals := b.refusals + 1 })
        else match Source.allocate l b.inner with
          | (some base, inner) =>
            (some base, { b with inner, used := b.used + l.size, live := b.live + 1 })
          | (none, inner) => (none, { b with inner })) ∧
    ∀ {config : Config} {a : Arena (Budgeted σ)}, Honest inner →
      Arena.create? config start = .ok a → ∀ requests : List Request,
        let now := (Session.run { arena := a } requests).arena
        now.source.used = now.memoryBytes ∧ now.source.live = now.blocks.length ∧
        now.release.used = 0 ∧ now.release.live = 0 ∧
        -- The arena gives back what it holds, and has nothing else to give back.
        ∃ calls, Dealings start calls now.source ∧ held calls = now.grants ∧
          Dealings start (calls ++ (held calls).map Grant.giveBack) now.release := by
  intro start
  have hstart : start.Counts [] := ⟨hbudget, rfl, rfl, Nat.zero_le _⟩
  constructor
  · intro calls b h
    have hcounts := counts_of_dealings hstart h
    have hsame : b.budget = budget := budget_of_dealings hstart h
    have hrefusals := refusals_of_dealings hstart h
    rw [show start.refusals = 0 from rfl, Nat.zero_add] at hrefusals
    refine ⟨hsame, hcounts.used, hsame ▸ hcounts.used_le, hcounts.live, hrefusals,
      fun g hg => hcounts.counted hg, ?_, ?_⟩
    · intro size reserved hreserve
      rw [reserve?_eq hcounts.budget_le] at hreserve
      by_cases hwithin : b.used + size ≤ b.budget
      · rw [if_pos hwithin] at hreserve
        cases hreserve
        dsimp only
        omega
      · rw [if_neg hwithin] at hreserve
        contradiction
    · intro l
      rw [← hsame]
      exact allocate_eq hcounts.budget_le l
  · intro config a hinner created requests now
    have honest : Honest start := Budgeted.honest hinner
    have sound := Arena.sound_of_create? created
    obtain ⟨calls, hcalls, hheld⟩ : now.Dealt start :=
      Session.dealt_run honest sound (Arena.dealt_of_create? created) requests
    have accounts := Session.accounts_run (s := { arena := a }) honest sound
      (Arena.accounts_of_create? created) requests
    have hcounts := counts_of_dealings hstart hcalls
    obtain ⟨hrelease, hnone⟩ := hcalls.giveBackAll hheld
    rw [← Arena.release_eq] at hrelease
    have hfinal := counts_of_dealings hstart hrelease
    rw [hnone] at hfinal
    refine ⟨?_, ?_, hfinal.used, hfinal.live, calls, hcalls, hheld, hheld ▸ hrelease⟩
    · rw [hcounts.used, hheld, Arena.bytes_grants accounts]
    · rw [hcounts.live, hheld, Arena.length_grants]

/-- An arena with one request that exceeds the budget, and one within it that the source within
refuses. -/
theorem counters_agree_refused :
    let inner : AddressSpace := { skew := 16 }
    let budget := 1 <<< 62
    let start : Budgeted AddressSpace := { budget, inner }
    let config : Config := { initialBlockSize := 64, growth := .exponential }
    let a : Arena (Budgeted AddressSpace) := { config, source := start, nextBlockSize := 64 }
    let requests : List Request :=
      [.allocate 24, .allocate (1 <<< 61), .allocate (1 <<< 62), .reset, .allocateAligned 100 1024]
    let now := (Session.run { arena := a } requests).arena
    budget ≤ Word.max ∧ Honest inner ∧ Arena.create? config start = .ok a ∧
      now.source.used = 64 + 128 ∧ now.source.live = 2 ∧ now.source.refusals = 1 ∧
      now.release.used = 0 ∧ now.release.live = 0 ∧
      ∃ calls, Dealings start calls now.source ∧ excesses budget [] calls = 1 ∧
        bytes (held calls) = 192 := by
  intro inner budget start config a requests now
  have hbudget : budget ≤ Word.max := by decide
  have honest := AddressSpace.honest inner
  have created : Arena.create? config start = .ok a := rfl
  obtain ⟨dealings, arenas⟩ := counters_agree inner hbudget
  obtain ⟨hused, hlive, hrelease, hnone, calls, hcalls, -, -⟩ := arenas honest created requests
  obtain ⟨-, hbytes, -, -, hrefusals, -⟩ := dealings hcalls
  have hmemory : now.memoryBytes = 192 := by decide +kernel
  have hblocks : now.blocks.length = 2 := by decide +kernel
  have hrefused : now.source.refusals = 1 := by decide +kernel
  refine ⟨hbudget, honest, created, ?_, ?_, hrefused, hrelease, hnone, calls, hcalls, ?_, ?_⟩
  · rw [hused, hmemory]
  · rw [hlive, hblocks]
  · rw [← hrefusals, hrefused]
  · rw [← hbytes, hused, hmemory]

end Budgeted

end Lifespan
