import Lifespan.Source.Budget
import Lifespan.Source.Paged
import Lifespan.Proofs.Source.Contract

/-!
# Sources on top of others

A budget reserves the bytes of a request before it passes the request on, and gives them up again
if it is refused there. So a request that is refused is at most counted as a refusal, and what is
held from a budget is what it holds from the source within.
-/
namespace Lifespan

open Source

/-- Giving up an image gives up the first member that it is the image of. -/
theorem exists_erase_map {α β : Type} [DecidableEq α] [DecidableEq β] (f : α → β) {l : List α}
    {y : β} (hy : y ∈ l.map f) : ∃ x ∈ l, f x = y ∧ (l.erase x).map f = (l.map f).erase y := by
  induction l with
  | nil => contradiction
  | cons a rest ih =>
      by_cases ha : f a = y
      · refine ⟨a, List.mem_cons_self, ha, ?_⟩
        rw [List.erase_cons_head, List.map_cons, ha, List.erase_cons_head]
      · have hrest : y ∈ rest.map f := by
          rcases List.mem_cons.mp hy with h | h
          · exact absurd h.symm ha
          · exact h
        obtain ⟨x, hx, hfx, herase⟩ := ih hrest
        have hax : a ≠ x := fun h => ha (by rw [h, hfx])
        refine ⟨x, List.mem_cons_of_mem _ hx, hfx, ?_⟩
        rw [List.erase_cons_tail (by simpa using hax), List.map_cons, List.map_cons,
          List.erase_cons_tail (by simpa using ha), herase]

/-! ## Sources within -/

/-- Whenever a source grants nothing, neither does the one within. -/
def Source.Passes {σ τ : Type} [Source σ] [Source τ] (inner : σ → τ) : Prop :=
  ∀ {s t : σ}, Ungranted s t → Ungranted (inner s) (inner t)

theorem Source.passes_id {σ : Type} [Source σ] : Passes (id : σ → σ) := fun h => h

/-- A request that is passed on asks for as many bytes at a stronger alignment. -/
theorem Paged.passes_inner {σ : Type} [Source σ] : Passes (Paged.inner : Paged σ → σ) := by
  rintro s t (rfl | ⟨l, _, hpos, halloc⟩)
  · exact Or.inl rfl
  · simp only [Source.allocate] at halloc
    cases hl : strengthen? l with
    | none =>
        rw [hl] at halloc
        cases halloc
        exact Or.inl rfl
    | some l' =>
        rw [hl] at halloc
        simp only [strengthen?, Layout.of?] at hl
        split at hl
        · next hvalid =>
          cases hl
          obtain ⟨hbase, rfl⟩ := Prod.mk.inj halloc
          exact Or.inr ⟨_, hvalid, hpos, Prod.ext hbase rfl⟩
        · contradiction

namespace Budgeted

variable {σ : Type} [Source σ] {origin b b' : Budgeted σ} {l : Layout} {held : List Extent}

/-! ## Requests -/

omit [Source σ] in
theorem reserve?_eq_some {size : Nat} (h : b.reserve? size = some b') :
    b' = { b with used := b.used + size } := by
  simp only [reserve?] at h
  split at h
  · next total htotal =>
    obtain ⟨rfl, _⟩ := Word.add?_eq_some_iff.mp htotal
    split at h
    · cases h
      rfl
    · contradiction
  · contradiction

/-- A granted request is passed on, and its bytes are counted as used. -/
theorem allocate_eq_some {base : Nat} (h : Source.allocate l b = (some base, b')) :
    Source.allocate l b.inner = (some base, b'.inner) := by
  simp only [Source.allocate] at h
  split at h
  · cases h
  · next reserved hreserve =>
    obtain rfl := reserve?_eq_some hreserve
    split at h
    · next inner hinner =>
      cases h
      exact hinner
    · cases h

/-- A refused request either exceeds the budget, and is counted as a refusal, or is refused by the
source within, and leaves all counts as they were. -/
theorem allocate_eq_none (h : Source.allocate l b = (none, b')) :
    b' = { b with refusals := b.refusals + 1 } ∨
      Source.allocate l b.inner = (none, b'.inner) ∧ b' = { b with inner := b'.inner } := by
  simp only [Source.allocate] at h
  split at h
  · cases h
    exact Or.inl rfl
  · next reserved hreserve =>
    obtain rfl := reserve?_eq_some hreserve
    split at h
    · cases h
    · next inner hinner =>
      cases h
      -- What has been reserved is given up again.
      exact Or.inr ⟨hinner, by simp only [Nat.add_sub_cancel]⟩

/-- Without a grant a budget keeps its counts, and counts at most one more refusal. -/
theorem eq_of_ungranted (h : Ungranted b b') :
    b' = { b with refusals := b'.refusals, inner := b'.inner } ∧
      b.refusals ≤ b'.refusals ∧ b'.refusals ≤ b.refusals + 1 ∧ Ungranted b.inner b'.inner := by
  rcases h with rfl | ⟨l, hvalid, hpos, halloc⟩
  · exact ⟨rfl, Nat.le_refl _, Nat.le_succ _, Or.inl rfl⟩
  · rcases allocate_eq_none halloc with rfl | ⟨hinner, hb'⟩
    · exact ⟨rfl, Nat.le_succ _, Nat.le_refl _, Or.inl rfl⟩
    · have hrefusals : b'.refusals = b.refusals := by rw [hb']
      refine ⟨by rwa [hrefusals], ?_, ?_, Or.inr ⟨l, hvalid, hpos, hinner⟩⟩ <;> omega

/-! ## Histories -/

/-- What is held from a budget for an extent that the source within has granted: just as many bytes
as were asked for. -/
def outer (e : Extent) : Extent := ⟨e.grant, e.grant.layout.size⟩

/-- What is held from a budget is what it holds from the source within. -/
theorem history_inner (h : History origin b held) :
    ∃ inner, History origin.inner b.inner inner ∧ held = inner.map outer ∧
      ∀ e ∈ inner, e.grant.layout.size ≤ e.length := by
  induction h with
  | start => exact ⟨[], .start, rfl, by simp⟩
  | @grant s t held l base _ hvalid hpos halloc ih =>
      obtain ⟨inner, hinner, rfl, hle⟩ := ih
      refine ⟨_, hinner.grant hvalid hpos (allocate_eq_some halloc), ?_, ?_⟩
      · rw [List.map_append, List.map_singleton, outer, extent, extent]
        simp only [Source.usableSize, max_self]
      · intro e he
        rcases List.mem_append.mp he with he | he
        · exact hle e he
        · rw [List.mem_singleton.mp he]
          exact le_max_right _ _
  | refuse _ hvalid hpos halloc ih =>
      obtain ⟨inner, hinner, hheld, hle⟩ := ih
      obtain ⟨_, _, _, hpass⟩ := eq_of_ungranted (Or.inr ⟨_, hvalid, hpos, halloc⟩)
      exact ⟨inner, hinner.of_ungranted hpass, hheld, hle⟩
  | giveBack _ he ih =>
      obtain ⟨inner, hinner, rfl, hle⟩ := ih
      obtain ⟨f, hf, rfl, herase⟩ := exists_erase_map outer he
      have hback := hinner.giveBack hf
      exact ⟨inner.erase f, hback, herase.symm, fun e he => hle e (List.mem_of_mem_erase he)⟩

/-- A budget keeps the promise of a source if the source within does. -/
theorem honest (h : Honest origin.inner) : Honest origin where
  aligned := by
    intro s held hs e he
    obtain ⟨inner, hinner, rfl, _⟩ := history_inner hs
    obtain ⟨f, hf, rfl⟩ := List.mem_map.mp he
    exact h.aligned hinner f hf
  bounded := by
    intro s held hs e he
    obtain ⟨inner, hinner, rfl, hle⟩ := history_inner hs
    obtain ⟨f, hf, rfl⟩ := List.mem_map.mp he
    have hstop := h.bounded hinner f hf
    have hsize := hle f hf
    simp only [outer, Extent.span, Span.stop] at *
    omega
  apart := by
    intro s held hs
    obtain ⟨inner, hinner, rfl, hle⟩ := history_inner hs
    have hwithin : ∀ e ∈ inner, (outer e).span.Within e.span := by
      intro e he
      have hsize := hle e he
      refine ⟨Nat.le_refl _, ?_⟩
      simp only [outer, Extent.span, Span.stop]
      omega
    refine List.pairwise_map.mpr ((h.apart hinner).imp_of_mem ?_)
    intro e f he hf hapart
    exact hapart.mono (hwithin e he) (hwithin f hf)

end Budgeted

end Lifespan
