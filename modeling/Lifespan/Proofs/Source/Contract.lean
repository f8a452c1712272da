import Lifespan.Source.AddressSpace
import Lifespan.Proofs.Memory.Alignment
import Lifespan.Proofs.Memory.Span

/-!
# What a source promises

A source is known by its histories: the requests that were made of it, each with its answer, and the
extents that were given back. Its users ask for valid layouts that are not empty, and give back only
what they hold. In return an honest source hands out extents that are aligned, do not wrap, and have
no address in common with any other extent that is held at the same time.

## Main definitions

* `Source.Extent`, `Source.History`: what is held, and how a source came to its state.
* `Source.Honest`: the promise, over all histories.
* `Source.Ungranted`: what a request that is refused does to a source.

## Main results

* `AddressSpace.honest`: an address space keeps the promise.
-/
namespace Lifespan

namespace Source

variable {σ : Type} [Source σ]

/-- An extent that is held. -/
structure Extent where
  grant : Grant
  length : Nat
deriving DecidableEq, Repr

/-- The addresses of an extent. -/
def Extent.span (e : Extent) : Span := ⟨e.grant.base, e.length⟩

/-- The extent that a source grants for a layout: it may be used as far as the source says, and at
least as far as was asked for. -/
def extent (s : σ) (base : Nat) (l : Layout) : Extent :=
  ⟨⟨base, l⟩, max (usableSize l s) l.size⟩

/-- The states to which requests of lawful users lead, each with the extents that are held. -/
inductive History (origin : σ) : σ → List Extent → Prop where
  | start : History origin origin []
  | grant {s t : σ} {held : List Extent} {l : Layout} {base : Nat} :
    History origin s held → l.Valid → 0 < l.size → allocate l s = (some base, t) →
      History origin t (held ++ [extent t base l])
  | refuse {s t : σ} {held : List Extent} {l : Layout} :
    History origin s held → l.Valid → 0 < l.size → allocate l s = (none, t) →
      History origin t held
  | giveBack {s : σ} {held : List Extent} {e : Extent} :
    History origin s held → e ∈ held →
      History origin (deallocate e.grant.base e.grant.layout s) (held.erase e)

/-- A source that keeps its promise from a state on. -/
structure Honest (origin : σ) : Prop where
  aligned {s : σ} {held : List Extent} (h : History origin s held) :
    ∀ e ∈ held, e.grant.layout.align ∣ e.grant.base
  bounded {s : σ} {held : List Extent} (h : History origin s held) :
    ∀ e ∈ held, e.span.stop < Word.bound
  apart {s : σ} {held : List Extent} (h : History origin s held) :
    held.Pairwise fun e f => e.span.Apart f.span

/-- Nothing has been granted or given back: a source was asked for nothing, or it was asked once and
refused. -/
def Ungranted (s t : σ) : Prop :=
  t = s ∨ ∃ l : Layout, l.Valid ∧ 0 < l.size ∧ allocate l s = (none, t)

/-- Without a grant the same extents are held. -/
theorem History.of_ungranted {origin s t : σ} {held : List Extent} (h : History origin s held)
    (hst : Ungranted s t) : History origin t held := by
  rcases hst with rfl | ⟨l, hvalid, hpos, halloc⟩
  · exact h
  · exact h.refuse hvalid hpos halloc

end Source

namespace AddressSpace

open Source

variable {origin a b : AddressSpace} {l : Layout} {base : Nat} {held : List Extent}

theorem frontier_le_nextBase (a : AddressSpace) (l : Layout) : a.frontier ≤ a.nextBase l := by
  have hpage : 0 < max l.align Alignment.page := Nat.lt_of_lt_of_le (by decide) (le_max_right _ _)
  have hmod := Nat.mod_lt (a.frontier + (max l.align Alignment.page - 1)) hpage
  have hdiv := Nat.div_add_mod' (a.frontier + (max l.align Alignment.page - 1))
    (max l.align Alignment.page)
  simp only [nextBase]
  omega

theorem dvd_nextBase (a : AddressSpace) (h : l.Valid) : l.align ∣ a.nextBase l := by
  have hunit : l.align ∣ max l.align Alignment.page :=
    h.1.dvd_of_le (h.1.max Alignment.isValid_page) (le_max_left _ _)
  exact Nat.dvd_add (Nat.dvd_mul_left_of_dvd hunit _) (Nat.dvd_mul_left _ _)

/-- A granted extent lies between the frontier before and the frontier after. -/
theorem allocate_eq_some (h : Source.allocate l a = (some base, b)) :
    base = a.nextBase l ∧ (extent b base l).span.stop < Word.bound ∧
      (extent b base l).span.stop < b.frontier := by
  by_cases hg : a.Grants l
  · simp only [Source.allocate, if_pos hg, Prod.mk.injEq, Option.some.injEq] at h
    obtain ⟨rfl, rfl⟩ := h
    have hroom := hg.2.2.2
    refine ⟨rfl, ?_, ?_⟩
    · simp only [extent, Extent.span, Span.stop, Source.usableSize, usable] at *
      omega
    · simp only [extent, Extent.span, Span.stop, Source.usableSize, usable]
      omega
  · simp only [Source.allocate, if_neg hg, Prod.mk.injEq, reduceCtorEq, false_and] at h

theorem allocate_eq_none (h : Source.allocate l a = (none, b)) : b = a := by
  by_cases hg : a.Grants l
  · simp only [Source.allocate, if_pos hg, Prod.mk.injEq, reduceCtorEq, false_and] at h
  · simp only [Source.allocate, if_neg hg, Prod.mk.injEq, true_and] at h
    exact h.symm

/-- A refusal leaves no trace in an address space. -/
theorem eq_of_ungranted (h : Ungranted a b) : b = a := by
  rcases h with h | ⟨l, _, _, halloc⟩
  · exact h
  · exact allocate_eq_none halloc

/-- Every extent that is held lies below the frontier. -/
theorem stop_lt_frontier (h : History origin a held) : ∀ e ∈ held, e.span.stop < a.frontier := by
  induction h with
  | start => simp
  | @grant s t held l base _ hl _ halloc ih =>
      obtain ⟨rfl, _, hlt⟩ := allocate_eq_some halloc
      have hle := frontier_le_nextBase s l
      intro e he
      rcases List.mem_append.mp he with he | he
      · have := ih e he
        simp only [extent, Extent.span, Span.stop] at *
        omega
      · rw [List.mem_singleton.mp he]
        exact hlt
  | refuse _ _ _ halloc ih =>
      rw [allocate_eq_none halloc]
      exact ih
  | giveBack _ _ ih =>
      intro e he
      exact ih e (List.mem_of_mem_erase he)

/-- An address space keeps the promise of a source, whatever it has given away before. -/
theorem honest (origin : AddressSpace) : Honest origin where
  aligned h := by
    induction h with
    | start => simp
    | @grant s t held l base _ hl _ halloc ih =>
        obtain ⟨rfl, _, _⟩ := allocate_eq_some halloc
        intro e he
        rcases List.mem_append.mp he with he | he
        · exact ih e he
        · rw [List.mem_singleton.mp he]
          exact dvd_nextBase s hl
    | refuse _ _ _ _ ih => exact ih
    | giveBack _ _ ih => exact fun e he => ih e (List.mem_of_mem_erase he)
  bounded h := by
    induction h with
    | start => simp
    | grant _ _ _ halloc ih =>
        intro e he
        rcases List.mem_append.mp he with he | he
        · exact ih e he
        · rw [List.mem_singleton.mp he]
          exact (allocate_eq_some halloc).2.1
    | refuse _ _ _ _ ih => exact ih
    | giveBack _ _ ih => exact fun e he => ih e (List.mem_of_mem_erase he)
  apart h := by
    induction h with
    | start => exact List.Pairwise.nil
    | @grant s t held l base h _ _ halloc ih =>
        obtain ⟨rfl, _, _⟩ := allocate_eq_some halloc
        refine List.pairwise_append.mpr ⟨ih, List.pairwise_singleton _ _, ?_⟩
        intro e he f hf
        rw [List.mem_singleton.mp hf]
        -- The new extent starts at the frontier or above, and all others end below it.
        refine Or.inl ?_
        have hstop := stop_lt_frontier h e he
        have hle := frontier_le_nextBase s l
        simp only [extent, Extent.span, Span.stop] at *
        omega
    | refuse _ _ _ _ ih => exact ih
    | giveBack _ _ ih => exact ih.sublist List.erase_sublist

end AddressSpace

end Lifespan
