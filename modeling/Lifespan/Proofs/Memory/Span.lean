import Lifespan.Sum
import Mathlib.Order.Interval.Finset.Nat

/-!
# Spans of addresses

Consecutive addresses, given by the first one and their number. Two spans are apart when one of
them ends before the other begins. Spans that are apart share the addresses below a bound, so their
lengths add up to no more than there are.
-/
namespace Lifespan

/-- Consecutive addresses. -/
structure Span where
  start : Nat
  length : Nat
deriving DecidableEq, Repr

namespace Span

variable {r s t u : Span}

/-- One past the last address. -/
def stop (s : Span) : Nat := s.start + s.length

/-- One of two spans ends before the other begins. -/
def Apart (s t : Span) : Prop := s.stop ≤ t.start ∨ t.stop ≤ s.start

/-- All addresses of one span are addresses of another. -/
def Within (s t : Span) : Prop := t.start ≤ s.start ∧ s.stop ≤ t.stop

theorem Apart.symm (h : s.Apart t) : t.Apart s := Or.symm h

/-- Parts of spans that are apart are apart. -/
theorem Apart.mono (h : s.Apart t) (hr : r.Within s) (hu : u.Within t) : r.Apart u := by
  simp only [Apart, Within] at *
  omega

/-- No span with an address in it lies within two spans that are apart. -/
theorem Apart.not_within (h : s.Apart t) (hr : 0 < r.length) (hs : r.Within s) :
    ¬ r.Within t := by
  simp only [Apart, Within, stop] at *
  omega

/-- Spans that are apart have as many addresses together as their lengths add up to. -/
theorem exists_card_eq_sum {spans : List Span} (h : spans.Pairwise Apart) :
    ∃ addresses : Finset Nat, addresses.card = sum (spans.map length) ∧
      ∀ x, x ∈ addresses ↔ ∃ s ∈ spans, s.start ≤ x ∧ x < s.stop := by
  induction spans with
  | nil => exact ⟨∅, rfl, by simp⟩
  | cons s rest ih =>
      obtain ⟨hs, hrest⟩ := List.pairwise_cons.mp h
      obtain ⟨addresses, hcard, hmem⟩ := ih hrest
      have hdisjoint : Disjoint (Finset.Ico s.start s.stop) addresses := by
        refine Finset.disjoint_left.mpr fun x hx hx' => ?_
        obtain ⟨t, ht, hstart, hstop⟩ := (hmem x).mp hx'
        have hapart := hs t ht
        rw [Finset.mem_Ico] at hx
        simp only [Apart] at hapart
        omega
      refine ⟨Finset.Ico s.start s.stop ∪ addresses, ?_, fun x => ?_⟩
      · rw [Finset.card_union_of_disjoint hdisjoint, Nat.card_Ico, hcard, List.map_cons, sum_cons,
          stop, Nat.add_sub_cancel_left]
      · simp [hmem]

theorem sum_length_le {spans : List Span} {n : Nat} (h : spans.Pairwise Apart)
    (hstop : ∀ s ∈ spans, s.stop ≤ n) : sum (spans.map length) ≤ n := by
  obtain ⟨addresses, hcard, hmem⟩ := exists_card_eq_sum h
  have hsub : addresses ⊆ Finset.range n := by
    intro x hx
    obtain ⟨s, hs, -, hlt⟩ := (hmem x).mp hx
    exact Finset.mem_range.mpr (Nat.lt_of_lt_of_le hlt (hstop s hs))
  rw [← hcard, ← Finset.card_range n]
  exact Finset.card_le_card hsub

end Span

end Lifespan
