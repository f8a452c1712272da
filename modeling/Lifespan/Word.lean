/-!
# Machine words

Addresses, sizes and counts are natural numbers below `Word.bound`. Arithmetic that may leave that
range is written with the operations of this file, which either refuse (`add?`) or stop at the
largest word (`addSat`), so a plain `+` elsewhere is a sum that is known to stay in range.
-/

namespace Lifespan.Word

/-- One more than the largest word. -/
def bound : Nat := 1 <<< 64

/-- The largest word. -/
def max : Nat := bound - 1

/-- The largest number of bytes that one object may span. -/
def maxSpan : Nat := 1 <<< 63 - 1

/-- The sum of two words, if it is a word. -/
def add? (a b : Nat) : Option Nat :=
  if a + b < bound then some (a + b) else none

/-- The sum of two words, or the largest word if the sum is none. -/
def addSat (a b : Nat) : Nat :=
  min (a + b) max

variable {a b c : Nat}

theorem add?_eq_some_iff : add? a b = some c ↔ a + b = c ∧ c < bound := by
  unfold add?
  split
  · simp only [Option.some.injEq]; omega
  · simp only [reduceCtorEq, false_iff]; omega

theorem add?_eq_none_iff : add? a b = none ↔ bound ≤ a + b := by
  unfold add?
  split
  · simp only [reduceCtorEq, false_iff]; omega
  · simp only [true_iff]; omega

theorem addSat_pos (h : 0 < a + b) : 0 < addSat a b := by
  simp only [addSat, max, bound]; omega

end Lifespan.Word
