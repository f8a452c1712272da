import Lifespan.Word

/-!
# Growth of block sizes

How the size of the next block follows from the size of the one before. Sizes stop growing at the
largest word.
-/

namespace Lifespan

/-- How block sizes grow. -/
inductive Growth where
  | fixed
  | linear (increment : Nat)
  | exponential
deriving DecidableEq, Repr

namespace Growth

/-- The size that follows a size. -/
def advance : Growth → Nat → Nat
  | fixed, size => size
  | linear increment, size => Word.addSat size increment
  | exponential, size => Word.addSat size size

/-- The `n` sizes that follow a size. -/
def sizesAfter (g : Growth) (size : Nat) : Nat → List Nat
  | 0 => []
  | n + 1 => g.advance size :: sizesAfter g (g.advance size) n

end Growth

end Lifespan
