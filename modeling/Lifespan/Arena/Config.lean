import Lifespan.Arena.Growth
import Lifespan.Memory.Alignment
import Lifespan.Text.Record

/-!
# Arena configurations

The size of the first block, how later ones grow, and how much memory the arena may hold. A
configuration is checked before it is used; of several flaws the first one in the order of
`Config.Flaw` is reported.
-/

namespace Lifespan

/-- What an arena is made from. -/
structure Config where
  initialBlockSize : Nat := 1 <<< 20
  growth : Growth := .fixed
  memoryLimit : Option Nat := none
deriving DecidableEq, Repr

namespace Config

/-- Why a configuration is refused. -/
inductive Flaw where
  | zeroBlock
  | blockTooLarge (size : Nat)
  | zeroIncrement
  | limitBelowBlock (limit block : Nat)
deriving DecidableEq, Repr

/-- The text of a flaw. -/
def Flaw.message : Flaw → String
  | zeroBlock => "initial_block_size must be non-zero"
  | blockTooLarge size => s!"initial_block_size {size} exceeds isize::MAX"
  | zeroIncrement => "linear growth increment must be non-zero"
  | limitBelowBlock limit block =>
    s!"memory_limit {limit} is smaller than initial_block_size {block}"

/-- The first flaw of a configuration, if it has one. -/
def flaw? (c : Config) : Option Flaw :=
  if c.initialBlockSize = 0 then some .zeroBlock
  else if Word.maxSpan < c.initialBlockSize then some (.blockTooLarge c.initialBlockSize)
  else if c.growth = .linear 0 then some .zeroIncrement
  else match c.memoryLimit with
    | none => none
    | some limit =>
      if limit < c.initialBlockSize then some (.limitBelowBlock limit c.initialBlockSize)
      else none

/-- A configuration is valid when it has no flaw. -/
def Valid (c : Config) : Prop := c.flaw? = none

instance (c : Config) : Decidable c.Valid := inferInstanceAs (Decidable (_ = _))

end Config

/-- The text of a growth policy. -/
def Growth.describe : Growth → String
  | fixed => "Fixed"
  | linear increment => Text.record "Linear" [("increment", toString increment)]
  | exponential => "Exponential"

/-- The text of a configuration. -/
def Config.describe (c : Config) : String :=
  Text.record "ArenaConfig" [("initial_block_size", toString c.initialBlockSize),
    ("growth", c.growth.describe), ("memory_limit", Text.optional c.memoryLimit)]

end Lifespan
