import Lifespan.Arena.Config
import Lifespan.Fault

/-!
# Errors of an arena

The refusals that a user of an arena has to reckon with, and how a request ends when it yields no
memory: with an error, or with a fault.
-/

namespace Lifespan.Arena

/-- Why an arena refuses a request. -/
inductive Error where
  | outOfMemory (requested blockSize : Nat)
  | capacityExceeded (requested limit : Nat)
  | invalidAlignment (align : Nat)
  | layoutOverflow (count elementSize : Nat)
  | invalidConfig (flaw : Config.Flaw)
deriving DecidableEq, Repr

/-- The text of an error. -/
def Error.message : Error → String
  | outOfMemory requested blockSize =>
    s!"out of memory: could not acquire a {blockSize}-byte block for a {requested}-byte request"
  | capacityExceeded requested limit =>
    s!"arena capacity exceeded: requested {requested} bytes, limit {limit} bytes"
  | invalidAlignment align => s!"alignment {align} is not a power of two"
  | layoutOverflow count elementSize =>
    s!"layout overflow: {count} elements of {elementSize} bytes"
  | invalidConfig flaw => "invalid arena config: " ++ flaw.message

/-- How a request ends that yields no memory. -/
inductive Failure where
  | error (e : Error)
  | fault (f : Fault)
deriving DecidableEq, Repr

end Lifespan.Arena
