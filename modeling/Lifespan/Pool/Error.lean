/-!
# Errors of worker pools
-/

namespace Lifespan.Pool

/-- Why a pool refuses a request. -/
inductive Error where
  | noWorkers
  | shutDown
deriving DecidableEq, Repr

/-- The text of an error. -/
def Error.message : Error → String
  | noWorkers => "thread pool needs at least one thread"
  | shutDown => "thread pool is shut down"

end Lifespan.Pool
