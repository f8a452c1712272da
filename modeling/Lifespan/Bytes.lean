/-!
# Byte strings

`Bytes` is the content of memory, of slices and of encoded text alike: a list of octets.
-/

namespace Lifespan

/-- A byte string. -/
abbrev Bytes := List UInt8

end Lifespan
