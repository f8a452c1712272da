import Lifespan.Text.Extender
import Lifespan.Text.Unprintable

/-!
# Printable characters

A character is printable if it leaves a mark of its own or is the space. A mark that extends the
character before it is printable too, but changes how that character looks.
-/

namespace Lifespan.Text

/-- Whether a character leaves a mark of its own or is the space. -/
def isPrintable (c : Char) : Bool := !isInTable unprintable c.toNat

/-- Whether a character extends the one before it. -/
def isExtender (c : Char) : Bool := isInTable extenders c.toNat

end Lifespan.Text
