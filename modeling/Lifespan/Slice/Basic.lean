import Lifespan.Fault
import Lifespan.Hex
import Lifespan.Text.Quoted
import Lifespan.Text.Utf8

/-!
# Slices

A slice is a view of consecutive bytes. Trimming moves the ends of the view and never touches the
bytes; taking off more than there is ends in a fault and leaves the view as it was.
-/

namespace Lifespan

/-- A view of consecutive bytes. -/
@[ext] structure Slice where
  bytes : Bytes
deriving DecidableEq, Repr, Inhabited

namespace Slice

/-- The slice without bytes. -/
def empty : Slice := ⟨[]⟩

/-- The slice over the bytes of a text. -/
def ofText (s : String) : Slice := ⟨Utf8.encode s⟩

/-- The number of bytes in view. -/
def length (s : Slice) : Nat := s.bytes.length

/-- Whether no byte is in view. -/
def isEmpty (s : Slice) : Bool := s.bytes.isEmpty

/-- The byte at an index. -/
def get (s : Slice) (i : Nat) : Except Fault UInt8 :=
  match s.bytes[i]? with
  | some b => .ok b
  | none => .error (.index s.length i)

/-- Takes `n` bytes off the front. -/
def dropFront (s : Slice) (n : Nat) : Except Fault Slice :=
  if n ≤ s.length then .ok ⟨s.bytes.drop n⟩ else .error (.trimFront n s.length)

/-- Takes `n` bytes off the back. -/
def dropBack (s : Slice) (n : Nat) : Except Fault Slice :=
  if n ≤ s.length then .ok ⟨s.bytes.take (s.length - n)⟩ else .error (.trimBack n s.length)

/-- Whether the view begins with the bytes of another. -/
def startsWith (s t : Slice) : Bool := t.bytes.isPrefixOf s.bytes

/-- Whether the view ends with the bytes of another. -/
def endsWith (s t : Slice) : Bool := t.bytes.isSuffixOf s.bytes

/-- The hexadecimal text of the bytes. -/
def toHex (s : Slice) : String := Hex.toText s.bytes

/-- The bytes that the view stands for when it is read as hexadecimal text. -/
def decodeHex (s : Slice) : Except Hex.DecodeError Bytes := Hex.decode s.bytes

/-- The bytes as text, if they are well-formed UTF-8. -/
def toText? (s : Slice) : Option String := Utf8.decode? s.bytes

/-- The bytes as text, with U+FFFD for what is not well-formed. -/
def toTextLossy (s : Slice) : String := Utf8.decodeLossy s.bytes

/-- The text of a slice: its bytes between quotes. -/
def describe (s : Slice) : String := "Slice(" ++ Quoted.ofBytes s.bytes ++ ")"

/-- The bytes of all `parts` in order. -/
def concat (parts : List Slice) : Bytes := parts.flatMap bytes

/-- The bytes of all `parts` in order, behind the bytes already in a buffer. -/
def join (buffer : Bytes) (parts : List Slice) : Bytes := buffer ++ concat parts

end Slice

end Lifespan
