import Lifespan.Cleanup.Entry
import Lifespan.Slice.Basic
import Lifespan.Text.Record

/-!
# Pinnable slices

A pinnable slice shows nothing, or its own buffer, or bytes that belong to somebody else. In the
last case it is pinned: its chain of cleanups says what is to be done when the bytes are no longer
needed, and it has to be reset before it can show anything else.
-/

namespace Lifespan.Cleanup

/-- What a pinnable slice shows. -/
inductive View where
  | nothing
  | buffer
  | foreign (s : Slice)
deriving DecidableEq, Repr, Inhabited

/-- A slice that shows foreign bytes or a private copy. -/
structure Pinnable where
  view : View := .nothing
  buffer : Bytes := []
  cleanups : Chain := []
deriving DecidableEq, Repr, Inhabited

/-- A change to the own buffer. -/
inductive BufferEdit where
  | append (bytes : Bytes)
  | truncate (length : Nat)
  | reverse
deriving DecidableEq, Repr

/-- The buffer after a change. -/
def BufferEdit.apply : BufferEdit → Bytes → Bytes
  | append bytes, b => b ++ bytes
  | truncate n, b => b.take n
  | reverse, b => b.reverse

namespace Pinnable

/-- Whether foreign bytes are shown. -/
def isPinned (p : Pinnable) : Bool :=
  match p.view with
  | .foreign _ => true
  | _ => false

/-- The bytes that are shown. -/
def slice (p : Pinnable) : Slice :=
  match p.view with
  | .nothing => Slice.empty
  | .buffer => ⟨p.buffer⟩
  | .foreign s => s

/-- Shows a foreign slice. -/
def pin (p : Pinnable) (operation : PinOperation) (s : Slice) : Except Fault Pinnable :=
  if p.isPinned then .error (.pinned operation) else .ok { p with view := .foreign s }

/-- Shows a copy of a slice, which takes the place of the own buffer. -/
def copy (p : Pinnable) (s : Slice) : Except Fault Pinnable :=
  if p.isPinned then .error (.pinned .pinSelf)
  else .ok { p with view := .buffer, buffer := s.bytes }

/-- Shows the own buffer as it is. -/
def showBuffer (p : Pinnable) : Except Fault Pinnable :=
  if p.isPinned then .error (.pinned .repinSelf) else .ok { p with view := .buffer }

/-- Changes the own buffer, whether it is shown or not. -/
def edit (p : Pinnable) (e : BufferEdit) : Pinnable := { p with buffer := e.apply p.buffer }

/-- Takes `n` bytes off the front of what is shown. Of foreign bytes fewer are shown then, and the
own buffer loses the bytes. -/
def dropFront (p : Pinnable) (n : Nat) : Except Fault Pinnable :=
  if n ≤ p.slice.length then
    .ok (match p.view with
      | .foreign s => { p with view := .foreign ⟨s.bytes.drop n⟩ }
      | .buffer => { p with buffer := p.buffer.drop n }
      | .nothing => p)
  else .error (.trimFront n p.slice.length)

/-- Takes `n` bytes off the back of what is shown, in the same way. -/
def dropBack (p : Pinnable) (n : Nat) : Except Fault Pinnable :=
  let length := p.slice.length
  if n ≤ length then
    .ok (match p.view with
      | .foreign s => { p with view := .foreign ⟨s.bytes.take (length - n)⟩ }
      | .buffer => { p with buffer := p.buffer.take (length - n) }
      | .nothing => p)
  else .error (.trimBack n length)

/-- The text of a pinnable slice. -/
def describe (p : Pinnable) : String :=
  Text.record "PinnableSlice" [("data", p.slice.describe), ("pinned", Text.truth p.isPinned),
    ("cleanups", toString p.cleanups.length)]

end Pinnable

end Lifespan.Cleanup
