import Lifespan.Memory.Alignment
import Lifespan.Memory.Cell

/-!
# Element types

An element type says how many cells a value takes, how the first one is aligned, and how values are
written and read back. Numbers are written with the lowest byte first.
-/

namespace Lifespan

/-- How values of a type lie in memory. -/
structure Element (α : Type) where
  size : Nat
  align : Nat
  /-- Whether every cell of a value is a byte. -/
  isPlain : Bool
  encode : α → List Cell
  decode : List Cell → α

namespace Element

variable {α : Type}

/-- An element type is lawful when its values take `size` cells and read back as themselves, its
alignment is a power of two, and its size is a multiple of the alignment. -/
structure Lawful (e : Element α) : Prop where
  length_encode (v : α) : (e.encode v).length = e.size
  decode_encode (v : α) : e.decode (e.encode v) = v
  isValid_align : Alignment.IsValid e.align
  align_dvd : e.align ∣ e.size

/-- The cells of several values behind one another. -/
def encodeAll (e : Element α) (vs : List α) : List Cell := vs.flatMap e.encode

/-! ## Numbers -/

/-- The `n` lowest bytes of a number, the lowest first. -/
def lowBytes : Nat → Nat → Bytes
  | 0, _ => []
  | n + 1, v => UInt8.ofNat v :: lowBytes n (v / 256)

/-- The number whose bytes these are, the lowest first. -/
def ofLowBytes : Bytes → Nat
  | [] => 0
  | b :: rest => b.toNat + 256 * ofLowBytes rest

/-- Numbers of `n` bytes, through their value as a natural number. -/
def number (n : Nat) (toNat : α → Nat) (ofNat : Nat → α) : Element α where
  size := n
  align := n
  isPlain := true
  encode v := (lowBytes n (toNat v)).map .byte
  decode cells := ofNat (ofLowBytes (cells.map Cell.toByte))

/-- Bytes. -/
def uint8 : Element UInt8 := number 1 UInt8.toNat UInt8.ofNat

/-- Numbers of two bytes. -/
def uint16 : Element UInt16 := number 2 UInt16.toNat UInt16.ofNat

/-- Numbers of four bytes. -/
def uint32 : Element UInt32 := number 4 UInt32.toNat UInt32.ofNat

/-- Numbers of eight bytes. -/
def uint64 : Element UInt64 := number 8 UInt64.toNat UInt64.ofNat

/-- Numbers of sixteen bytes. -/
def uint128 : Element (BitVec 128) := number 16 BitVec.toNat (BitVec.ofNat 128)

/-! ## Compound and opaque values -/

/-- Three bytes, without alignment. -/
def triple : Element (UInt8 × UInt8 × UInt8) where
  size := 3
  align := 1
  isPlain := true
  encode v := [.byte v.1, .byte v.2.1, .byte v.2.2]
  decode cells :=
    match cells.map Cell.toByte with
    | [a, b, c] => (a, b, c)
    | _ => (0, 0, 0)

/-- A byte and a number of four bytes, with three cells of padding between them. -/
def pair : Element (UInt8 × UInt32) where
  size := 8
  align := 4
  isPlain := false
  encode v := .byte v.1 :: .blank :: .blank :: .blank :: uint32.encode v.2
  decode cells := ((cells.headD .blank).toByte, uint32.decode (cells.drop 4))

/-- Texts, of which memory holds a handle of twenty-four cells. -/
def text : Element String where
  size := 24
  align := 8
  isPlain := false
  encode s := (List.range 24).map (.piece s)
  decode
    | .piece s _ :: _ => s
    | _ => ""

/-- Values without content that reserve `size` cells at an alignment. -/
def blank (size align : Nat) : Element Unit where
  size := size
  align := align
  isPlain := false
  encode _ := List.replicate size .blank
  decode _ := ()

end Element

end Lifespan
