import Lifespan.Bytes

/-!
# Hexadecimal text

Each byte is written as two digits, the high half first. Writing uses `0`–`9` and `a`–`f`; reading
takes capital letters as well. Hexadecimal text is itself a byte string, so it can be sliced,
compared and searched like any other.
-/

namespace Lifespan.Hex

/-- Why a byte string is no hexadecimal text. -/
inductive DecodeError where
  | oddLength (length : Nat)
  | invalidDigit (index : Nat) (byte : UInt8)
deriving DecidableEq, Repr

/-- The digit for a value below sixteen. -/
def digit (n : Nat) : UInt8 :=
  UInt8.ofNat (if n < 10 then 0x30 + n else 0x57 + n)

/-- The value of a digit. -/
def value? (d : UInt8) : Option Nat :=
  let n := d.toNat
  if 0x30 ≤ n ∧ n ≤ 0x39 then some (n - 0x30)
  else if 0x61 ≤ n ∧ n ≤ 0x66 then some (n - 0x57)
  else if 0x41 ≤ n ∧ n ≤ 0x46 then some (n - 0x37)
  else none

/-- The two digits of a byte. -/
def encodeByte (b : UInt8) : Bytes :=
  [digit (b.toNat / 16), digit (b.toNat % 16)]

/-- The hexadecimal text of a byte string. -/
def encode (bs : Bytes) : Bytes :=
  bs.flatMap encodeByte

/-- Reads pairs of digits, the first of which stands at `index` of the whole text. -/
def decodePairs (index : Nat) : Bytes → Except DecodeError Bytes
  | high :: low :: rest =>
    match value? high, value? low with
    | none, _ => .error (.invalidDigit index high)
    | some _, none => .error (.invalidDigit (index + 1) low)
    | some h, some l =>
      match decodePairs (index + 2) rest with
      | .error e => .error e
      | .ok bs => .ok (UInt8.ofNat (16 * h + l) :: bs)
  | _ => .ok []

/-- The bytes that a hexadecimal text stands for. -/
def decode (text : Bytes) : Except DecodeError Bytes :=
  if text.length % 2 = 1 then .error (.oddLength text.length) else decodePairs 0 text

/-- The hexadecimal text of a byte string, as characters. -/
def toText (bs : Bytes) : String :=
  String.ofList ((encode bs).map fun d => Char.ofNat d.toNat)

/-- The text of a refusal. -/
def DecodeError.message : DecodeError → String
  | oddLength length => s!"hex input has odd length {length}"
  | invalidDigit index byte => s!"invalid hex digit 0x{toText [byte]} at index {index}"

end Lifespan.Hex
