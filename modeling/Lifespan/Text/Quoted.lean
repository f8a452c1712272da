import Lifespan.Bytes
import Lifespan.Hex
import Lifespan.Text.Printable

/-!
# Quoted text

Text between double quotes, with whatever would not be seen on a line written as an escape.
Bytes outside printable ASCII are written as two hexadecimal digits after `\x`. In text, a
character that is not printable, or that would attach itself to the quote before it, is written as
its scalar value in hexadecimal between braces after `\u`.
-/

namespace Lifespan.Quoted

/-- One byte between quotes. -/
def escapeByte (b : UInt8) : String :=
  let n := b.toNat
  if n = 0x09 then "\\t"
  else if n = 0x0A then "\\n"
  else if n = 0x0D then "\\r"
  else if n = 0x22 then "\\\""
  else if n = 0x27 then "\\'"
  else if n = 0x5C then "\\\\"
  else if 0x20 ≤ n ∧ n ≤ 0x7E then String.singleton (Char.ofNat n)
  else "\\x" ++ Hex.toText [b]

/-- A byte string between quotes. -/
def ofBytes (bs : Bytes) : String :=
  "\"" ++ String.join (bs.map escapeByte) ++ "\""

/-- A scalar value in hexadecimal between braces. -/
def escapeScalar (n : Nat) : String :=
  "\\u\x7b" ++ String.ofList (Nat.toDigits 16 n) ++ "\x7d"

/-- One character between quotes. -/
def escapeChar (c : Char) : String :=
  if c = '\x00' then "\\0"
  else if c = '\t' then "\\t"
  else if c = '\n' then "\\n"
  else if c = '\r' then "\\r"
  else if c = '"' then "\\\""
  else if c = '\\' then "\\\\"
  else if Text.isPrintable c && !Text.isExtender c then String.singleton c
  else escapeScalar c.toNat

/-- A text between quotes. -/
def ofText (s : String) : String :=
  "\"" ++ String.join (s.toList.map escapeChar) ++ "\""

/-- A list of texts, each between quotes, between brackets. -/
def ofTexts (l : List String) : String :=
  "[" ++ ", ".intercalate (l.map ofText) ++ "]"

end Lifespan.Quoted
