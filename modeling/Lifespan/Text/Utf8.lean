import Lifespan.Bytes

/-!
# UTF-8

Text as bytes, and bytes read back as text. The reader is a machine over single bytes: between
characters it holds nothing, inside one it holds how many bytes are still due and in which range
the next one has to lie. A byte outside that range ends the character as ill-formed and is then
read afresh, so each ill-formed piece is the longest beginning of a well-formed character.
-/

namespace Lifespan.Utf8

/-- The bytes of a text. -/
def encode (s : String) : Bytes :=
  s.toUTF8.data.toList

/-- A character of which some bytes are still due. -/
structure Pending where
  due : Nat
  low : UInt8 := 0x80
  high : UInt8 := 0xBF
  value : Nat

/-- What the first byte of a character says. -/
inductive Lead where
  | whole (c : Char)
  | opens (p : Pending)
  | illFormed

/-- Classifies the first byte of a character. The second byte's range is narrower after `E0`, `ED`,
`F0` and `F4`, which rules out overlong forms, surrogates and values past U+10FFFF. -/
def lead (b : UInt8) : Lead :=
  let n := b.toNat
  if n < 0x80 then .whole (Char.ofNat n)
  else if n < 0xC2 then .illFormed
  else if n < 0xE0 then .opens { due := 1, value := n % 0x20 }
  else if n = 0xE0 then .opens { due := 2, low := 0xA0, value := 0 }
  else if n = 0xED then .opens { due := 2, high := 0x9F, value := n % 0x10 }
  else if n < 0xF0 then .opens { due := 2, value := n % 0x10 }
  else if n = 0xF0 then .opens { due := 3, low := 0x90, value := 0 }
  else if n < 0xF4 then .opens { due := 3, value := n % 8 }
  else if n = 0xF4 then .opens { due := 3, high := 0x8F, value := n % 8 }
  else .illFormed

/-- The characters of the bytes, after what is pending; `none` stands for an ill-formed piece. -/
def piecesFrom : Option Pending → Bytes → List (Option Char)
  | none, [] => []
  | some _, [] => [none]
  | none, b :: rest =>
    match lead b with
    | .whole c => some c :: piecesFrom none rest
    | .opens p => piecesFrom (some p) rest
    | .illFormed => none :: piecesFrom none rest
  | some p, b :: rest =>
    if p.low ≤ b ∧ b ≤ p.high then
      let value := 64 * p.value + b.toNat % 64
      match p.due with
      | 0 | 1 => some (Char.ofNat value) :: piecesFrom none rest
      | due + 2 => piecesFrom (some { due := due + 1, value }) rest
    else
      match lead b with
      | .whole c => none :: some c :: piecesFrom none rest
      | .opens q => none :: piecesFrom (some q) rest
      | .illFormed => none :: none :: piecesFrom none rest

/-- The characters of a byte string; `none` stands for an ill-formed piece. -/
def pieces (bs : Bytes) : List (Option Char) :=
  piecesFrom none bs

/-- The text that the bytes encode, if they are well-formed. -/
def decode? (bs : Bytes) : Option String :=
  ((pieces bs).mapM id).map String.ofList

/-- The text that the bytes encode, with U+FFFD for each ill-formed piece. -/
def decodeLossy (bs : Bytes) : String :=
  String.ofList ((pieces bs).map (·.getD '\uFFFD'))

end Lifespan.Utf8
