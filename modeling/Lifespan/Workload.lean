import Lifespan.Fault
import Lifespan.Random.ChaCha
import Lifespan.Text.Utf8

/-!
# Workloads

Inputs for measuring, each drawn from the stream of words that a generator makes of a seed, so that
a seed always gives the same workload and a longer workload begins with the shorter one. Nothing is
asked of the generator, which is ChaCha unless another one is given.
-/

namespace Lifespan.Workload

open WordStream (wordsFor)

/-- The size above which a request counts as large. -/
def smallMaximum : Nat := 64

/-- The size of request `i`: one word decides whether it may be large, the next two give the size.
-/
def requestSize (words : WordStream) (maximum i : Nat) : Nat :=
  let bound := if (words (3 * i)).toNat % 4 = 0 then maximum else min maximum smallMaximum
  1 + (words.double (3 * i + 1)).toNat % bound

/-- The sizes of `n` requests, each from 1 to `maximum`. -/
def requestSizes (seed : UInt64) (n maximum : Nat)
    (generator : UInt64 → WordStream := ChaCha.ofSeed) : Except Fault (List Nat) :=
  if maximum = 0 then .error .zeroMaximum
  else .ok ((List.range n).map (requestSize (generator seed) maximum))

/-- The number of digits to which key numbers are padded. -/
def keyDigits : Nat := 8

/-- The key with number `i`: its decimal digits, padded with zeros to `keyDigits`, after `key`. -/
def keyText (i : Nat) : String :=
  let digits := Nat.toDigits 10 i
  "key" ++ String.ofList (List.replicate (keyDigits - digits.length) '0' ++ digits)

/-- The length of the value whose draw begins at a word of the stream. -/
def valueLength (words : WordStream) (position : Nat) : Nat :=
  16 + (words position).toNat % 113

/-- The `n` pairs from number `i` on, drawn from the stream from `position` on: one word for the
length of a value, then the words of its bytes. -/
def pairsFrom (words : WordStream) (position i : Nat) : Nat → List (Bytes × Bytes)
  | 0 => []
  | n + 1 =>
    let length := valueLength words position
    (Utf8.encode (keyText i), words.bytesAt (position + 1) length) ::
      pairsFrom words (position + 1 + wordsFor length) (i + 1) n

/-- The first `n` pairs of numbered keys and random values. -/
def keyValues (seed : UInt64) (n : Nat) (generator : UInt64 → WordStream := ChaCha.ofSeed) :
    List (Bytes × Bytes) :=
  pairsFrom (generator seed) 0 0 n

/-- The first `n` bytes of the stream. -/
def randomBytes (seed : UInt64) (n : Nat) (generator : UInt64 → WordStream := ChaCha.ofSeed) :
    Bytes :=
  (generator seed).bytesAt 0 n

end Lifespan.Workload
