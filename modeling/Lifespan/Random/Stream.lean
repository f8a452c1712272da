import Lifespan.Bytes

/-!
# Streams of words

A generator of random numbers that has been seeded is an endless stream of words, of which a reader
takes one after another. All that is ever read off a stream is a function of the position at which
the reading begins, so reading it twice, or reading a part of it, gives the same words.
-/

namespace Lifespan

/-- The word at each position. -/
abbrev WordStream := Nat → UInt32

namespace WordStream

/-- Two words of a stream as one, the low half first. -/
def double (words : WordStream) (i : Nat) : UInt64 :=
  (words i).toUInt64 ||| ((words (i + 1)).toUInt64 <<< 32)

/-- The four bytes of a word, the lowest first. -/
def wordBytes (x : UInt32) : Bytes :=
  [x.toUInt8, (x >>> 8).toUInt8, (x >>> 16).toUInt8, (x >>> 24).toUInt8]

/-- The number of words that hold `n` bytes. -/
def wordsFor (n : Nat) : Nat := (n + 3) / 4

/-- The `n` bytes that start at a word of a stream. What is left of the last word is not used. -/
def bytesAt (words : WordStream) (i n : Nat) : Bytes :=
  ((List.range (wordsFor n)).flatMap fun j => wordBytes (words (i + j))).take n

end WordStream

end Lifespan
