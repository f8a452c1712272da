import Lifespan.Random.Stream

/-!
# The ChaCha8 keystream

A keyed block function turns a counter into sixteen words; the blocks for counters 0, 1, 2, …
behind one another are the stream. A generator made from a seed stretches the 64-bit seed into a key
with a linear congruential recurrence whose outputs are folded and rotated.
-/

namespace Lifespan.ChaCha

/-- Four words side by side. -/
structure Row where
  w0 : UInt32
  w1 : UInt32
  w2 : UInt32
  w3 : UInt32
deriving DecidableEq, Repr

namespace Row

/-- Combines two rows word by word. -/
def zipWith (f : UInt32 → UInt32 → UInt32) (r s : Row) : Row :=
  ⟨f r.w0 s.w0, f r.w1 s.w1, f r.w2 s.w2, f r.w3 s.w3⟩

/-- Applies a function to each word. -/
def map (f : UInt32 → UInt32) (r : Row) : Row :=
  ⟨f r.w0, f r.w1, f r.w2, f r.w3⟩

/-- The words moved one place to the left, the first one to the end. -/
def turn (r : Row) : Row := ⟨r.w1, r.w2, r.w3, r.w0⟩

/-- The words of a row, in order. -/
def toList (r : Row) : List UInt32 := [r.w0, r.w1, r.w2, r.w3]

end Row

/-- Sixteen words in four rows. -/
structure Grid where
  a : Row
  b : Row
  c : Row
  d : Row
deriving DecidableEq, Repr

/-- A word with its bits moved `n` places up, those that leave coming in again below. -/
def rotateLeft (n : UInt32) (x : UInt32) : UInt32 := (x <<< n) ||| (x >>> (32 - n))

namespace Grid

/-- Mixes the four words of each column. -/
def mix (g : Grid) : Grid :=
  let a := g.a.zipWith (· + ·) g.b
  let d := (g.d.zipWith (· ^^^ ·) a).map (rotateLeft 16)
  let c := g.c.zipWith (· + ·) d
  let b := (g.b.zipWith (· ^^^ ·) c).map (rotateLeft 12)
  let a := a.zipWith (· + ·) b
  let d := (d.zipWith (· ^^^ ·) a).map (rotateLeft 8)
  let c := c.zipWith (· + ·) d
  let b := (b.zipWith (· ^^^ ·) c).map (rotateLeft 7)
  ⟨a, b, c, d⟩

/-- Mixes the four columns and then the four diagonals. -/
def doubleRound (g : Grid) : Grid :=
  let g := g.mix
  let g := mix ⟨g.a, g.b.turn, g.c.turn.turn, g.d.turn.turn.turn⟩
  ⟨g.a, g.b.turn.turn.turn, g.c.turn.turn, g.d.turn⟩

/-- Adds two grids word by word. -/
def add (g h : Grid) : Grid :=
  ⟨g.a.zipWith (· + ·) h.a, g.b.zipWith (· + ·) h.b, g.c.zipWith (· + ·) h.c,
    g.d.zipWith (· + ·) h.d⟩

/-- The words of a grid, row after row. -/
def toList (g : Grid) : List UInt32 :=
  g.a.toList ++ g.b.toList ++ g.c.toList ++ g.d.toList

end Grid

/-- Eight key words. -/
structure Key where
  low : Row
  high : Row
deriving DecidableEq, Repr

/-- The grid for one counter value: four constant words, the key, the counter's two halves, and a
stream number of zero. -/
def initial (key : Key) (counter : UInt64) : Grid where
  a := ⟨0x61707865, 0x3320646e, 0x79622d32, 0x6b206574⟩
  b := key.low
  c := key.high
  d := ⟨counter.toUInt32, (counter >>> 32).toUInt32, 0, 0⟩

/-- The sixteen words for one counter value: eight rounds, added to the grid they started from. -/
def block (key : Key) (counter : UInt64) : List UInt32 :=
  let g := initial key counter
  (g.doubleRound.doubleRound.doubleRound.doubleRound.add g).toList

/-- The blocks behind one another. -/
def keystream (key : Key) : WordStream := fun i =>
  (block key (UInt64.ofNat (i / 16)))[i % 16]?.getD 0

/-! ## Seeds -/

/-- One step of the recurrence that stretches a seed. -/
def advanceSeed (s : UInt64) : UInt64 := s * 6364136223846793005 + 11634580027462260723

/-- The output of a state of the recurrence: its bits folded, and rotated down by its top five. -/
def outputOfSeed (s : UInt64) : UInt32 :=
  let x := (((s >>> 18) ^^^ s) >>> 27).toUInt32
  let n := (s >>> 59).toUInt32
  (x >>> n) ||| (x <<< ((32 - n) % 32))

/-- The key for a seed: the outputs of eight steps. -/
def keyOfSeed (seed : UInt64) : Key :=
  let s1 := advanceSeed seed
  let s2 := advanceSeed s1
  let s3 := advanceSeed s2
  let s4 := advanceSeed s3
  let s5 := advanceSeed s4
  let s6 := advanceSeed s5
  let s7 := advanceSeed s6
  let s8 := advanceSeed s7
  ⟨⟨outputOfSeed s1, outputOfSeed s2, outputOfSeed s3, outputOfSeed s4⟩,
    ⟨outputOfSeed s5, outputOfSeed s6, outputOfSeed s7, outputOfSeed s8⟩⟩

/-- The stream for a seed. -/
def ofSeed (seed : UInt64) : WordStream := keystream (keyOfSeed seed)

end Lifespan.ChaCha
