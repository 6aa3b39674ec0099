import Chip8.ChaCha

/-!
# Random bytes

A source of reproducible random bytes: the stream of a key, and a position in it. Each byte is the
low byte of one word of the stream. A seed fixes the key, and with it the whole sequence.

## Shape of a seed

A seed of 64 bits is stretched to a key of eight words by a counter that is multiplied and shifted
at each step; a word is taken from the upper bits of the counter, turned by its highest five bits.
-/

namespace Chip8

/-- The state of a source of random bytes. -/
structure RandomSource where
  key : ChaCha.Key
  /-- The number of words taken so far. -/
  position : Nat
deriving DecidableEq

namespace RandomSource

/-- The next state of the counter that stretches a seed. -/
def advance (state : UInt64) : UInt64 :=
  state * 6364136223846793005 + 11634580027462260723

/-- The word that a state of the counter gives. -/
def output (state : UInt64) : UInt32 :=
  let folded := (((state >>> 18) ^^^ state) >>> 27).toUInt32
  let turn := (state >>> 59).toUInt32
  (folded >>> turn) ||| (folded <<< (32 - turn))

/-- The counter after a number of steps from a seed. -/
def counter (seed : UInt64) : Nat → UInt64
  | 0 => seed
  | n + 1 => advance (counter seed n)

/-- The key that a seed is stretched to. -/
def keyOf (seed : UInt64) : ChaCha.Key :=
  Vector.ofFn fun k => output (counter seed (k.val + 1))

/-- The source whose sequence is fixed by a seed. -/
def ofSeed (seed : UInt64) : RandomSource :=
  ⟨keyOf seed, 0⟩

/-- The next byte, and the source after it. -/
def next (s : RandomSource) : UInt8 × RandomSource :=
  ((ChaCha.word s.key s.position).toUInt8, { s with position := s.position + 1 })

end RandomSource

end Chip8
