/-!
# The ChaCha block function

The block function of the ChaCha stream cipher with twelve rounds. A key of eight words and the
number of a block give sixteen words that look random.

## Shape of a block

The state is sixteen words: four constants, the key, the number of the block, and two words of zero.
A quarter round stirs four of them. A double round stirs the four columns of the state, written as a
square, and then its four diagonals. After six double rounds the initial state is added, which makes
the whole one-way.
-/

namespace Chip8.ChaCha

/-- The words that a block is computed on. -/
abbrev State := Vector UInt32 16

/-- The words of a key. -/
abbrev Key := Vector UInt32 8

/-- A word turned left by a number of bits from 1 to 31. -/
def rotateLeft (w bits : UInt32) : UInt32 :=
  (w <<< bits) ||| (w >>> (32 - bits))

/-- Adds word `j` to word `i`, and mixes the sum into word `k`, which is then turned. -/
def stir (s : State) (i j k : Fin 16) (bits : UInt32) : State :=
  let sum := s[i] + s[j]
  (s.set i sum).set k (rotateLeft (s[k] ^^^ sum) bits)

/-- Stirs four words. -/
def quarterRound (s : State) (a b c d : Fin 16) : State :=
  let s := stir s a b d 16
  let s := stir s c d b 12
  let s := stir s a b d 8
  stir s c d b 7

/-- Stirs the columns, then the diagonals. -/
def doubleRound (s : State) : State :=
  let s := quarterRound s 0 4 8 12
  let s := quarterRound s 1 5 9 13
  let s := quarterRound s 2 6 10 14
  let s := quarterRound s 3 7 11 15
  let s := quarterRound s 0 5 10 15
  let s := quarterRound s 1 6 11 12
  let s := quarterRound s 2 7 8 13
  quarterRound s 3 4 9 14

/-- A number of double rounds. -/
def doubleRounds : Nat → State → State
  | 0, s => s
  | n + 1, s => doubleRounds n (doubleRound s)

/-- The state that a block starts from. -/
def initial (key : Key) (number : UInt64) : State :=
  #v[0x61707865, 0x3320646E, 0x79622D32, 0x6B206574,
    key[0], key[1], key[2], key[3], key[4], key[5], key[6], key[7],
    number.toUInt32, (number >>> 32).toUInt32, 0, 0]

/-- The words of a block. -/
def block (key : Key) (number : UInt64) : State :=
  let s := initial key number
  Vector.zipWith (· + ·) (doubleRounds 6 s) s

/-- One word of the stream that the blocks of a key make up, in the order of their numbers. -/
def word (key : Key) (position : Nat) : UInt32 :=
  (block key (UInt64.ofNat (position / 16)))[position % 16]

end Chip8.ChaCha
