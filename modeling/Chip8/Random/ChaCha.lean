/-
  Chip8.Random.ChaCha — the block function of the ChaCha stream generator with twelve rounds.

  A block is a function of a key of eight words and a 64-bit block number.  The state is a square of
  sixteen words: four constants, the key, the block number in two words, and two zeros.  Six double
  rounds stir it, and the stirred state is added to the one at the start.
-/

namespace Chip8

namespace ChaCha

/-- A key. -/
abbrev Key := Vector UInt32 8

/-- A state or a block of output. -/
abbrev Block := Vector UInt32 16

/-- The number of double rounds. -/
def doubleRounds : Nat := 6

/-- A word rotated to the left. -/
def rotateLeft (word count : UInt32) : UInt32 := (word <<< count) ||| (word >>> (32 - count))

/-- Stirs four words of a state. -/
def quarterRound (s : Block) (a b c d : Fin 16) : Block :=
  let s := s.set a (s[a] + s[b])
  let s := s.set d (rotateLeft (s[d] ^^^ s[a]) 16)
  let s := s.set c (s[c] + s[d])
  let s := s.set b (rotateLeft (s[b] ^^^ s[c]) 12)
  let s := s.set a (s[a] + s[b])
  let s := s.set d (rotateLeft (s[d] ^^^ s[a]) 8)
  let s := s.set c (s[c] + s[d])
  s.set b (rotateLeft (s[b] ^^^ s[c]) 7)

/-- Stirs the four columns and then the four diagonals. -/
def doubleRound (s : Block) : Block :=
  let s := quarterRound s 0 4 8 12
  let s := quarterRound s 1 5 9 13
  let s := quarterRound s 2 6 10 14
  let s := quarterRound s 3 7 11 15
  let s := quarterRound s 0 5 10 15
  let s := quarterRound s 1 6 11 12
  let s := quarterRound s 2 7 8 13
  quarterRound s 3 4 9 14

/-- The state from which a block is computed. -/
def initialState (key : Key) (number : UInt64) : Block :=
  #v[0x61707865, 0x3320646E, 0x79622D32, 0x6B206574,
     key[0], key[1], key[2], key[3], key[4], key[5], key[6], key[7],
     number.toUInt32, (number >>> 32).toUInt32, 0, 0]

/-- The block of a key with a given number. -/
def block (key : Key) (number : UInt64) : Block :=
  let start := initialState key number
  Vector.zipWith (· + ·) (Nat.repeat doubleRound doubleRounds start) start

end ChaCha

end Chip8
