/-
  Chip8.Random.Stream — the random bytes of a seed, as a sequence.

  A seed is expanded into a key by eight steps of a linear congruential generator, each of which gives one
  permuted word.  The sequence of a key is the words of its blocks in order, and each word gives its low
  byte.  `byte seed k` names the `k`-th byte directly, without the bytes before it.
-/
import Chip8.Random.ChaCha

namespace Chip8

namespace Random

/-! ## §1. Keys. -/

/-- One step of the generator that expands seeds. -/
def advanceSeed (state : UInt64) : UInt64 := state * 6364136223846793005 + 11634580027462260723

/-- A word rotated to the right. -/
def rotateRight (word count : UInt32) : UInt32 := (word >>> count) ||| (word <<< (32 - count))

/-- The word that a generator state gives: bits folded together and rotated by the top five bits. -/
def permuteState (state : UInt64) : UInt32 :=
  rotateRight (((state >>> 18) ^^^ state) >>> 27).toUInt32 (state >>> 59).toUInt32

/-- The key of a seed. -/
def keyOfSeed (seed : UInt64) : ChaCha.Key :=
  Vector.ofFn fun i : Fin 8 => permuteState (Nat.repeat advanceSeed (i.val + 1) seed)

/-! ## §2. The sequence. -/

/-- The `k`-th word of a key's sequence. -/
def word (key : ChaCha.Key) (k : Nat) : UInt32 :=
  (ChaCha.block key (UInt64.ofNat (k / 16)))[k % 16]

/-- The `k`-th random byte of a seed. -/
def byte (seed : UInt64) (k : Nat) : UInt8 := (word (keyOfSeed seed) k).toUInt8

end Random

end Chip8
