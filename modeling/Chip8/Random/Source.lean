/-
  Chip8.Random.Source — the random bytes of a seed, drawn one at a time.

  A source keeps the block that it is working through and computes the next one when that is used up.

  Main statement: `Source.Follows.next`, drawing gives the next byte of the sequence and keeps the source
  at its place in it.
-/
import Chip8.Random.Stream

namespace Chip8

namespace Random

/-- A place in a key's sequence. -/
structure Source where
  key : ChaCha.Key
  /-- The number of the block after the present one. -/
  nextBlock : UInt64
  /-- The present block. -/
  buffer : ChaCha.Block
  /-- How many words of the present block are used up. -/
  used : Nat
  deriving Repr, DecidableEq

namespace Source

/-! ## §1. Operations. -/

/-- The source at the start of a seed's sequence. -/
def ofSeed (seed : UInt64) : Source :=
  { key := keyOfSeed seed, nextBlock := 0, buffer := Vector.replicate 16 0, used := 16 }

/-- The next random byte, which takes a whole word, and the source after it. -/
def next (s : Source) : UInt8 × Source :=
  if h : s.used < 16 then
    (s.buffer[s.used].toUInt8, { s with used := s.used + 1 })
  else
    let block := ChaCha.block s.key s.nextBlock
    (block[0].toUInt8,
      { s with nextBlock := s.nextBlock + 1, buffer := block, used := 1 })

/-! ## §2. A source follows its sequence. -/

/-- Says that `k` bytes of the seed's sequence were drawn from the source: the present block is the one
    that holds the next word, or it is used up and the next block holds it. -/
def Follows (s : Source) (seed : UInt64) (k : Nat) : Prop :=
  s.key = keyOfSeed seed ∧
    ((s.used < 16 ∧ s.used = k % 16 ∧ s.nextBlock = UInt64.ofNat (k / 16) + 1 ∧
        s.buffer = ChaCha.block s.key (UInt64.ofNat (k / 16))) ∨
      (s.used = 16 ∧ k % 16 = 0 ∧ s.nextBlock = UInt64.ofNat (k / 16)))

/-- A fresh source follows its sequence from the start. -/
theorem follows_ofSeed (seed : UInt64) : (ofSeed seed).Follows seed 0 :=
  ⟨rfl, .inr ⟨rfl, rfl, rfl⟩⟩

/-- A source that follows the sequence gives its next byte and follows it one place on. -/
theorem Follows.next {s : Source} {seed : UInt64} {k : Nat} (h : s.Follows seed k) :
    s.next.1 = byte seed k ∧ s.next.2.Follows seed (k + 1) := by
  obtain ⟨hkey, ⟨hlt, hused, hblock, hbuffer⟩ | ⟨hused, hk, hblock⟩⟩ := h
  -- The present block still holds a word; after it the block is used up or it is not.
  · rw [Source.next, dif_pos hlt]
    refine ⟨?_, hkey, ?_⟩
    · simp only [byte, word, hbuffer, hkey, hused]
    · by_cases hlast : k % 16 = 15
      · refine .inr ⟨by simp only [hused]; omega, by omega, ?_⟩
        simp only [hblock]
        rw [show (k + 1) / 16 = k / 16 + 1 by omega, UInt64.ofNat_add]
        rfl
      · refine .inl ⟨by simp only; omega, by simp only; omega, ?_, ?_⟩
        · simp only [hblock]
          rw [show (k + 1) / 16 = k / 16 by omega]
        · simp only [hbuffer]
          rw [show (k + 1) / 16 = k / 16 by omega]
  -- The present block is used up, and the next one gives its first word.
  · rw [Source.next, dif_neg (by omega)]
    refine ⟨?_, hkey, ?_⟩
    · simp only [byte, word, hk, hblock, hkey]
    · refine .inl ⟨by simp only; omega, by simp only; omega, ?_, ?_⟩
      · simp only [hblock]
        rw [show (k + 1) / 16 = k / 16 by omega]
      · simp only [hblock]
        rw [show (k + 1) / 16 = k / 16 by omega]

end Source

end Random

end Chip8
