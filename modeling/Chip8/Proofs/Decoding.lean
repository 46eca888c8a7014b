/-
  Chip8.Proofs.Decoding — what a word says about the demands of its instruction.

  An instruction may demand something of the machine that the machine does not have: a call to return
  from, room for a call, or bytes in memory at the index register.  Most demand nothing.  The demand of
  an instruction is read off its constructor, the demand of a word off its digits, and decoding turns the
  one into the other.

  Main statement: `demand?_decode`.
-/
import Chip8.Instruction.Word
import Mathlib.Tactic.IntervalCases

namespace Chip8

open Instruction

/-! ## §1. Demands. -/

/-- What an instruction demands of the machine that runs it. -/
inductive Demand where
  /-- A call to return from. -/
  | openCall
  /-- Room for one more call. -/
  | freeSlot
  /-- So many bytes from the index register on. -/
  | bytes (count : Nat)
  deriving Repr, DecidableEq

/-- The demand of an instruction, if it has one. -/
def Instruction.demand? : Instruction → Option Demand
  | .returnFromCall => some .openCall
  | .call _ => some .freeSlot
  | .draw _ _ n => some (.bytes n.toNat)
  | .storeDecimal _ => some (.bytes 3)
  | .saveRegisters x | .restoreRegisters x => some (.bytes (x.val + 1))
  | _ => none

/-- How many bytes the instruction of a word reads or writes from the index register on: `N` for
    `DXYN`, three for `FX33`, `X + 1` for `FX55` and `FX65`. -/
def Word.reach? (w : Word) : Option Nat :=
  if w.family = 0xD then some w.n.toNat
  else if w.family = 0xF ∧ w.nn.toNat = 0x33 then some 3
  else if w.family = 0xF ∧ (w.nn.toNat = 0x55 ∨ w.nn.toNat = 0x65) then some (w.x.val + 1)
  else none

/-- The demand of a word, read off its digits: `00EE` returns, `2NNN` calls, and some words reach bytes. -/
def Word.demand? (w : Word) : Option Demand :=
  if w = 0x00EE then some .openCall
  else if w.family = 2 then some .freeSlot
  else w.reach?.map .bytes

/-! ## §2. Decoding keeps the demand. -/

/-- The word `00EE` is one of family zero. -/
theorem family_returnWord : Word.family 0x00EE = 0 := rfl

/-- A word of any other family is not `00EE`. -/
theorem ne_returnWord {w : Word} (h : w.family ≠ 0) : w ≠ 0x00EE := by
  intro hw
  rw [hw] at h
  exact h family_returnWord

theorem demand?_decodeSystem {w : Word} (h : w.family = 0) :
    (decodeSystem w).demand? = w.demand? := by
  have hr : w.reach? = none := by simp [Word.reach?, h]
  unfold decodeSystem Word.demand?
  rw [h, hr]
  by_cases h0 : w = 0x00E0
  · subst h0
    rfl
  · by_cases hE : w = 0x00EE
    · subst hE
      rfl
    · simp [h0, hE, Instruction.demand?]

/-- No word of the family demands anything, whatever its last digits. -/
theorem demand?_decodeAlu (w : Word) : (decodeAlu w).demand? = none := by
  unfold decodeAlu
  split <;> rfl

theorem demand?_decodeKey (w : Word) : (decodeKey w).demand? = none := by
  unfold decodeKey
  split <;> rfl

theorem demand?_decodeMisc {w : Word} (h : w.family = 0xF) :
    (decodeMisc w).demand? = w.reach?.map .bytes := by
  unfold decodeMisc Word.reach?
  split <;> rename_i hnn <;> simp_all [Instruction.demand?]

/-- An instruction demands what its word does. -/
theorem demand?_decode (w : Word) : (decode w).demand? = w.demand? := by
  by_cases h0 : w.family = 0
  · rw [← demand?_decodeSystem h0]
    simp only [decode, h0]
  · have hne : w ≠ 0x00EE := ne_returnWord h0
    have hw := w.family_lt
    rw [Word.demand?, if_neg hne]
    -- One case for each family; `8`, `E` and `F` look at more digits than the others.
    interval_cases h : w.family
    case «0» => exact absurd rfl h0
    case «5» =>
      simp only [decode, h]
      split <;> simp [Instruction.demand?, Word.reach?, h]
    case «8» => simpa [decode, h, Word.reach?] using demand?_decodeAlu w
    case «9» =>
      simp only [decode, h]
      split <;> simp [Instruction.demand?, Word.reach?, h]
    case «14» => simpa [decode, h, Word.reach?] using demand?_decodeKey w
    case «15» => simpa [decode, h] using demand?_decodeMisc h
    all_goals simp [decode, h, Instruction.demand?, Word.reach?]

/-! ## §3. Words by their demand. -/

theorem demand?_eq_openCall_iff {w : Word} : w.demand? = some .openCall ↔ w = 0x00EE := by
  unfold Word.demand?
  split
  · simp_all
  · split
    · simp_all
    · simp_all

theorem demand?_eq_freeSlot_iff {w : Word} : w.demand? = some .freeSlot ↔ w.family = 2 := by
  unfold Word.demand?
  split
  · rename_i h
    rw [h, family_returnWord]
    simp
  · split
    · simp_all
    · simp_all

theorem demand?_eq_bytes_iff {w : Word} {count : Nat} :
    w.demand? = some (.bytes count) ↔ w.reach? = some count := by
  unfold Word.demand?
  split
  · rename_i h
    rw [h]
    simp [Word.reach?, family_returnWord]
  · split
    · rename_i h
      simp [Word.reach?, h]
    · simp

/-- No word reaches more bytes than there are registers. -/
theorem reach?_le {w : Word} {count : Nat} (h : w.reach? = some count) : count ≤ 16 := by
  have hx := w.x.isLt
  have hn := w.toNat_n
  unfold Word.reach? at h
  split at h
  · cases h
    omega
  · split at h
    · cases h
      omega
    · split at h
      · cases h
        omega
      · cases h

end Chip8
