/-
  Chip8.Proofs.Encoding — an instruction writes back the word that it was read from.

  Decoding takes a word apart into its fields and encoding puts the fields together again.  What a word
  leaves out of its instruction, the digits that select it, encoding supplies from the constructor; so
  the word comes back whole, and no two words are read as the same instruction.

  Main statement: `encode_decode`.
-/
import Chip8.Instruction.Word
import Mathlib.Tactic.IntervalCases

namespace Chip8

open Instruction

variable {w : Word} {family : Nat}

/-! ## §1. Words put together from their own fields. -/

namespace Word

/-- A word is its family and its last three digits. -/
theorem ofNNN_eq (hf : w.family = family) : ofNNN family w.nnn = w := by
  have hw : w.toNat < 65536 := w.toNat_lt
  apply UInt16.toNat_inj.mp
  rw [ofNNN, ← hf, toNat_nnn, UInt16.toNat_ofNat', Word.family]
  omega

/-- A word is its family, its second digit and its last two digits. -/
theorem ofXNN_eq (hf : w.family = family) {nn : UInt8} (hnn : w.nn.toNat = nn.toNat) :
    ofXNN family w.x nn = w := by
  have hw : w.toNat < 65536 := w.toNat_lt
  apply UInt16.toNat_inj.mp
  rw [ofXNN, ← hf, ← hnn, toNat_nn, UInt16.toNat_ofNat', Word.family]
  show (_ + w.toNat / 0x100 % 16 * 0x100 + _) % _ = _
  omega

/-- A word is its four digits. -/
theorem ofXYN_eq (hf : w.family = family) {n : Nat} (hn : w.n.toNat = n) :
    ofXYN family w.x w.y n = w := by
  have hw : w.toNat < 65536 := w.toNat_lt
  have hdigits := w.toNat_eq_digits
  have hlast := w.toNat_n
  apply UInt16.toNat_inj.mp
  rw [ofXYN, ← hf, ← hn, UInt16.toNat_ofNat']
  omega

end Word

/-! ## §2. The families that look at more digits than the first. -/

theorem encode_decodeSystem (hf : w.family = 0x0) : (decodeSystem w).encode = w := by
  unfold decodeSystem
  split
  · rename_i h
    exact h.symm
  · split
    · rename_i h
      exact h.symm
    · exact Word.ofNNN_eq hf

theorem encode_decodeAlu (hf : w.family = 0x8) : (decodeAlu w).encode = w := by
  unfold decodeAlu
  split
  · rename_i op hop
    exact Word.ofXYN_eq hf (ByteOp.digit_of_ofDigit? hop).symm
  · rfl

theorem encode_decodeKey (hf : w.family = 0xE) : (decodeKey w).encode = w := by
  unfold decodeKey
  split
  · rename_i hnn
    exact Word.ofXNN_eq hf hnn
  · rename_i hnn
    exact Word.ofXNN_eq hf hnn
  · rfl

theorem encode_decodeMisc (hf : w.family = 0xF) : (decodeMisc w).encode = w := by
  unfold decodeMisc
  split
  -- The last case is the words outside the table.
  case h_10 => rfl
  all_goals
    rename_i hnn
    exact Word.ofXNN_eq hf hnn

/-! ## §3. The round trip. -/

/-- An instruction writes back the word that it was read from. -/
@[simp] theorem encode_decode (w : Word) : (decode w).encode = w := by
  have hw := w.family_lt
  interval_cases h : w.family
  case «0» => simpa only [decode, h] using encode_decodeSystem h
  case «5» =>
    simp only [decode, h]
    split
    · rename_i hn
      exact Word.ofXYN_eq h (congrArg UInt8.toNat hn)
    · rfl
  case «8» => simpa only [decode, h] using encode_decodeAlu h
  case «9» =>
    simp only [decode, h]
    split
    · rename_i hn
      exact Word.ofXYN_eq h (congrArg UInt8.toNat hn)
    · rfl
  case «13» => simpa only [decode, h, encode] using Word.ofXYN_eq h rfl
  case «14» => simpa only [decode, h] using encode_decodeKey h
  case «15» => simpa only [decode, h] using encode_decodeMisc h
  case «1» | «2» | «10» | «11» => simpa only [decode, h, encode] using Word.ofNNN_eq h
  case «3» | «4» | «6» | «7» | «12» => simpa only [decode, h, encode] using Word.ofXNN_eq h rfl

/-- No two words are read as the same instruction. -/
theorem decode_injective : Function.Injective decode :=
  Function.LeftInverse.injective encode_decode

/-- A word that is read as one outside the table is that word itself. -/
theorem isUnknown_decode_iff : (decode w).isUnknown = true ↔ decode w = .unknown w := by
  constructor
  · intro h
    cases hi : decode w with
    | unknown word =>
      have hword : (decode w).encode = word := congrArg encode hi
      rw [encode_decode] at hword
      rw [hword]
    | _ =>
      rw [hi] at h
      cases h
  · intro h
    rw [h]
    rfl

end Chip8
