/-
  Chip8.Proofs.Spelling — the instructions that words spell.

  An instruction has more room than a word: an address operand is sixteen bits wide and a sprite height
  eight, and nothing keeps the operand of one instruction from being the word of another.  Encoding drops
  what a word has no room for, so that decoding may come back with another instruction.  CANONICAL
  instructions are those that come back, and they are the ones that words spell.

  Main statements: `decode_eq_unknown_iff` (the words outside the table), `decode_encode_iff` (what comes
  back) and `canonical_iff_exists_decode`.
-/
import Chip8.Proofs.Encoding

namespace Chip8

open Instruction

/-! ## §1. Fields of composed words. -/

namespace Word

variable {family : Nat}

/-- The family of a composed word is read back, if it is a digit. -/
theorem family_ofNNN (hf : family < 0x10) (nnn : UInt16) : (ofNNN family nnn).family = family := by
  simp only [ofNNN, Word.family, UInt16.toNat_ofNat']
  omega

/-- An address operand is read back if it has no more than three digits. -/
theorem nnn_ofNNN_eq_iff {nnn : UInt16} : (ofNNN family nnn).nnn = nnn ↔ nnn ≤ 0xFFF := by
  rw [← UInt16.toNat_inj, toNat_nnn, ofNNN, UInt16.toNat_ofNat', UInt16.le_iff_toNat_le]
  show _ ↔ nnn.toNat ≤ 4095
  omega

/-- The word of family zero is its operand. -/
theorem ofNNN_zero {nnn : UInt16} (h : nnn ≤ 0xFFF) : ofNNN 0x0 nnn = nnn := by
  have hn : nnn.toNat ≤ 0xFFF := UInt16.le_iff_toNat_le.mp h
  apply UInt16.toNat_inj.mp
  rw [ofNNN, UInt16.toNat_ofNat']
  omega

theorem family_ofXNN (hf : family < 0x10) (x : Register) (nn : UInt8) :
    (ofXNN family x nn).family = family := by
  have hx := x.isLt
  have hn : nn.toNat < 256 := nn.toNat_lt
  simp only [ofXNN, Word.family, UInt16.toNat_ofNat']
  omega

@[simp] theorem x_ofXNN (family : Nat) (x : Register) (nn : UInt8) : (ofXNN family x nn).x = x := by
  have hx := x.isLt
  have hn : nn.toNat < 256 := nn.toNat_lt
  apply Fin.ext
  simp only [ofXNN, Word.x, UInt16.toNat_ofNat', Fin.ofNat]
  omega

@[simp] theorem nn_ofXNN (family : Nat) (x : Register) (nn : UInt8) : (ofXNN family x nn).nn = nn := by
  have hn : nn.toNat < 256 := nn.toNat_lt
  rw [← UInt8.toNat_inj, toNat_nn, ofXNN, UInt16.toNat_ofNat']
  omega

theorem family_ofXYN (hf : family < 0x10) (x y : Register) (n : Nat) :
    (ofXYN family x y n).family = family := by
  have hx := x.isLt
  have hy := y.isLt
  simp only [ofXYN, Word.family, UInt16.toNat_ofNat']
  omega

@[simp] theorem x_ofXYN (family : Nat) (x y : Register) (n : Nat) : (ofXYN family x y n).x = x := by
  have hx := x.isLt
  have hy := y.isLt
  apply Fin.ext
  simp only [ofXYN, Word.x, UInt16.toNat_ofNat', Fin.ofNat]
  omega

@[simp] theorem y_ofXYN (family : Nat) (x y : Register) (n : Nat) : (ofXYN family x y n).y = y := by
  have hy := y.isLt
  apply Fin.ext
  simp only [ofXYN, Word.y, UInt16.toNat_ofNat', Fin.ofNat]
  omega

@[simp] theorem toNat_n_ofXYN (family : Nat) (x y : Register) (n : Nat) :
    (ofXYN family x y n).n.toNat = n % 0x10 := by
  rw [toNat_n, ofXYN, UInt16.toNat_ofNat']
  omega

theorem n_ofXYN_eq_iff {family : Nat} {x y : Register} {n : UInt8} :
    (ofXYN family x y n.toNat).n = n ↔ n ≤ 0xF := by
  rw [← UInt8.toNat_inj, toNat_n_ofXYN, UInt8.le_iff_toNat_le]
  show _ ↔ n.toNat ≤ 15
  omega

@[simp] theorem n_ofXYN_zero (family : Nat) (x y : Register) : (ofXYN family x y 0).n = 0 := by
  rw [← UInt8.toNat_inj, toNat_n_ofXYN]
  rfl

end Word

/-! ## §2. Words outside the table. -/

namespace Word

/-- Says of a word that it is outside the instruction table: the last digits that its family looks at
    select no instruction. -/
def Outside (w : Word) : Prop :=
  (w.family = 0x5 ∨ w.family = 0x9) ∧ w.n.toNat ≠ 0 ∨
  w.family = 0x8 ∧ (0x8 ≤ w.n.toNat ∧ w.n.toNat ≤ 0xD ∨ w.n.toNat = 0xF) ∨
  w.family = 0xE ∧ w.nn.toNat ∉ [0x9E, 0xA1] ∨
  w.family = 0xF ∧ w.nn.toNat ∉ [0x07, 0x0A, 0x15, 0x18, 0x1E, 0x29, 0x33, 0x55, 0x65]

instance decidableOutside : DecidablePred Outside := fun _ => inferInstanceAs (Decidable (_ ∨ _))

end Word

variable {w : Word}

/-- Only the digits `8` to `D` and `F` select no operation. -/
theorem ByteOp.ofDigit?_eq_none_iff {n : Nat} (h : n < 0x10) :
    ofDigit? n = none ↔ 0x8 ≤ n ∧ n ≤ 0xD ∨ n = 0xF := by
  interval_cases n <;> decide

/-- In the families that look at more digits than the first, what is left over is outside the table. -/
theorem decodeAlu_eq_unknown_iff :
    decodeAlu w = .unknown w ↔ 0x8 ≤ w.n.toNat ∧ w.n.toNat ≤ 0xD ∨ w.n.toNat = 0xF := by
  have hn : w.n.toNat < 0x10 := by
    rw [w.toNat_n]
    omega
  rw [← ByteOp.ofDigit?_eq_none_iff hn, decodeAlu]
  split
  · rename_i h
    simp [h]
  · rename_i h
    simp [h]

theorem decodeKey_eq_unknown_iff : decodeKey w = .unknown w ↔ w.nn.toNat ∉ [0x9E, 0xA1] := by
  unfold decodeKey
  split <;> simp_all

theorem decodeMisc_eq_unknown_iff :
    decodeMisc w = .unknown w ↔
      w.nn.toNat ∉ [0x07, 0x0A, 0x15, 0x18, 0x1E, 0x29, 0x33, 0x55, 0x65] := by
  unfold decodeMisc
  split <;> simp_all

theorem decodeSystem_ne_unknown : decodeSystem w ≠ .unknown w := by
  unfold decodeSystem
  split
  · nofun
  · split <;> nofun

/-- The words outside the table are those that are read as such. -/
theorem decode_eq_unknown_iff : decode w = .unknown w ↔ w.Outside := by
  have hw := w.family_lt
  have hn : w.n = 0 ↔ w.n.toNat = 0 := UInt8.toNat_inj.symm
  unfold Word.Outside
  interval_cases h : w.family
  case «0» => simpa [decode, h] using decodeSystem_ne_unknown
  case «5» | «9» => by_cases hz : w.n.toNat = 0 <;> simp [decode, h, hn, hz]
  case «8» => simpa [decode, h] using decodeAlu_eq_unknown_iff
  case «14» => simpa [decode, h] using decodeKey_eq_unknown_iff
  case «15» => simpa [decode, h] using decodeMisc_eq_unknown_iff
  all_goals simp [decode, h]

/-! ## §3. Canonical instructions. -/

namespace Instruction

/-- Says of an instruction that its operands fit in a word and that the word is not another's. -/
def Canonical : Instruction → Prop
  | .system nnn => nnn ≤ 0xFFF ∧ nnn ≠ 0x0E0 ∧ nnn ≠ 0x0EE
  | .jump nnn | .call nnn | .setIndex nnn | .jumpPlus nnn => nnn ≤ 0xFFF
  | .draw _ _ n => n ≤ 0xF
  | .unknown word => Word.Outside word
  | _ => True

instance decidableCanonical : DecidablePred Canonical
  | .system _ => inferInstanceAs (Decidable (_ ∧ _))
  | .jump nnn | .call nnn | .setIndex nnn | .jumpPlus nnn => inferInstanceAs (Decidable (nnn ≤ 0xFFF))
  | .draw _ _ n => inferInstanceAs (Decidable (n ≤ 0xF))
  | .unknown word => inferInstanceAs (Decidable (Word.Outside word))
  | .clearScreen | .returnFromCall | .skipEqByte _ _ | .skipNeByte _ _ | .skipEq _ _ | .loadByte _ _
  | .addByte _ _ | .combine _ _ _ | .skipNe _ _ | .random _ _ | .skipHeld _ | .skipNotHeld _
  | .getDelay _ | .takeKey _ | .setDelay _ | .setSound _ | .addIndex _ | .pointToGlyph _
  | .storeDecimal _ | .saveRegisters _ | .restoreRegisters _ => isTrue trivial

/-! ## §4. What comes back. -/

theorem decodeSystem_eq_system_iff {nnn : UInt16} :
    decodeSystem w = .system nnn ↔ w ≠ 0x00E0 ∧ w ≠ 0x00EE ∧ w.nnn = nnn := by
  unfold decodeSystem
  split
  · simp_all
  · split
    · simp_all
    · simp_all

/-- An instruction of family zero is read back if its operand has three digits and is not the word of
    another. -/
theorem decode_encode_system {nnn : UInt16} :
    decode (encode (.system nnn)) = .system nnn ↔ (system nnn).Canonical := by
  have hd : decode (encode (.system nnn)) = decodeSystem (.ofNNN 0x0 nnn) := by
    simp only [encode, decode, Word.family_ofNNN (show 0x0 < 0x10 by decide)]
  rw [hd, decodeSystem_eq_system_iff, Word.nnn_ofNNN_eq_iff, Canonical]
  constructor
  · intro h
    obtain ⟨hE0, hEE, hn⟩ := h
    rw [Word.ofNNN_zero hn] at hE0 hEE
    exact ⟨hn, hE0, hEE⟩
  · intro h
    obtain ⟨hn, hE0, hEE⟩ := h
    rw [Word.ofNNN_zero hn]
    exact ⟨hE0, hEE, hn⟩

/-- An instruction is read back from its word exactly if it is canonical. -/
theorem decode_encode_iff {i : Instruction} : decode i.encode = i ↔ i.Canonical := by
  cases i with
  | clearScreen | returnFromCall => exact iff_of_true rfl trivial
  | system nnn => exact decode_encode_system
  | jump nnn | call nnn | setIndex nnn | jumpPlus nnn =>
    simp [encode, decode, Canonical, Word.family_ofNNN, Word.nnn_ofNNN_eq_iff]
  | skipEq x y | skipNe x y =>
    simp [encode, decode, Canonical, Word.family_ofXYN]
  | combine op x y =>
    simp [encode, decode, Canonical, Word.family_ofXYN, decodeAlu, Nat.mod_eq_of_lt op.digit_lt]
  | draw x y n =>
    simp [encode, decode, Canonical, Word.family_ofXYN, Word.n_ofXYN_eq_iff]
  | unknown word => exact decode_eq_unknown_iff
  -- The others have a register and perhaps a byte, for which a word always has room.
  | _ => simp [encode, decode, Canonical, Word.family_ofXNN, decodeKey, decodeMisc]

/-- The canonical instructions are those that words spell. -/
theorem canonical_iff_exists_decode {i : Instruction} : i.Canonical ↔ ∃ w, decode w = i := by
  constructor
  · intro h
    exact ⟨i.encode, decode_encode_iff.mpr h⟩
  · rintro ⟨w, rfl⟩
    exact decode_encode_iff.mp (congrArg decode (encode_decode w))

end Instruction

end Chip8
