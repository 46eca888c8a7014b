/-
  Chip8.Instruction.Text — assembly text of instructions.

  An instruction is written as its mnemonic and its operands.  Eleven loads share the mnemonic `LD` and
  are told apart by their operands alone.  Numbers are upper-case hexadecimal, at least as wide as the
  field that they come from; only a sprite height is decimal.
-/
import Chip8.Instruction.Basic

namespace Chip8

namespace ByteOp

/-- The mnemonic of an operation. -/
def mnemonic : ByteOp → String
  | .set => "LD"
  | .or => "OR"
  | .and => "AND"
  | .xor => "XOR"
  | .add => "ADD"
  | .sub => "SUB"
  | .shiftRight => "SHR"
  | .subReverse => "SUBN"
  | .shiftLeft => "SHL"

end ByteOp

namespace Instruction

/-! ## §1. Mnemonics. -/

/-- The mnemonic; a word outside the table is written as data. -/
def mnemonic : Instruction → String
  | .clearScreen => "CLS"
  | .returnFromCall => "RET"
  | .system _ => "SYS"
  | .jump _ | .jumpPlus _ => "JP"
  | .call _ => "CALL"
  | .skipEqByte _ _ | .skipEq _ _ => "SE"
  | .skipNeByte _ _ | .skipNe _ _ => "SNE"
  | .addByte _ _ | .addIndex _ => "ADD"
  | .combine op _ _ => op.mnemonic
  | .random _ _ => "RND"
  | .draw _ _ _ => "DRW"
  | .skipHeld _ => "SKP"
  | .skipNotHeld _ => "SKNP"
  | .loadByte _ _ | .setIndex _ | .getDelay _ | .takeKey _ | .setDelay _ | .setSound _
  | .pointToGlyph _ | .storeDecimal _ | .saveRegisters _ | .restoreRegisters _ => "LD"
  | .unknown _ => ".word"

/-! ## §2. Operands. -/

/-- An address operand: at least three digits. -/
def addressText (nnn : UInt16) : String := Hex.upper 3 nnn.toNat

/-- A byte operand: at least two digits. -/
def byteText (nn : UInt8) : String := Hex.upper 2 nn.toNat

/-- The operands; a shift does not show the register that it ignores. -/
def operands : Instruction → String
  | .clearScreen | .returnFromCall => ""
  | .system nnn | .jump nnn | .call nnn => addressText nnn
  | .jumpPlus nnn => "V0, " ++ addressText nnn
  | .skipEqByte x nn | .skipNeByte x nn | .loadByte x nn | .addByte x nn | .random x nn =>
    x.text ++ ", " ++ byteText nn
  | .skipEq x y | .skipNe x y => x.text ++ ", " ++ y.text
  | .combine .shiftRight x _ | .combine .shiftLeft x _ => x.text
  | .combine _ x y => x.text ++ ", " ++ y.text
  | .setIndex nnn => "I, " ++ addressText nnn
  | .draw x y n => x.text ++ ", " ++ y.text ++ ", " ++ n.toNat.repr
  | .skipHeld x | .skipNotHeld x => x.text
  | .getDelay x => x.text ++ ", DT"
  | .takeKey x => x.text ++ ", K"
  | .setDelay x => "DT, " ++ x.text
  | .setSound x => "ST, " ++ x.text
  | .addIndex x => "I, " ++ x.text
  | .pointToGlyph x => "F, " ++ x.text
  | .storeDecimal x => "B, " ++ x.text
  | .saveRegisters x => "[I], " ++ x.text
  | .restoreRegisters x => x.text ++ ", [I]"
  | .unknown word => Hex.upper 4 word.toNat

/-! ## §3. Lines. -/

/-- A mnemonic and its operands, one space apart, with nothing after a mnemonic that stands alone. -/
def line (mnemonic operands : String) : String :=
  if operands.isEmpty then mnemonic else mnemonic ++ " " ++ operands

/-- The assembly line of an instruction. -/
def text (i : Instruction) : String := line i.mnemonic i.operands

end Instruction

end Chip8
