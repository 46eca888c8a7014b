/-
  Chip8.Instruction.Basic — the instruction set as a type.

  Operands keep the width of the storage that they come from: an address operand is sixteen bits wide
  and a sprite height eight, although a word has room for twelve and four.  What a word can hold is the
  business of `Chip8.Instruction.Word`.  A word outside the instruction table is the instruction
  `unknown`, so every word has a meaning.
-/
import Chip8.Register.Basic

namespace Chip8

/-! ## §1. Arithmetic and logic operations. -/

/-- The operations of the `8XYn` family. -/
inductive ByteOp where
  | set
  | or
  | and
  | xor
  /-- Addition; the flag is the carry. -/
  | add
  /-- First operand less second; the flag says that no borrow was needed. -/
  | sub
  /-- First operand shifted right by one; the flag is the bit that falls out. -/
  | shiftRight
  /-- Second operand less first; the flag says that no borrow was needed. -/
  | subReverse
  /-- First operand shifted left by one; the flag is the bit that falls out. -/
  | shiftLeft
  deriving Repr, DecidableEq

namespace ByteOp

/-- The last digit of the operation's words. -/
def digit : ByteOp → Nat
  | .set => 0x0
  | .or => 0x1
  | .and => 0x2
  | .xor => 0x3
  | .add => 0x4
  | .sub => 0x5
  | .shiftRight => 0x6
  | .subReverse => 0x7
  | .shiftLeft => 0xE

/-- The operation with the given last digit. -/
def ofDigit? : Nat → Option ByteOp
  | 0x0 => some .set
  | 0x1 => some .or
  | 0x2 => some .and
  | 0x3 => some .xor
  | 0x4 => some .add
  | 0x5 => some .sub
  | 0x6 => some .shiftRight
  | 0x7 => some .subReverse
  | 0xE => some .shiftLeft
  | _ => none

/-- An operation is found again by its digit. -/
@[simp] theorem ofDigit?_digit (op : ByteOp) : ofDigit? op.digit = some op := by
  cases op <;> rfl

/-- A digit finds an operation only if it is that operation's own. -/
theorem digit_of_ofDigit? {n : Nat} {op : ByteOp} (h : ofDigit? n = some op) :
    op.digit = n := by
  unfold ofDigit? at h
  split at h <;> simp_all [digit] <;> subst h <;> rfl

/-- An operation's digit fits in four bits. -/
theorem digit_lt (op : ByteOp) : op.digit < 16 := by
  cases op <;> decide

end ByteOp

/-! ## §2. Instructions. -/

/-- A decoded instruction. -/
inductive Instruction where
  | clearScreen
  /-- Continues after the innermost call. -/
  | returnFromCall
  /-- A call into the native machine, which has no effect here. -/
  | system (nnn : UInt16)
  | jump (nnn : UInt16)
  /-- Remembers the place and continues at an address. -/
  | call (nnn : UInt16)
  /-- Skips the next instruction if a register equals a constant. -/
  | skipEqByte (x : Register) (nn : UInt8)
  | skipNeByte (x : Register) (nn : UInt8)
  | skipEq (x y : Register)
  | loadByte (x : Register) (nn : UInt8)
  /-- Adds a constant and writes no flag. -/
  | addByte (x : Register) (nn : UInt8)
  /-- Combines two registers into the first. -/
  | combine (op : ByteOp) (x y : Register)
  | skipNe (x y : Register)
  | setIndex (nnn : UInt16)
  | jumpPlus (nnn : UInt16)
  /-- Loads a masked random byte. -/
  | random (x : Register) (nn : UInt8)
  /-- Draws `n` rows from memory at the index register. -/
  | draw (x y : Register) (n : UInt8)
  /-- Skips the next instruction if the named key is held. -/
  | skipHeld (x : Register)
  | skipNotHeld (x : Register)
  | getDelay (x : Register)
  /-- Waits until a key is held and loads its number. -/
  | takeKey (x : Register)
  | setDelay (x : Register)
  | setSound (x : Register)
  | addIndex (x : Register)
  /-- Points the index register at the glyph of a digit. -/
  | pointToGlyph (x : Register)
  /-- Stores the three decimal digits of a register. -/
  | storeDecimal (x : Register)
  /-- Stores `V0` up to and including a register. -/
  | saveRegisters (x : Register)
  /-- Loads `V0` up to and including a register. -/
  | restoreRegisters (x : Register)
  /-- A word outside the table. -/
  | unknown (word : UInt16)
  deriving Repr, DecidableEq

namespace Instruction

/-- Says whether the instruction is a word outside the table. -/
def isUnknown : Instruction → Bool
  | .unknown _ => true
  | _ => false

/-- Says whether the instruction may continue elsewhere than at the next or the next but one. -/
def transfersControl : Instruction → Bool
  | .returnFromCall | .jump _ | .call _ | .jumpPlus _ | .takeKey _ => true
  | _ => false

end Instruction

end Chip8
