/-
  Chip8.Alu — arithmetic on two bytes.

  The operations are pure: they give a byte and say whether the flag register is to be written.  Writing
  both, the byte first and the flag second, is the business of the machine.
-/
import Chip8.Instruction.Basic

namespace Chip8

namespace Alu

/-- What an operation does to the flag register: nothing, or the writing of a bit. -/
abbrev FlagUpdate := Option Bool

/-- A bit as a register holds it. -/
def flagByte (bit : Bool) : UInt8 := if bit then 1 else 0

/-- The byte that a flag update writes, if it writes one. -/
def FlagUpdate.value (update : FlagUpdate) : Option UInt8 := update.map flagByte

/-- The result of an operation on the first operand `a` and the second `b`, and its flag. -/
def apply (op : ByteOp) (a b : UInt8) : UInt8 × FlagUpdate :=
  match op with
  | .set => (b, none)
  | .or => (a ||| b, none)
  | .and => (a &&& b, none)
  | .xor => (a ^^^ b, none)
  | .add => (a + b, some (decide (256 ≤ a.toNat + b.toNat)))
  | .sub => (a - b, some (decide (b ≤ a)))
  | .shiftRight => (a >>> 1, some (a.toNat.testBit 0))
  | .subReverse => (b - a, some (decide (a ≤ b)))
  | .shiftLeft => (a <<< 1, some (a.toNat.testBit 7))

/-- The hundreds, tens and units of a byte. -/
def decimalDigits (value : UInt8) : List UInt8 := [value / 100, value / 10 % 10, value % 10]

/-- A byte has three decimal digits. -/
@[simp] theorem length_decimalDigits (value : UInt8) : (decimalDigits value).length = 3 := rfl

end Alu

end Chip8
