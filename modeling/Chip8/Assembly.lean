/-
  Chip8.Assembly — programs as byte strings.

  A program is a list of instructions; its image is the list of their words, each as two bytes with the
  high byte first.
-/
import Chip8.Instruction.Word

namespace Chip8

namespace Assembly

/-- The two bytes of an instruction. -/
def instructionBytes (i : Instruction) : List UInt8 := [i.encode.highByte, i.encode.lowByte]

/-- The image of a program. -/
def assemble (program : List Instruction) : List UInt8 := program.flatMap instructionBytes

/-- The instructions of consecutive words; a last lone byte is no instruction. -/
def decodeAll : List UInt8 → List Instruction
  | high :: low :: rest => Instruction.decode (Word.ofBytes high low) :: decodeAll rest
  | _ => []

/-- The image of no instructions is empty. -/
@[simp] theorem assemble_nil : assemble [] = [] := rfl

/-- An image starts with the two bytes of the first instruction. -/
@[simp] theorem assemble_cons (i : Instruction) (program : List Instruction) :
    assemble (i :: program) = i.encode.highByte :: i.encode.lowByte :: assemble program := rfl

/-- An image has two bytes for each instruction. -/
theorem length_assemble (program : List Instruction) :
    (assemble program).length = 2 * program.length := by
  induction program with
  | nil => rfl
  | cons i program ih => simp only [assemble_cons, List.length_cons, ih]; omega

end Assembly

end Chip8
