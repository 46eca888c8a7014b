/-
  Chip8.Flow — where execution continues after an instruction.

  Instructions are two bytes long, so the next one is two addresses on and the next but one four.  The
  program counter is sixteen bits wide and its additions wrap around.
-/

namespace Chip8

/-- How an instruction moves the program counter. -/
inductive Flow where
  | advance
  /-- Past the next instruction. -/
  | skip
  | jump (target : UInt16)
  /-- Nowhere: the instruction runs again. -/
  | hold
  deriving Repr, DecidableEq

namespace Flow

/-- A skip on a condition. -/
def skipWhen (condition : Bool) : Flow := if condition then .skip else .advance

/-- The program counter after an instruction that stood at `pc`. -/
def apply (flow : Flow) (pc : UInt16) : UInt16 :=
  match flow with
  | .advance => pc + 2
  | .skip => pc + 4
  | .jump target => target
  | .hold => pc

end Flow

end Chip8
