/-
  Chip8.Fault — why an instruction does not complete.

  There are two kinds of reason.  A FAULT is part of the machine's behaviour: the program did something
  that the machine forbids, the host is told, and the machine stops until it is reset.  A BREACH is not:
  an access left its storage although every check of the machine passed, or a sum left its word, which
  never happens on a machine of the right shape.
-/

namespace Chip8

/-! ## §1. Faults. -/

/-- What a program or a program image did wrong. -/
inductive Fault where
  /-- A return with no call to return to. -/
  | stackUnderflow
  /-- A call with no room left to remember it. -/
  | stackOverflow
  /-- An access past the last address. -/
  | addressOutOfBounds
  /-- A program image that does not fit above the program start. -/
  | imageTooLarge
  deriving Repr, DecidableEq

/-- The part of the machine that a fault concerns. -/
inductive FaultArea where
  | stack
  | memory
  | load
  deriving Repr, DecidableEq

namespace FaultArea

def text : FaultArea → String
  | .stack => "Stack"
  | .memory => "Memory"
  | .load => "Load"

end FaultArea

namespace Fault

/-- The number under which a host knows the fault. -/
def code : Fault → UInt8
  | .stackUnderflow => 1
  | .stackOverflow => 2
  | .addressOutOfBounds => 3
  | .imageTooLarge => 4

def area : Fault → FaultArea
  | .stackUnderflow | .stackOverflow => .stack
  | .addressOutOfBounds => .memory
  | .imageTooLarge => .load

def message : Fault → String
  | .stackUnderflow => "return executed with an empty call stack"
  | .stackOverflow => "call stack depth exceeded"
  | .addressOutOfBounds => "memory access outside the 4 KiB address space"
  | .imageTooLarge => "rom image larger than 3584 bytes"

end Fault

/-! ## §2. Breaches and traps. -/

/-- The storage that an access left, or the arithmetic that left its word. -/
inductive Breach where
  /-- The memory is shorter than the address space. -/
  | memory
  /-- The pixel grid is smaller than the display. -/
  | pixels
  /-- More calls are counted than the stack has room for. -/
  | frames
  /-- A sum of coordinates does not fit in a word of the host. -/
  | coordinates
  deriving Repr, DecidableEq

/-- Why an instruction does not complete. -/
inductive Trap where
  /-- The program is at fault. -/
  | fault (cause : Fault)
  /-- The machine is not of the right shape. -/
  | breach (storage : Breach)
  deriving Repr, DecidableEq

end Chip8
