/-
  Chip8.Trace — what a machine reports: the outcome of each step, and events along the way.

  An outcome is the answer to the host that asked for a step.  An event is told to whoever listens; a
  step tells of it when it happens, and tells of a lasting condition only when it begins.
-/
import Chip8.Fault
import Chip8.Instruction.Basic

namespace Chip8

/-! ## §1. Outcomes. -/

/-- What a step came to. -/
inductive Outcome where
  | retired (instruction : Instruction)
  /-- The instruction waits for a key to put into the register. -/
  | waiting (register : Register)
  /-- The word is outside the instruction table and was skipped. -/
  | skippedUnknown (word : UInt16)
  | fault (cause : Fault)
  deriving Repr, DecidableEq

namespace Outcome

/-- Says whether the machine is stopped by a fault. -/
def isFault : Outcome → Bool
  | .fault _ => true
  | _ => false

end Outcome

/-- What a tick came to. -/
structure TickReport where
  steps : Nat
  finalStep : Option Outcome
  deriving Repr, DecidableEq

/-! ## §2. Events. -/

/-- What happened in a step. -/
inductive Event where
  | began (pc word : UInt16)
  /-- A word outside the instruction table was skipped. -/
  | skippedUnknown (pc word : UInt16)
  /-- An instruction began to wait for a key. -/
  | waiting (pc : UInt16)
  | faulted (cause : Fault) (pc : UInt16)
  deriving Repr, DecidableEq

namespace Event

/-- Says whether the event tells of something wrong with the program. -/
def isWarning : Event → Bool
  | .skippedUnknown _ _ | .faulted _ _ => true
  | .began _ _ | .waiting _ => false

end Event

end Chip8
