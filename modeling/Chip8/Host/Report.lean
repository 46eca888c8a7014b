/-
  Chip8.Host.Report — outcomes in the form in which a host passes them on: numbers and texts only.
-/
import Chip8.Instruction.Text
import Chip8.Instruction.Word
import Chip8.Trace

namespace Chip8

/-- What a step came to, in numbers and texts. -/
inductive Report where
  | retired (instruction : String) (word : UInt16)
  | waiting (register : UInt8)
  | skippedUnknown (word : UInt16)
  | fault (cause : String) (code : UInt8) (area : FaultArea)
  deriving Repr, DecidableEq

namespace Report

/-- The report of an outcome. -/
def ofOutcome : Outcome → Report
  | .retired instruction => .retired instruction.text instruction.encode
  | .waiting register => .waiting (UInt8.ofNat register.val)
  | .skippedUnknown word => .skippedUnknown word
  | .fault cause => .fault cause.message cause.code cause.area

end Report

/-- What a frame came to, in numbers and texts. -/
structure FrameReport where
  steps : Nat
  finalStep : Option Report
  deriving Repr, DecidableEq

namespace FrameReport

/-- The report of a tick. -/
def ofTick (report : TickReport) : FrameReport :=
  { steps := report.steps, finalStep := report.finalStep.map Report.ofOutcome }

end FrameReport

end Chip8
