/-
  Chip8.Host.Console — what a host writes to its console.

  Warnings and faults are written, and so is every instruction if the machine reports it; the beginning
  of a wait for a key is not.
-/
import Chip8.Text.Hex
import Chip8.Trace

namespace Chip8

namespace Console

/-- How a line is marked. -/
inductive Level where
  | log
  | warn
  | error
  deriving Repr, DecidableEq

/-- A line on the console. -/
structure Line where
  level : Level
  text : String
  deriving Repr, DecidableEq

/-- The text of a fault with its number and area. -/
def faultText (cause : Fault) : String :=
  "fault " ++ Hex.lower 2 cause.code.toNat ++ " (" ++ cause.area.text ++ "): " ++ cause.message

/-- The line of an event, if it is written at all. -/
def Line.ofEvent : Event → Option Line
  | .skippedUnknown pc word =>
    some { level := .warn
           text := "unknown opcode " ++ Hex.lower 4 word.toNat ++ " at " ++ Hex.lower 3 pc.toNat }
  | .faulted cause pc =>
    some { level := .error, text := faultText cause ++ " at " ++ Hex.lower 3 pc.toNat }
  | .began pc word =>
    some { level := .log, text := Hex.lower 3 pc.toNat ++ ": " ++ Hex.lower 4 word.toNat }
  | .waiting _ => none

/-- The lines of events, in order. -/
def linesOf (events : List Event) : List Line := events.filterMap Line.ofEvent

/-- The line that tells of a loaded image. -/
def loadedLine (size : Nat) : Line :=
  { level := .log, text := "Loaded ROM (" ++ size.repr ++ " bytes)" }

end Console

end Chip8
