/-
  Chip8.Config — what a host chooses about a machine.  No operation of the machine changes it.
-/

namespace Chip8

/-- What a return does when no call is open. -/
inductive EmptyReturn where
  | fault
  /-- It returns to the start of the program as if that had been a call. -/
  | toProgramStart
  deriving Repr, DecidableEq

/-- The choices of a host. -/
structure Config where
  stepsPerTick : UInt32
  /-- The seed of the random bytes. -/
  seed : UInt64
  emptyReturn : EmptyReturn
  /-- Says whether every instruction is reported before it runs. -/
  tracing : Bool
  deriving Repr, DecidableEq

namespace Config

def defaultStepsPerTick : UInt32 := 10

def defaultSeed : UInt64 := 0x0C85EED

/-- The choices of a host that makes none. -/
def standard : Config :=
  { stepsPerTick := defaultStepsPerTick, seed := defaultSeed, emptyReturn := .fault
    tracing := false }

end Config

end Chip8
