/-
  Chip8.Machine.Step — one step: fetch a word, decode it, execute it, move the program counter.

  A fault leaves the program counter on the instruction and stops the machine: every later step answers
  with the same fault, changes nothing and tells of nothing.
-/
import Chip8.Instruction.Word
import Chip8.Machine.Execute
import Chip8.Trace

namespace Chip8

/-- What a step gives. -/
structure Stepped where
  outcome : Outcome
  events : List Event
  machine : Machine

namespace Machine

/-! ## §1. The ends of a step. -/

/-- Ends a step whose instruction stood at `pc` with a fault: the machine is stopped as it is. -/
def stop (m : Machine) (pc : UInt16) (cause : Fault) (earlier : List Event) : Stepped :=
  { outcome := .fault cause
    events := earlier ++ [.faulted cause pc]
    machine := { m with status := .stopped cause } }

/-- The event of an instruction that begins, for a host that wants to hear of each. -/
def startEvents (m : Machine) (word : Word) : List Event :=
  if m.config.tracing then [.began m.registers.pc word] else []

/-- The event of a wait that begins; a wait that goes on is not told again. -/
def waitEvents (m : Machine) : List Event :=
  if m.status.isWaiting then [] else [.waiting m.registers.pc]

/-- Ends a step whose instruction was executed: moves the program counter and sets the status.  Here
    `m` is the machine before the instruction and `after` the one behind it. -/
def settle (m after : Machine) (instruction : Instruction) (flow : Flow)
    (earlier : List Event) : Stepped :=
  let moved := { after.registers with pc := flow.apply m.registers.pc }
  match instruction, flow with
  -- A word outside the table is passed over like any other, but the host is told.
  | .unknown word, _ =>
    { outcome := .skippedUnknown word
      events := earlier ++ [.skippedUnknown m.registers.pc word]
      machine := { after with registers := moved, status := .running } }
  -- The instruction stays where it is and runs again at the next step.
  | .takeKey x, .hold =>
    { outcome := .waiting x
      events := earlier ++ m.waitEvents
      machine := { after with registers := moved, status := .waiting x } }
  | _, _ =>
    { outcome := .retired instruction
      events := earlier
      machine := { after with registers := moved, status := .running } }

/-! ## §2. The step. -/

def step (m : Machine) : Except Breach Stepped :=
  match m.status.stoppedBy with
  | some cause => .ok { outcome := .fault cause, events := [], machine := m }
  | none =>
    match Memory.readWord m.memory m.registers.pc with
    | .error cause => .ok (m.stop m.registers.pc cause [])
    | .ok word =>
      let instruction := Instruction.decode word
      let effect := m.perform instruction
      match effect.result with
      -- The instruction sees the program counter at its own address; only `settle` moves it.
      | .ok flow => .ok (m.settle effect.machine instruction flow (m.startEvents word))
      | .error (.fault cause) =>
        .ok (effect.machine.stop m.registers.pc cause (m.startEvents word))
      | .error (.breach breach) => .error breach

/-! ## §3. Stopped machines. -/

/-- A stopped machine answers with its fault and stays as it is. -/
theorem step_of_stopped {m : Machine} {cause : Fault} (h : m.status = .stopped cause) :
    m.step = .ok { outcome := .fault cause, events := [], machine := m } := by
  simp [step, h, Status.stoppedBy]

end Machine

end Chip8
