/-
  Chip8.Machine.Execute — the effect of one instruction.

  `perform` works on the machine in place: its effect is the way the program counter is to move, or why
  there is none, and beside it the machine as the instruction left it, which is there on failure too.
  Moving the program counter, and the status, are the business of a step.  An instruction checks every
  address before it writes; that one which fails has written nothing is a theorem about `perform` and not
  part of its type.  `execute` is the same for a host that has no use for a failed machine.
-/
import Chip8.Alu
import Chip8.Flow
import Chip8.Machine.Basic

namespace Chip8

namespace Machine

/-! ## §1. Registers and memory. -/

/-- The value of a general register. -/
def v (m : Machine) (x : Register) : UInt8 := m.registers.get x

/-- Writes a general register. -/
def setV (m : Machine) (x : Register) (value : UInt8) : Machine :=
  { m with registers := m.registers.set x value }

/-- Writes the index register. -/
def setI (m : Machine) (value : UInt16) : Machine :=
  { m with registers := { m.registers with i := value } }

/-- The bytes in memory from the index register on. -/
def fetchBytes (m : Machine) (count : Nat) : Except Trap (List UInt8) :=
  match Memory.span m.registers.i count with
  | .error cause => .error (.fault cause)
  | .ok s =>
    match Memory.readSpan m.memory s with
    | .error breach => .error (.breach breach)
    | .ok bytes => .ok bytes

/-! ## §2. Effects. -/

/-- What an instruction comes to, and the machine as it left it. -/
structure Effect where
  /-- Where to continue, or why the instruction did not complete. -/
  result : Except Trap Flow
  /-- The machine afterwards, whether or not the instruction completed. -/
  machine : Machine

/-- The effect of an instruction that completes. -/
def done (m : Machine) (flow : Flow) : Effect := { result := .ok flow, machine := m }

/-- The effect of an instruction that gives up. -/
def giveUp (m : Machine) (trap : Trap) : Effect := { result := .error trap, machine := m }

/-! ## §3. Instructions with more than one way to go. -/

/-- Writes bytes to memory from the index register on. -/
def storeBytes (m : Machine) (bytes : List UInt8) : Effect :=
  match Memory.span m.registers.i bytes.length with
  | .error cause => m.giveUp (.fault cause)
  | .ok s =>
    match Memory.writeSpan m.memory s bytes with
    | .error breach => m.giveUp (.breach breach)
    | .ok memory => { m with memory }.done .advance

/-- Loads `V0` up to and including a register from memory at the index register. -/
def restoreRegisters (m : Machine) (x : Register) : Effect :=
  match m.fetchBytes (x.val + 1) with
  | .error trap => m.giveUp trap
  | .ok bytes => { m with registers := m.registers.setFirst bytes }.done .advance

/-- Returns past the innermost call; with no call open, the host's choice decides. -/
def returnFromCall (m : Machine) : Effect :=
  match m.stack.pop with
  | .ok (address, stack) => { m with stack }.done (.jump (address + 2))
  | .error (.fault .stackUnderflow) =>
    match m.config.emptyReturn with
    | .fault => m.giveUp (.fault .stackUnderflow)
    | .toProgramStart => m.done (.jump (Memory.programStart + 2))
  | .error trap => m.giveUp trap

/-- Opens a call at the present instruction. -/
def openCall (m : Machine) (target : UInt16) : Effect :=
  match m.stack.push m.registers.pc with
  | .ok stack => { m with stack }.done (.jump target)
  | .error cause => m.giveUp (.fault cause)

/-- Combines two registers into the first, and then writes the flag if the operation has one. -/
def combine (m : Machine) (op : ByteOp) (x y : Register) : Machine :=
  let (value, flag) := Alu.apply op (m.v x) (m.v y)
  -- If the first register is the flag register itself, the flag wins.
  let after := m.setV x value
  match flag.value with
  | some bit => after.setV Register.flag bit
  | none => after

/-- Draws rows from memory at the position in two registers, and then writes the collision to the
    flag. -/
def drawRows (m : Machine) (x y : Register) (height : UInt8) : Effect :=
  match m.fetchBytes height.toNat with
  | .error trap => m.giveUp trap
  | .ok rows =>
    match m.framebuffer.draw (m.v x).toNat (m.v y).toNat rows with
    | .error breach => m.giveUp (.breach breach)
    | .ok (collision, framebuffer) =>
      { m with framebuffer, registers := m.registers.setFlag collision }.done .advance

/-- Takes the lowest held key, or holds on until there is one. -/
def takeKey (m : Machine) (x : Register) : Effect :=
  match m.keypad.firstHeld with
  | some key => (m.setV x key).done .advance
  | none => m.done .hold

/-- Takes a random byte and masks it. -/
def takeRandom (m : Machine) (x : Register) (mask : UInt8) : Machine :=
  let (byte, random) := m.random.next
  { m with random, registers := m.registers.set x (byte &&& mask) }

/-! ## §4. All instructions. -/

/-- The effect of an instruction on everything but the program counter and the status. -/
def perform (m : Machine) : Instruction → Effect
  | .clearScreen => { m with framebuffer := m.framebuffer.clear }.done .advance
  | .returnFromCall => m.returnFromCall
  | .system _ => m.done .advance
  | .jump nnn => m.done (.jump nnn)
  | .call nnn => m.openCall nnn
  | .skipEqByte x nn => m.done (.skipWhen (m.v x == nn))
  | .skipNeByte x nn => m.done (.skipWhen (m.v x != nn))
  | .skipEq x y => m.done (.skipWhen (m.v x == m.v y))
  | .loadByte x nn => (m.setV x nn).done .advance
  | .addByte x nn => (m.setV x (m.v x + nn)).done .advance
  | .combine op x y => (m.combine op x y).done .advance
  | .skipNe x y => m.done (.skipWhen (m.v x != m.v y))
  | .setIndex nnn => (m.setI nnn).done .advance
  | .jumpPlus nnn => m.done (.jump (nnn + (m.v 0).toUInt16))
  | .random x nn => (m.takeRandom x nn).done .advance
  | .draw x y n => m.drawRows x y n
  | .skipHeld x => m.done (.skipWhen (m.keypad.isHeld (m.v x)))
  | .skipNotHeld x => m.done (.skipWhen (!m.keypad.isHeld (m.v x)))
  | .getDelay x => (m.setV x m.timers.delay).done .advance
  | .takeKey x => m.takeKey x
  | .setDelay x => { m with timers := { m.timers with delay := m.v x } }.done .advance
  | .setSound x => { m with timers := { m.timers with sound := m.v x } }.done .advance
  | .addIndex x => (m.setI (m.registers.i + (m.v x).toUInt16)).done .advance
  | .pointToGlyph x => (m.setI (Font.addressOf (m.v x))).done .advance
  | .storeDecimal x => m.storeBytes (Alu.decimalDigits (m.v x))
  | .saveRegisters x => m.storeBytes (m.registers.upTo x)
  | .restoreRegisters x => m.restoreRegisters x
  | .unknown _ => m.done .advance

/-- The way to continue and the machine after an instruction, or why it did not complete. -/
def execute (m : Machine) (i : Instruction) : Except Trap (Flow × Machine) :=
  let effect := m.perform i
  effect.result.map fun flow => (flow, effect.machine)

end Machine

end Chip8
