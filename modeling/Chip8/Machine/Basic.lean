/-
  Chip8.Machine.Basic — the state of a machine.

  A machine is plain data.  Its memory, its pixels and the depth of its call stack could in principle have
  any size; `WellShaped` says that they have the sizes of the machine, and every operation keeps it.
-/
import Chip8.CallStack
import Chip8.Config
import Chip8.Framebuffer
import Chip8.Keypad
import Chip8.Memory.Basic
import Chip8.Random.Source
import Chip8.Register.File
import Chip8.Timers

namespace Chip8

/-! ## §1. State. -/

/-- Whether a machine runs, and if it does not, why. -/
inductive Status where
  | running
  /-- The last step waited for a key to put into the register. -/
  | waiting (register : Register)
  /-- A fault stopped the machine; only a reset starts it again. -/
  | stopped (cause : Fault)
  deriving Repr, DecidableEq

namespace Status

/-- The fault that stopped the machine, if one did. -/
def stoppedBy : Status → Option Fault
  | .stopped cause => some cause
  | _ => none

/-- Says whether the last step waited for a key. -/
def isWaiting : Status → Bool
  | .waiting _ => true
  | _ => false

end Status

/-- The complete state of a machine. -/
structure Machine where
  config : Config
  registers : Registers
  memory : Array UInt8
  stack : CallStack
  timers : Timers
  keypad : Keypad
  framebuffer : Framebuffer
  status : Status
  random : Random.Source
  deriving Repr, DecidableEq

namespace Machine

/-- The machine with the sizes that its operations rely on, and pixels that are on or off. -/
structure WellShaped (m : Machine) : Prop where
  size_memory : m.memory.size = Memory.capacity
  size_pixels : m.framebuffer.pixels.size = Framebuffer.pixelCount
  pixel_binary : ∀ p ∈ m.framebuffer.pixels, p = 0 ∨ p = 1
  /-- No more calls are counted than there are slots. -/
  depth_le : m.stack.depth ≤ CallStack.capacity

/-! ## §2. Making and resetting. -/

/-- A machine fresh from the factory: the font in memory, and nothing else. -/
def new (config : Config) : Machine :=
  { config
    registers := .initial
    memory := Memory.overlay Memory.blank Font.start.toNat Font.glyphs
    stack := .empty
    timers := .zero
    keypad := .released
    framebuffer := .blank
    status := .running
    random := .ofSeed config.seed }

/-- Clears the machine part by part and writes the font again; the choices of the host stay. -/
def reset (m : Machine) : Except Breach Machine :=
  match Memory.writeSpan (Array.replicate m.memory.size 0) Font.span Font.glyphs with
  | .error breach => .error breach
  | .ok memory =>
    .ok { m with
      registers := .initial
      memory
      stack := m.stack.clear
      timers := .zero
      keypad := .released
      framebuffer := .blank
      status := .running
      random := .ofSeed m.config.seed }

/-! ## §3. What a host does between steps. -/

def setKey (m : Machine) (key : UInt8) (held : Bool) : Machine :=
  { m with keypad := m.keypad.set key held }

def countDown (m : Machine) : Machine := { m with timers := m.timers.tick }

/-- Says whether the sound is on. -/
def soundOn (m : Machine) : Bool := m.timers.soundOn

/-! ## §4. Fresh machines are well-shaped. -/

/-- A fresh machine has the sizes that its operations rely on. -/
theorem wellShaped_new (config : Config) : (new config).WellShaped where
  size_memory := by simp [new]
  size_pixels := by simp [new, Framebuffer.blank]
  pixel_binary := by
    intro p hp
    simp only [new, Framebuffer.blank, Array.mem_replicate] at hp
    exact .inl hp.2
  depth_le := by simp [new, CallStack.empty]

end Machine

end Chip8
