/-
  Chip8.Proofs.Reference — the instruction table, read word by word.

  The machine of this library turns a word into an instruction and carries that out on bytes.  The
  reference does neither: it works on natural numbers, takes the digits of the word where it needs them,
  and cuts a sum down to eight or sixteen bits where the table says so.  Storage is a function of the
  address, the screen one of column and line.  Nothing is checked: what is a fault, and why, is no
  business of the table.

  Main definitions: `State.table` (what a word does), `State.step` and `State.run`.
-/
import Chip8.Machine.Basic
import Mathlib.Logic.Function.Basic

namespace Chip8

namespace Reference

/-! ## §1. States. -/

/-- What a step that is no fault comes to. -/
inductive Kind where
  | retired
  | waiting
  | unknown
  deriving Repr, DecidableEq

/-- A machine over natural numbers: registers, slots and keys by number, bytes by address, pixels by
    column and line. -/
structure State where
  config : Config
  v : Nat → Nat
  i : Nat
  pc : Nat
  memory : Nat → Nat
  /-- The slots of the call stack, outermost call first, of which `depth` are in use. -/
  slots : Nat → Nat
  depth : Nat
  delay : Nat
  sound : Nat
  held : Nat → Bool
  /-- The pixels, 1 for a lit one. -/
  pixel : Nat → Nat → Nat
  /-- Whether the screen was written to since the host last asked. -/
  changed : Bool
  status : Status
  random : Random.Source

namespace State

/-! ## §2. Where to continue. -/

def goto (s : State) (pc : Nat) : Kind × State := (.retired, { s with pc, status := .running })

/-- Continues at the next word. -/
def next (s : State) : Kind × State := s.goto ((s.pc + 2) % 0x10000)

/-- Continues at the next word but one on a condition, and at the next otherwise. -/
def skipIf (s : State) (condition : Bool) : Kind × State :=
  s.goto ((s.pc + if condition then 4 else 2) % 0x10000)

/-- Passes over a word that is not in the table. -/
def ignore (s : State) : Kind × State := (.unknown, s.next.2)

/-! ## §3. What the table asks for. -/

def setV (s : State) (x value : Nat) : State := { s with v := Function.update s.v x value }

/-- Writes a condition to the flag register. -/
def setFlag (s : State) (condition : Bool) : State := s.setV 0xF (if condition then 1 else 0)

def clearScreen (s : State) : State := { s with pixel := fun _ _ => 0, changed := true }

/-- Returns past the innermost call, or past the start of the program if there is none. -/
def returnFromCall (s : State) : Kind × State :=
  match s.depth with
  -- No call is open.  The host wants the program start here, or else the word is a fault.
  | 0 => s.goto (0x200 + 2)
  | depth + 1 => { s with depth }.goto ((s.slots depth + 2) % 0x10000)

/-- Remembers the present address and continues at another. -/
def call (s : State) (target : Nat) : Kind × State :=
  { s with slots := Function.update s.slots s.depth s.pc, depth := s.depth + 1 }.goto target

/-- Takes a random byte and masks it. -/
def takeRandom (s : State) (x mask : Nat) : State :=
  { s with random := s.random.next.2 }.setV x (s.random.next.1.toNat &&& mask)

/-- Says whether a sprite of `n` rows with its corner at `x` and `y` covers a pixel.  The rows are in
    memory at the index register, and both axes wrap around. -/
def covers (s : State) (x y n column line : Nat) : Bool :=
  (List.range 8).any fun b => (List.range n).any fun j =>
    (s.memory (s.i + j)).testBit (7 - b) && (x + b) % 64 == column && (y + j) % 32 == line

/-- Toggles the pixels that a sprite covers; the flag says whether one of them was lit. -/
def draw (s : State) (x y n : Nat) : State :=
  -- The corner is read before the flag is written, which may be one of its registers.
  let covered := s.covers (s.v x) (s.v y) n
  let hit := (List.range 64).any fun column => (List.range 32).any fun line =>
    covered column line && s.pixel column line == 1
  let pixel column line := if covered column line then 1 - s.pixel column line else s.pixel column line
  { s with pixel, changed := true }.setFlag hit

/-- Says whether the key with a number is held; there is none above fifteen. -/
def isHeld (s : State) (key : Nat) : Bool := key ≤ 0xF && s.held key

/-- Takes the first key that is held, or stays. -/
def takeKey (s : State) (x : Nat) : Kind × State :=
  match (List.range 16).find? s.held with
  | some key => (s.setV x key).next
  | none => (.waiting, { s with status := .waiting (Fin.ofNat 16 x) })

/-- Writes bytes to memory from the index register on. -/
def store (s : State) (bytes : List Nat) : State :=
  { s with memory := fun a =>
      if s.i ≤ a ∧ a < s.i + bytes.length then bytes.getD (a - s.i) 0 else s.memory a }

/-- Loads the registers up to and including `x` from memory at the index register. -/
def restore (s : State) (x : Nat) : State :=
  { s with v := fun k => if k ≤ x then s.memory (s.i + k) else s.v k }

/-! ## §4. The table. -/

/-- The words that begin with the digit `0`. -/
def system (s : State) (w : Nat) : Kind × State :=
  if w = 0x00E0 then s.clearScreen.next
  else if w = 0x00EE then s.returnFromCall
  else s.next

/-- The words that begin with the digit `8`: two registers to one and, for some last digits, a flag,
    which is written after the result. -/
def arithmetic (s : State) (n x y : Nat) : Kind × State :=
  let a := s.v x
  let b := s.v y
  match n with
  | 0x0 => (s.setV x b).next
  | 0x1 => (s.setV x (a ||| b)).next
  | 0x2 => (s.setV x (a &&& b)).next
  | 0x3 => (s.setV x (a ^^^ b)).next
  | 0x4 => ((s.setV x ((a + b) % 0x100)).setFlag (0xFF < a + b)).next
  | 0x5 => ((s.setV x ((a + 0x100 - b) % 0x100)).setFlag (b ≤ a)).next
  | 0x6 => ((s.setV x (a / 2)).setFlag (a % 2 = 1)).next
  | 0x7 => ((s.setV x ((b + 0x100 - a) % 0x100)).setFlag (a ≤ b)).next
  | 0xE => ((s.setV x (a * 2 % 0x100)).setFlag (0x80 ≤ a)).next
  | _ => s.ignore

/-- The words that begin with the digit `E`. -/
def skipOnKey (s : State) (nn x : Nat) : Kind × State :=
  match nn with
  | 0x9E => s.skipIf (s.isHeld (s.v x))
  | 0xA1 => s.skipIf (!s.isHeld (s.v x))
  | _ => s.ignore

/-- The words that begin with the digit `F`. -/
def misc (s : State) (nn x : Nat) : Kind × State :=
  match nn with
  | 0x07 => (s.setV x s.delay).next
  | 0x0A => s.takeKey x
  | 0x15 => { s with delay := s.v x }.next
  | 0x18 => { s with sound := s.v x }.next
  | 0x1E => { s with i := (s.i + s.v x) % 0x10000 }.next
  | 0x29 => { s with i := s.v x % 0x10 * 5 }.next
  | 0x33 => (s.store [s.v x / 100, s.v x / 10 % 10, s.v x % 10]).next
  | 0x55 => (s.store ((List.range (x + 1)).map s.v)).next
  | 0x65 => (s.restore x).next
  | _ => s.ignore

/-- What a word does. -/
def table (s : State) (w : Nat) : Kind × State :=
  let x := w / 0x100 % 0x10
  let y := w / 0x10 % 0x10
  let n := w % 0x10
  let nn := w % 0x100
  let nnn := w % 0x1000
  match w / 0x1000 with
  | 0x0 => s.system w
  | 0x1 => s.goto nnn
  | 0x2 => s.call nnn
  | 0x3 => s.skipIf (s.v x == nn)
  | 0x4 => s.skipIf (s.v x != nn)
  | 0x5 => if n = 0 then s.skipIf (s.v x == s.v y) else s.ignore
  | 0x6 => (s.setV x nn).next
  | 0x7 => (s.setV x ((s.v x + nn) % 0x100)).next
  | 0x8 => s.arithmetic n x y
  | 0x9 => if n = 0 then s.skipIf (s.v x != s.v y) else s.ignore
  | 0xA => { s with i := nnn }.next
  | 0xB => s.goto ((nnn + s.v 0) % 0x10000)
  | 0xC => (s.takeRandom x nn).next
  | 0xD => (s.draw x y n).next
  | 0xE => s.skipOnKey nn x
  | 0xF => s.misc nn x
  -- A word has four digits.
  | _ => s.ignore

/-- The word at the program counter, its high byte first. -/
def word (s : State) : Nat := s.memory s.pc * 0x100 + s.memory (s.pc + 1)

def step (s : State) : Kind × State := s.table s.word

end State

/-! ## §5. Runs. -/

/-- What can happen to a machine in the middle of a run. -/
inductive Action where
  | step
  | countDown
  | setKey (key : UInt8) (held : Bool)
  deriving Repr, DecidableEq

namespace State

/-- Counts both timers down once, but not below zero. -/
def countDown (s : State) : State := { s with delay := s.delay - 1, sound := s.sound - 1 }

/-- Holds or releases a key; there is none above fifteen. -/
def setKey (s : State) (key : Nat) (held : Bool) : State :=
  if key ≤ 0xF then { s with held := Function.update s.held key held } else s

/-- What the steps of a run come to, and the state behind it. -/
def run (s : State) : List Action → List Kind × State
  | [] => ([], s)
  | .step :: actions =>
    let rest := s.step.2.run actions
    (s.step.1 :: rest.1, rest.2)
  | .countDown :: actions => s.countDown.run actions
  | .setKey key held :: actions => (s.setKey key.toNat held).run actions

end State

end Reference

end Chip8
