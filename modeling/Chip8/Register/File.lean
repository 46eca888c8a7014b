/-
  Chip8.Register.File — the registers of a machine.

  Besides the general registers there are the index register `I`, which addresses memory, and the program
  counter.
-/
import Chip8.Memory.Layout
import Chip8.Register.Basic

namespace Chip8

/-- The registers of a machine. -/
structure Registers where
  v : Vector UInt8 16
  i : UInt16
  pc : UInt16
  deriving Repr, DecidableEq

namespace Registers

/-- Zeros, and the program counter at the start of the program. -/
def initial : Registers := { v := Vector.replicate 16 0, i := 0, pc := Memory.programStart }

def get (r : Registers) (x : Register) : UInt8 := r.v[x]

def set (r : Registers) (x : Register) (value : UInt8) : Registers := { r with v := r.v.set x value }

/-- Writes a bit to the flag register. -/
def setFlag (r : Registers) (bit : Bool) : Registers := r.set Register.flag (if bit then 1 else 0)

/-- The values of `V0` up to and including a register. -/
def upTo (r : Registers) (x : Register) : List UInt8 := r.v.toList.take (x.val + 1)

/-- Writes bytes to `V0` and the registers after it, as many as there are bytes. -/
def setFirst (r : Registers) (bytes : List UInt8) : Registers :=
  { r with v := Vector.ofFn fun x : Fin 16 => bytes[x.val]?.getD (r.get x) }

/-- A register holds what was written to it, and the others are as before. -/
theorem get_set (r : Registers) (x y : Register) (value : UInt8) :
    (r.set x value).get y = if x = y then value else r.get y := by
  simp only [get, set, Fin.getElem_fin, Vector.getElem_set, Fin.val_inj]

/-- A register that a byte was written for holds that byte, and the others are as before. -/
theorem get_setFirst (r : Registers) (bytes : List UInt8) (x : Register) :
    (r.setFirst bytes).get x = bytes[x.val]?.getD (r.get x) := by
  simp [get, setFirst]

/-- Writing general registers leaves the index register and the program counter alone. -/
@[simp] theorem i_set (r : Registers) (x : Register) (value : UInt8) : (r.set x value).i = r.i := by
  rw [set]

@[simp] theorem pc_set (r : Registers) (x : Register) (value : UInt8) :
    (r.set x value).pc = r.pc := by
  rw [set]

@[simp] theorem i_setFirst (r : Registers) (bytes : List UInt8) : (r.setFirst bytes).i = r.i := by
  rw [setFirst]

@[simp] theorem pc_setFirst (r : Registers) (bytes : List UInt8) :
    (r.setFirst bytes).pc = r.pc := by
  rw [setFirst]

/-- A run of registers is as long as its last register says. -/
@[simp] theorem length_upTo (r : Registers) (x : Register) : (r.upTo x).length = x.val + 1 := by
  have h := x.isLt
  rw [upTo, List.length_take, Vector.length_toList]
  omega

end Registers

end Chip8
