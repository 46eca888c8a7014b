/-
  Chip8.Register.Basic — the sixteen general registers `V0` … `VF`.

  A register is its number, so register operands index the register file without a check.  `VF` doubles
  as the flag register of arithmetic and drawing.
-/
import Chip8.Text.Hex

namespace Chip8

/-- A general register, `V0` to `VF`, given by its number. -/
abbrev Register := Fin 16

/-- There are registers, so a literal names one. -/
instance neZero_registers : @NeZero Nat Zero.ofOfNat0 16 := ⟨Nat.succ_ne_zero 15⟩

namespace Register

/-- The register that a flag is written to. -/
def flag : Register := 15

/-- The register selected by the low four bits of a byte. -/
def ofByte (bits : UInt8) : Register := Fin.ofNat 16 bits.toNat

/-- The assembly name: `V` and one upper-case hexadecimal digit. -/
def text (x : Register) : String :=
  "V" ++ String.ofList (Hex.upperDigits 1 x.val)

/-- All registers in ascending order. -/
def all : List Register := List.finRange 16

/-- The register with the given assembly name. -/
def ofText? (name : String) : Option Register :=
  all.find? fun x => x.text == name

end Register

end Chip8
