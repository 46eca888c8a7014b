/-
  Chip8.Memory.Layout — what lies where in memory.

  The font of sixteen glyphs is at the bottom, programs start at `0x200`, and everything from there to the
  last address may be program.
-/

namespace Chip8

namespace Memory

/-! ## §1. The address space. -/

/-- The number of addresses. -/
def capacity : Nat := 0x1000

def programStart : UInt16 := 0x200

/-- The last address of a program. -/
def programEnd : UInt16 := 0xFFF

/-- The size of the largest program image. -/
def maxImageSize : Nat := capacity - programStart.toNat

def instructionSize : Nat := 2

end Memory

/-! ## §2. The font. -/

namespace Font

def start : UInt16 := 0x000

def last : UInt16 := 0x04F

/-- The height of a glyph, one byte a row. -/
def glyphSize : Nat := 5

/-- The glyphs of the sixteen digits, one after the other. -/
def glyphs : List UInt8 := [
  0xF0, 0x90, 0x90, 0x90, 0xF0,
  0x20, 0x60, 0x20, 0x20, 0x70,
  0xF0, 0x10, 0xF0, 0x80, 0xF0,
  0xF0, 0x10, 0xF0, 0x10, 0xF0,
  0x90, 0x90, 0xF0, 0x10, 0x10,
  0xF0, 0x80, 0xF0, 0x10, 0xF0,
  0xF0, 0x80, 0xF0, 0x90, 0xF0,
  0xF0, 0x10, 0x20, 0x40, 0x40,
  0xF0, 0x90, 0xF0, 0x90, 0xF0,
  0xF0, 0x90, 0xF0, 0x10, 0xF0,
  0xF0, 0x90, 0xF0, 0x90, 0x90,
  0xE0, 0x90, 0xE0, 0x90, 0xE0,
  0xF0, 0x80, 0x80, 0x80, 0xF0,
  0xE0, 0x90, 0x90, 0x90, 0xE0,
  0xF0, 0x80, 0xF0, 0x80, 0xF0,
  0xF0, 0x80, 0xF0, 0x80, 0x80]

/-- The address of the glyph of the digit in the low four bits of a byte. -/
def addressOf (digit : UInt8) : UInt16 :=
  UInt16.ofNat (start.toNat + digit.toNat % 16 * glyphSize)

/-- The font has sixteen glyphs of five rows. -/
@[simp] theorem length_glyphs : glyphs.length = 80 := rfl

end Font

end Chip8
