/-
  Chip8.Instruction.Word — the sixteen-bit form of an instruction.

  A word is read as four digits in base sixteen: the family, then `x`, `y` and `n`; the last two digits
  together are `nn` and the last three `nnn`.  The fields are numbers obtained by division and remainder,
  so that laws about them are linear arithmetic.

  Main definitions: `Instruction.decode` gives every word a meaning, `Instruction.encode` writes an
  instruction back and drops what a field has no room for.
-/
import Chip8.Instruction.Basic

namespace Chip8

/-! ## §1. Fields. -/

/-- A sixteen-bit instruction word. -/
abbrev Word := UInt16

namespace Word

/-- The word whose first byte in memory is `high` and whose second is `low`. -/
def ofBytes (high low : UInt8) : Word := UInt16.ofNat (high.toNat * 0x100 + low.toNat)

/-- The byte that comes first in memory. -/
def highByte (w : Word) : UInt8 := UInt8.ofNat (w.toNat / 0x100)

/-- The byte that comes second in memory. -/
def lowByte (w : Word) : UInt8 := UInt8.ofNat (w.toNat % 0x100)

/-- The first digit, which selects the instruction family. -/
def family (w : Word) : Nat := w.toNat / 0x1000

/-- The second digit as a register. -/
def x (w : Word) : Register := Fin.ofNat 16 (w.toNat / 0x100)

/-- The third digit as a register. -/
def y (w : Word) : Register := Fin.ofNat 16 (w.toNat / 0x10)

/-- The last digit. -/
def n (w : Word) : UInt8 := UInt8.ofNat (w.toNat % 0x10)

/-- The last two digits. -/
def nn (w : Word) : UInt8 := UInt8.ofNat (w.toNat % 0x100)

/-- The last three digits. -/
def nnn (w : Word) : UInt16 := UInt16.ofNat (w.toNat % 0x1000)

/-- The word of a family with a twelve-bit operand; higher operand bits are dropped. -/
def ofNNN (family : Nat) (nnn : UInt16) : Word :=
  UInt16.ofNat (family * 0x1000 + nnn.toNat % 0x1000)

/-- The word of a family with a register and an eight-bit operand. -/
def ofXNN (family : Nat) (x : Register) (nn : UInt8) : Word :=
  UInt16.ofNat (family * 0x1000 + x.val * 0x100 + nn.toNat)

/-- The word of a family with two registers and a last digit; higher bits of it are dropped. -/
def ofXYN (family : Nat) (x y : Register) (n : Nat) : Word :=
  UInt16.ofNat (family * 0x1000 + x.val * 0x100 + y.val * 0x10 + n % 0x10)

end Word

/-! ## §2. From words to instructions. -/

namespace Instruction

/-- The meaning of the words of family zero. -/
def decodeSystem (w : Word) : Instruction :=
  if w = 0x00E0 then .clearScreen
  else if w = 0x00EE then .returnFromCall
  else .system w.nnn

/-- The meaning of the words of family eight. -/
def decodeAlu (w : Word) : Instruction :=
  match ByteOp.ofDigit? w.n.toNat with
  | some op => .combine op w.x w.y
  | none => .unknown w

/-- The meaning of the words of family `E`. -/
def decodeKey (w : Word) : Instruction :=
  match w.nn.toNat with
  | 0x9E => .skipHeld w.x
  | 0xA1 => .skipNotHeld w.x
  | _ => .unknown w

/-- The meaning of the words of family `F`. -/
def decodeMisc (w : Word) : Instruction :=
  match w.nn.toNat with
  | 0x07 => .getDelay w.x
  | 0x0A => .takeKey w.x
  | 0x15 => .setDelay w.x
  | 0x18 => .setSound w.x
  | 0x1E => .addIndex w.x
  | 0x29 => .pointToGlyph w.x
  | 0x33 => .storeDecimal w.x
  | 0x55 => .saveRegisters w.x
  | 0x65 => .restoreRegisters w.x
  | _ => .unknown w

/-- The meaning of a word. -/
def decode (w : Word) : Instruction :=
  match w.family with
  | 0x0 => decodeSystem w
  | 0x1 => .jump w.nnn
  | 0x2 => .call w.nnn
  | 0x3 => .skipEqByte w.x w.nn
  | 0x4 => .skipNeByte w.x w.nn
  | 0x5 => if w.n = 0 then .skipEq w.x w.y else .unknown w
  | 0x6 => .loadByte w.x w.nn
  | 0x7 => .addByte w.x w.nn
  | 0x8 => decodeAlu w
  | 0x9 => if w.n = 0 then .skipNe w.x w.y else .unknown w
  | 0xA => .setIndex w.nnn
  | 0xB => .jumpPlus w.nnn
  | 0xC => .random w.x w.nn
  | 0xD => .draw w.x w.y w.n
  | 0xE => decodeKey w
  | _ => decodeMisc w

/-! ## §3. From instructions to words. -/

/-- The word of an instruction; operand bits that the word has no room for are dropped. -/
def encode : Instruction → Word
  | .clearScreen => 0x00E0
  | .returnFromCall => 0x00EE
  | .system nnn => .ofNNN 0x0 nnn
  | .jump nnn => .ofNNN 0x1 nnn
  | .call nnn => .ofNNN 0x2 nnn
  | .skipEqByte x nn => .ofXNN 0x3 x nn
  | .skipNeByte x nn => .ofXNN 0x4 x nn
  | .skipEq x y => .ofXYN 0x5 x y 0
  | .loadByte x nn => .ofXNN 0x6 x nn
  | .addByte x nn => .ofXNN 0x7 x nn
  | .combine op x y => .ofXYN 0x8 x y op.digit
  | .skipNe x y => .ofXYN 0x9 x y 0
  | .setIndex nnn => .ofNNN 0xA nnn
  | .jumpPlus nnn => .ofNNN 0xB nnn
  | .random x nn => .ofXNN 0xC x nn
  | .draw x y n => .ofXYN 0xD x y n.toNat
  | .skipHeld x => .ofXNN 0xE x 0x9E
  | .skipNotHeld x => .ofXNN 0xE x 0xA1
  | .getDelay x => .ofXNN 0xF x 0x07
  | .takeKey x => .ofXNN 0xF x 0x0A
  | .setDelay x => .ofXNN 0xF x 0x15
  | .setSound x => .ofXNN 0xF x 0x18
  | .addIndex x => .ofXNN 0xF x 0x1E
  | .pointToGlyph x => .ofXNN 0xF x 0x29
  | .storeDecimal x => .ofXNN 0xF x 0x33
  | .saveRegisters x => .ofXNN 0xF x 0x55
  | .restoreRegisters x => .ofXNN 0xF x 0x65
  | .unknown word => word

end Instruction

/-! ## §4. What the fields are worth. -/

namespace Word

/-- A word is the sum of its four digits, each at its place. -/
theorem toNat_eq_digits (w : Word) :
    w.toNat = w.family * 0x1000 + w.x.val * 0x100 + w.y.val * 0x10 + w.n.toNat := by
  have hw : w.toNat < 65536 := w.toNat_lt
  simp only [family, x, y, n, Fin.ofNat, UInt8.toNat_ofNat']
  omega

/-- The last two digits of a word, as a number. -/
theorem toNat_nn (w : Word) : w.nn.toNat = w.toNat % 0x100 := by
  simp only [nn, UInt8.toNat_ofNat']
  omega

/-- The last three digits of a word, as a number. -/
theorem toNat_nnn (w : Word) : w.nnn.toNat = w.toNat % 0x1000 := by
  simp only [nnn, UInt16.toNat_ofNat']
  omega

/-- The last digit of a word, as a number. -/
theorem toNat_n (w : Word) : w.n.toNat = w.toNat % 0x10 := by
  simp only [n, UInt8.toNat_ofNat']
  omega

/-- The first digit of a word is a digit. -/
theorem family_lt (w : Word) : w.family < 0x10 := by
  have hw : w.toNat < 65536 := w.toNat_lt
  simp only [family]
  omega

/-- The two bytes of a word give the word back. -/
@[simp] theorem ofBytes_highByte_lowByte (w : Word) : ofBytes w.highByte w.lowByte = w := by
  have hw : w.toNat < 65536 := w.toNat_lt
  apply UInt16.toNat_inj.mp
  simp only [ofBytes, highByte, lowByte, UInt16.toNat_ofNat', UInt8.toNat_ofNat']
  omega

/-- The first byte of a composed word. -/
@[simp] theorem highByte_ofBytes (high low : UInt8) : (ofBytes high low).highByte = high := by
  have hh : high.toNat < 256 := high.toNat_lt
  have hl : low.toNat < 256 := low.toNat_lt
  apply UInt8.toNat_inj.mp
  simp only [ofBytes, highByte, UInt16.toNat_ofNat', UInt8.toNat_ofNat']
  omega

/-- The second byte of a composed word. -/
@[simp] theorem lowByte_ofBytes (high low : UInt8) : (ofBytes high low).lowByte = low := by
  have hh : high.toNat < 256 := high.toNat_lt
  have hl : low.toNat < 256 := low.toNat_lt
  apply UInt8.toNat_inj.mp
  simp only [ofBytes, lowByte, UInt16.toNat_ofNat', UInt8.toNat_ofNat']
  omega

end Word

end Chip8
