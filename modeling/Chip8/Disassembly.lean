/-
  Chip8.Disassembly — listings of memory as instructions.

  A row shows one word.  A range lists consecutive words and ends early where memory or the addresses
  end; a window lists the words around a centre.  Bytes that are data list as whatever instruction they
  happen to form.

  Main statement: `range_eq_nil_of_row?`, a range starts with the row at its start or is empty.
-/
import Chip8.Instruction.Text
import Chip8.Instruction.Word

namespace Chip8

namespace Disassembly

/-! ## §1. Rows. -/

/-- One line of a listing. -/
structure Row where
  /-- Where the word lies. -/
  address : UInt16
  /-- The word. -/
  raw : Word
  /-- The mnemonic of the word's instruction. -/
  mnemonic : String
  /-- The operands of the word's instruction. -/
  operands : String
  /-- Says whether the word is outside the instruction table. -/
  isUnknown : Bool
  deriving Repr, DecidableEq

/-- The row of a word at an address. -/
def Row.ofWord (address : UInt16) (raw : Word) : Row :=
  let instruction := Instruction.decode raw
  { address, raw
    mnemonic := instruction.mnemonic
    operands := instruction.operands
    isUnknown := instruction.isUnknown }

/-- The row at an address, if both bytes of the word are there. -/
def row? (address : UInt16) (memory : Array UInt8) : Option Row :=
  match memory[address.toNat]?, memory[address.toNat + 1]? with
  | some high, some low => some (Row.ofWord address (Word.ofBytes high low))
  | _, _ => none

/-! ## §2. Ranges and windows. -/

/-- At most `count` consecutive rows from an address on; the listing ends with the last row that is
    there, or with the last address. -/
def range (start : UInt16) (count : Nat) (memory : Array UInt8) : List Row :=
  match count with
  | 0 => []
  | count + 1 =>
    match row? start memory with
    | none => []
    | some row =>
      if start.toNat + 2 < 0x10000 then row :: range (start + 2) count memory else [row]

/-- The number of bytes that a window reaches back from its centre: two for each row wanted, as far as
    sixteen bits count and never past address zero. -/
def reach (center : UInt16) (before : Nat) : Nat :=
  min (min (2 * min before 0xFFFF) 0xFFFF) center.toNat

/-- The rows from `before` rows ahead of the centre to `after` rows behind it, as far as they are
    there. -/
def window (center : UInt16) (before after : Nat) (memory : Array UInt8) : List Row :=
  let back := reach center before
  -- An odd reach starts at address zero, and then no row stands at the centre itself.
  range (center - UInt16.ofNat back) (back / 2 + 1 + after) memory

/-! ## §3. Small laws. -/

/-- A range is empty where no row is. -/
theorem range_eq_nil_of_row? {start : UInt16} {memory : Array UInt8}
    (h : row? start memory = none) (count : Nat) : range start count memory = [] := by
  cases count with
  | zero => rfl
  | succ count => rw [range, h]

/-- A range has no more rows than were asked for. -/
theorem length_range_le (start : UInt16) (count : Nat) (memory : Array UInt8) :
    (range start count memory).length ≤ count := by
  induction count generalizing start with
  | zero => simp [range]
  | succ count ih =>
    rw [range]
    split
    · simp
    · split
      · simpa using ih (start + 2)
      · simp

end Disassembly

end Chip8
