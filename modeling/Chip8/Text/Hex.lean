/-
  Chip8.Text.Hex — hexadecimal text with a least number of digits.

  Numbers appear in two styles: upper-case digits in assembly text (`0x2FA`) and lower-case digits in
  messages to the host (`0x2fa`).  In both the width is a LEAST width: a number that needs more digits
  is written whole, so no two numbers share a text.

  Byte strings are written without a mark, two lower-case digits a byte, and read in either case.
-/

namespace Chip8.Hex

/-! ## §1. Digits. -/

/-- The digits of `n` in base sixteen, lower case, padded on the left with zeros to at least `width`. -/
def digits (width n : Nat) : List Char :=
  List.leftpad width '0' (Nat.toDigits 16 n)

/-- The digits of `n` in base sixteen, upper case, padded on the left with zeros to at least `width`. -/
def upperDigits (width n : Nat) : List Char :=
  (digits width n).map Char.toUpper

/-! ## §2. Marked texts. -/

/-- Lower-case text with the `0x` mark, as messages write it. -/
def lower (width n : Nat) : String :=
  "0x" ++ String.ofList (digits width n)

/-- Upper-case text with the `0x` mark, as assembly writes it. -/
def upper (width n : Nat) : String :=
  "0x" ++ String.ofList (upperDigits width n)

/-! ## §3. Byte strings. -/

/-- The two digits of a byte. -/
def byteDigits (b : UInt8) : List Char :=
  [Nat.digitChar (b.toNat / 16), Nat.digitChar (b.toNat % 16)]

/-- Two lower-case digits for each byte. -/
def ofBytes (bytes : List UInt8) : String := String.ofList (bytes.flatMap byteDigits)

/-- The value of a digit of either case. -/
def digitValue? (c : Char) : Option Nat :=
  if '0' ≤ c ∧ c ≤ '9' then some (c.toNat - 48)
  else if 'a' ≤ c ∧ c ≤ 'f' then some (c.toNat - 87)
  else if 'A' ≤ c ∧ c ≤ 'F' then some (c.toNat - 55)
  else none

/-- Reads bytes of two digits each behind those already read. -/
def readBytes? (done : Array UInt8) : List Char → Option (Array UInt8)
  | [] => some done
  | [_] => none
  | a :: b :: rest =>
    match digitValue? a, digitValue? b with
    | some high, some low => readBytes? (done.push (UInt8.ofNat (16 * high + low))) rest
    | _, _ => none

/-- The bytes of a text of two digits for each, in either case. -/
def toBytes? (text : String) : Option (Array UInt8) := readBytes? #[] text.toList

/-! ## §4. The width is a least width. -/

/-- A padded text has the wanted width or the width that the number needs, whichever is larger. -/
theorem length_digits (width n : Nat) :
    (digits width n).length = max width (Nat.toDigits 16 n).length := by
  rw [digits, List.length_leftpad]

/-- Upper case changes no lengths. -/
theorem length_upperDigits (width n : Nat) :
    (upperDigits width n).length = max width (Nat.toDigits 16 n).length := by
  simp [upperDigits, length_digits]

end Chip8.Hex
