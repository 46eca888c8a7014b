/-
  Chip8.Host.Keymap — the keys of a keyboard that stand for the keys of the machine.

  The sixteen keys lie on the left-hand block of the keyboard in the arrangement of the keypad, and the
  arrow keys double the four that most programs steer with.
-/

namespace Chip8

namespace Keymap

/-- The names of keyboard keys, lower case, and the keys that they stand for. -/
def layout : List (String × UInt8) := [
  ("1", 0x1), ("2", 0x2), ("3", 0x3), ("4", 0xC),
  ("q", 0x4), ("w", 0x5), ("e", 0x6), ("r", 0xD),
  ("a", 0x7), ("s", 0x8), ("d", 0x9), ("f", 0xE),
  ("z", 0xA), ("x", 0x0), ("c", 0xB), ("v", 0xF),
  ("arrowup", 0x2), ("arrowleft", 0x4), ("arrowright", 0x6), ("arrowdown", 0x8)]

/-- A name with its capital letters `A` to `Z` made small. -/
def lowerCase (name : String) : String := name.map Char.toLower

/-- The key that a keyboard key stands for; case does not matter. -/
def key? (name : String) : Option UInt8 := layout.lookup (lowerCase name)

end Keymap

end Chip8
