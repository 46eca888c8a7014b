/-
  Chip8.Keypad — the sixteen keys.

  A key is numbered by a byte, as a program holds it in a register.  Numbers above fifteen name no key:
  such a key is never held, and setting it does nothing.
-/

namespace Chip8

/-- Which keys are held. -/
structure Keypad where
  /-- Says of each key whether it is held. -/
  keys : Vector Bool 16
  deriving Repr, DecidableEq

namespace Keypad

def keyCount : Nat := 16

def released : Keypad := { keys := Vector.replicate 16 false }

/-- Holds or releases a key. -/
def set (k : Keypad) (key : UInt8) (held : Bool) : Keypad :=
  if h : key.toNat < 16 then { keys := k.keys.set key.toNat held h } else k

/-- Says whether a key is held. -/
def isHeld (k : Keypad) (key : UInt8) : Bool :=
  if h : key.toNat < 16 then k.keys[key.toNat] else false

/-- The held keys in ascending order. -/
def held (k : Keypad) : List (Fin 16) := (List.finRange 16).filter fun key => k.keys.get key

/-- The lowest held key. -/
def firstHeld (k : Keypad) : Option UInt8 := k.held.head?.map fun key => UInt8.ofNat key.val

/-- Setting one key says nothing about another. -/
theorem isHeld_set (k : Keypad) (key other : UInt8) (held : Bool) :
    (k.set key held).isHeld other =
      if key = other ∧ key.toNat < 16 then held else k.isHeld other := by
  unfold set isHeld
  by_cases hk : key.toNat < 16
  · by_cases ho : other.toNat < 16
    · simp only [hk, ho, ↓reduceDIte, and_true]
      rw [Vector.getElem_set]
      by_cases he : key = other
      · subst he
        simp
      · rw [if_neg he, if_neg fun h => he (UInt8.toNat_inj.mp h)]
    · have he : ¬key = other := fun h => ho (h ▸ hk)
      simp [ho, he]
  · simp [hk]

end Keypad

end Chip8
