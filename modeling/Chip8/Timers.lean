/-
  Chip8.Timers — the delay and sound timers.

  Both count down to zero, one for each tick of the host's clock, and the sound is on while the sound
  timer is above zero.
-/

namespace Chip8

/-- The two timers. -/
structure Timers where
  /-- The timer that programs read. -/
  delay : UInt8
  /-- The timer that keeps the sound on. -/
  sound : UInt8
  deriving Repr, DecidableEq

namespace Timers

def ticksPerSecond : Nat := 60

def zero : Timers := { delay := 0, sound := 0 }

/-- One less, but not less than zero. -/
def countDown (value : UInt8) : UInt8 := if value = 0 then 0 else value - 1

/-- The timers after one tick. -/
def tick (t : Timers) : Timers := { delay := countDown t.delay, sound := countDown t.sound }

/-- Says whether the sound is on. -/
def soundOn (t : Timers) : Bool := 0 < t.sound

/-- Counting down is subtraction over the naturals. -/
theorem toNat_countDown (value : UInt8) : (countDown value).toNat = value.toNat - 1 := by
  unfold countDown
  split
  · rename_i h
    subst h
    rfl
  · rename_i h
    have hv : value.toNat ≠ 0 := fun h0 => h (UInt8.toNat_inj.mp (by simpa using h0))
    have hle : (1 : UInt8) ≤ value := by
      rw [UInt8.le_iff_toNat_le]
      simpa using Nat.one_le_iff_ne_zero.mpr hv
    rw [UInt8.toNat_sub_of_le _ _ hle]
    rfl

end Timers

end Chip8
