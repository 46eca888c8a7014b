/-
  Chip8.Proofs.Loading — images, resets and reloads as plain equations.

  On a machine of the right shape neither a load nor a reset can breach the memory, so each comes down to
  one equation: a load overlays the image, a reset gives the fresh machine of the same choices, and a
  reload is the one after the other.  Of a machine of any shape it is still true that its choices stay.

  Main statements: `load_of_le` and `load_of_lt` (what loading does), `reset_eq_new`, `reload_of_le` and
  `reload_of_lt`; `config_of_reload` (the choices of the host).
-/
import Chip8.Machine.Load
import Chip8.Proofs.Stepping

namespace Chip8

namespace Machine

variable {m : Machine}

/-! ## §1. Loading. -/

/-- The machine with an image in the program's place. -/
def withImage (m : Machine) (image : List UInt8) : Machine :=
  { m with memory := Memory.overlay m.memory Memory.programStart.toNat image }

/-- An image that fits is loaded. -/
theorem load_of_le (full : m.memory.size = Memory.capacity) {image : List UInt8}
    (h : image.length ≤ Memory.maxImageSize) : m.load image = .ok (m.withImage image) := by
  have hle : Memory.programStart.toNat + image.length ≤ Memory.capacity := by
    rw [Memory.maxImageSize] at h
    have : Memory.programStart.toNat ≤ Memory.capacity := by decide
    omega
  simp only [load, Memory.span_of_le hle, Memory.writeSpan_ofLe full hle, withImage]

/-- An image that does not fit is refused. -/
theorem load_of_lt {image : List UInt8} (h : Memory.maxImageSize < image.length) :
    m.load image = .error (.fault .imageTooLarge) := by
  have hlt : Memory.capacity < Memory.programStart.toNat + image.length := by
    rw [Memory.maxImageSize] at h
    omega
  simp only [load, Memory.span_of_lt hlt]

/-- A machine is made with an image that fits. -/
theorem ofImage_of_le (config : Config) {image : List UInt8} (h : image.length ≤ Memory.maxImageSize) :
    ofImage config image = .ok ((new config).withImage image) :=
  load_of_le (wellShaped_new config).size_memory h

theorem ofImage_of_lt (config : Config) {image : List UInt8} (h : Memory.maxImageSize < image.length) :
    ofImage config image = .error (.fault .imageTooLarge) :=
  load_of_lt h

/-- The byte at an address of a machine with an image. -/
theorem getElem?_withImage (m : Machine) (image : List UInt8) (a : Nat) :
    (m.withImage image).memory[a]? =
      if Memory.programStart.toNat ≤ a ∧ a < Memory.programStart.toNat + image.length ∧
        a < m.memory.size then image[a - Memory.programStart.toNat]? else m.memory[a]? :=
  Memory.getElem?_overlay ..

/-- Loading keeps the shape. -/
theorem WellShaped.withImage (hm : m.WellShaped) (image : List UInt8) :
    (m.withImage image).WellShaped :=
  hm.of_parts (Memory.size_overlay ..) hm.regular hm.depth_le

/-- A program counter at two bytes of an image is at their word. -/
theorem fetches_of_image (full : m.memory.size = Memory.capacity) {image : List UInt8}
    {after : Machine} (memory : after.memory = (m.withImage image).memory) {k : Nat}
    (pc : after.registers.pc.toNat = Memory.programStart.toNat + k)
    (inside : Memory.programStart.toNat + k + 1 < Memory.capacity) {high low : UInt8}
    (hh : image[k]? = some high) (hl : image[k + 1]? = some low) :
    after.Fetches (Word.ofBytes high low) := by
  have hk : k + 1 < image.length := (List.getElem?_eq_some_iff.mp hl).1
  refine ⟨by rwa [pc], high, low, ?_, ?_, rfl⟩
  · rw [memory, pc, getElem?_withImage, full, if_pos ⟨by omega, by omega, by omega⟩,
      Nat.add_sub_cancel_left, hh]
  · rw [memory, pc, getElem?_withImage, full, if_pos ⟨by omega, by omega, by omega⟩,
      Nat.add_assoc, Nat.add_sub_cancel_left, hl]

/-- The first two bytes of an image are the first word of the program. -/
theorem fetches_withImage (full : m.memory.size = Memory.capacity)
    (start : m.registers.pc = Memory.programStart) (high low : UInt8) (image : List UInt8) :
    (m.withImage (high :: low :: image)).Fetches (Word.ofBytes high low) :=
  fetches_of_image full rfl (k := 0) (congrArg UInt16.toNat start) (by decide) rfl rfl

/-! ## §2. Resetting and reloading. -/

/-- A reset gives the fresh machine of the same choices, whatever happened before. -/
theorem reset_eq_new (full : m.memory.size = Memory.capacity) : m.reset = .ok (new m.config) := by
  have hw : Memory.writeSpan (Array.replicate m.memory.size 0) Font.span Font.glyphs = _ :=
    Memory.writeSpan_eq (Array.size_replicate.trans full) (by decide)
  simp only [reset, hw]
  rw [full]
  rfl

theorem reload_of_le (full : m.memory.size = Memory.capacity) {image : List UInt8}
    (h : image.length ≤ Memory.maxImageSize) :
    m.reload image = .ok (none, (new m.config).withImage image) := by
  have hl := load_of_le (wellShaped_new m.config).size_memory h
  simp only [reload, reset_eq_new full, hl]

theorem reload_of_lt (full : m.memory.size = Memory.capacity) {image : List UInt8}
    (h : Memory.maxImageSize < image.length) :
    m.reload image = .ok (some .imageTooLarge, new m.config) := by
  simp only [reload, reset_eq_new full, load_of_lt h]

/-! ## §3. The choices of the host stay, whatever the shape of the machine. -/

theorem config_of_load {image : List UInt8} {after : Machine} (h : m.load image = .ok after) :
    after.config = m.config := by
  unfold load at h
  split at h
  · cases h
  · split at h
    · cases h
    · cases h
      rfl

theorem config_of_reset {after : Machine} (h : m.reset = .ok after) : after.config = m.config := by
  unfold reset at h
  split at h
  · cases h
  · cases h
    rfl

theorem config_of_reload {image : List UInt8} {refused : Option Fault} {after : Machine}
    (h : m.reload image = .ok (refused, after)) : after.config = m.config := by
  unfold reload at h
  split at h
  · cases h
  · rename_i cleared hc
    have hcleared := config_of_reset hc
    split at h
    · rename_i loaded hl
      cases h
      exact (config_of_load hl).trans hcleared
    · cases h
      exact hcleared
    · cases h

end Machine

end Chip8
