/-
  Chip8.Proofs.Viewing — a machine as the reference sees it.

  The view of a machine reads every byte and word as a number and every array as a function.  Nothing is
  lost: machines of the right shape with the same view are the same.  For each write that an instruction
  can make, one lemma says what it is in the view.

  Main statements: `view_inj` (the view determines the machine), and the lemmas named `view_…` and
  `…_value` (a write to the machine is the write of the reference).
-/
import Chip8.Machine.Execute
import Chip8.Proofs.Drawing
import Chip8.Proofs.Performing
import Chip8.Proofs.Reference

namespace Chip8

/-! ## §1. The view. -/

/-- The general registers by number. -/
def Registers.value (r : Registers) (k : Nat) : Nat :=
  if h : k < 16 then (r.get ⟨k, h⟩).toNat else 0

/-- The bytes of memory by address. -/
def Memory.value (memory : Array UInt8) (a : Nat) : Nat := (memory[a]?.getD 0).toNat

/-- The slots of the call stack by number. -/
def CallStack.value (s : CallStack) (k : Nat) : Nat := if h : k < 16 then s.slots[k].toNat else 0

/-- The keys by number. -/
def Keypad.value (k : Keypad) (key : Nat) : Bool := if h : key < 16 then k.keys[key] else false

/-- The pixels by column and line. -/
def Framebuffer.value (pixels : Array UInt8) (column line : Nat) : Nat :=
  if column < width ∧ line < height then (pixels[column + line * width]?.getD 0).toNat else 0

/-- A machine as the reference sees it. -/
def Machine.view (m : Machine) : Reference.State :=
  { config := m.config
    v := m.registers.value
    i := m.registers.i.toNat
    pc := m.registers.pc.toNat
    memory := Memory.value m.memory
    slots := m.stack.value
    depth := m.stack.depth
    delay := m.timers.delay.toNat
    sound := m.timers.sound.toNat
    held := m.keypad.value
    pixel := Framebuffer.value m.framebuffer.pixels
    changed := m.framebuffer.changed
    status := m.status
    random := m.random }

/-! ## §2. Sixteen cells by number. -/

section Cells

variable {α β : Type} {f : α → β} {d : β}

/-- Sixteen cells are told by what they show. -/
theorem cells_inj (hf : Function.Injective f) {v v' : Vector α 16}
    (h : ∀ k, (if hk : k < 16 then f v[k] else d) = if hk : k < 16 then f v'[k] else d) : v = v' := by
  apply Vector.ext
  intro k hk
  have hv := h k
  rw [dif_pos hk, dif_pos hk] at hv
  exact hf hv

/-- A write to one of sixteen cells is a write to what they show. -/
theorem cells_set (v : Vector α 16) {j : Nat} (hj : j < 16) (a : α) :
    (fun k => if hk : k < 16 then f (v.set j a)[k] else d) =
      Function.update (fun k => if hk : k < 16 then f v[k] else d) j (f a) := by
  funext k
  rw [Function.update_apply]
  by_cases hk : k < 16
  · rw [dif_pos hk, dif_pos hk, Vector.getElem_set]
    by_cases hkj : k = j
    · rw [if_pos hkj, if_pos hkj.symm]
    · rw [if_neg hkj, if_neg fun h => hkj h.symm]
  · have hkj : k ≠ j := by omega
    rw [if_neg hkj, dif_neg hk, dif_neg hk]

end Cells

/-! ## §3. The view determines the machine. -/

theorem Registers.eq_of_value {r r' : Registers} (hv : r.value = r'.value)
    (hi : r.i.toNat = r'.i.toNat) (hpc : r.pc.toNat = r'.pc.toNat) : r = r' := by
  obtain ⟨v, i, pc⟩ := r
  obtain ⟨v', i', pc'⟩ := r'
  have hvv : v = v' := cells_inj (fun _ _ => UInt8.toNat_inj.mp) (congrFun hv)
  rw [hvv, show i = i' from UInt16.toNat_inj.mp hi, show pc = pc' from UInt16.toNat_inj.mp hpc]

theorem Memory.eq_of_value {memory memory' : Array UInt8} (size : memory.size = memory'.size)
    (h : Memory.value memory = Memory.value memory') : memory = memory' := by
  apply Array.ext size
  intro a ha ha'
  have h := congrFun h a
  simp only [Memory.value, Array.getElem?_eq_getElem ha, Array.getElem?_eq_getElem ha',
    Option.getD_some] at h
  exact UInt8.toNat_inj.mp h

theorem CallStack.eq_of_value {s s' : CallStack} (h : s.value = s'.value)
    (depth : s.depth = s'.depth) : s = s' := by
  obtain ⟨slots, n⟩ := s
  obtain ⟨slots', n'⟩ := s'
  have hs : slots = slots' := cells_inj (fun _ _ => UInt16.toNat_inj.mp) (congrFun h)
  rw [hs, show n = n' from depth]

theorem Keypad.eq_of_value {k k' : Keypad} (h : k.value = k'.value) : k = k' := by
  obtain ⟨keys⟩ := k
  obtain ⟨keys'⟩ := k'
  have hk : keys = keys' := cells_inj Function.injective_id (congrFun h)
  rw [hk]

namespace Framebuffer

/-- A regular grid has a pixel, off or on, at every position of the screen, and the view shows it. -/
theorem exists_value {pixels : Array UInt8} (hr : Regular pixels) {column line : Nat}
    (hc : column < width) (hl : line < height) :
    ∃ u, pixels[column + line * width]? = some u ∧ (u = 0 ∨ u = 1) ∧
      value pixels column line = u.toNat := by
  obtain ⟨u, hu, hbin⟩ := hr.exists_getElem? hc hl
  refine ⟨u, hu, hbin, ?_⟩
  rw [value, if_pos ⟨hc, hl⟩, hu]
  rfl

theorem eq_of_value {pixels pixels' : Array UInt8} (hr : Regular pixels) (hr' : Regular pixels')
    (h : value pixels = value pixels') : pixels = pixels' := by
  apply Array.ext (hr.size_eq.trans hr'.size_eq.symm)
  intro p hp hp'
  have hlt : p < width * height := by rwa [hr.size_eq] at hp
  have hc : p % width < width := Nat.mod_lt p (by decide)
  have hl : p / width < height := Nat.div_lt_of_lt_mul hlt
  have hpos : p % width + p / width * width = p := Nat.mod_add_div' p width
  obtain ⟨u, hu, _, hval⟩ := exists_value hr hc hl
  obtain ⟨u', hu', _, hval'⟩ := exists_value hr' hc hl
  rw [hpos, Array.getElem?_eq_getElem hp, Option.some.injEq] at hu
  rw [hpos, Array.getElem?_eq_getElem hp', Option.some.injEq] at hu'
  rw [h, hval'] at hval
  rw [hu, hu']
  exact (UInt8.toNat_inj.mp hval).symm

end Framebuffer

/-- Well-shaped machines with the same view are the same in every part. -/
theorem Machine.view_inj {m m' : Machine} (hm : m.WellShaped) (hm' : m'.WellShaped)
    (h : m.view = m'.view) : m = m' := by
  -- Part by part; only the sizes of memory and screen are not in the view.
  have hr := Registers.eq_of_value (congrArg Reference.State.v h) (congrArg Reference.State.i h)
    (congrArg Reference.State.pc h)
  have hmem := Memory.eq_of_value (hm.size_memory.trans hm'.size_memory.symm)
    (congrArg Reference.State.memory h)
  have hs := CallStack.eq_of_value (congrArg Reference.State.slots h)
    (congrArg Reference.State.depth h)
  have hk := Keypad.eq_of_value (congrArg Reference.State.held h)
  have hp := Framebuffer.eq_of_value hm.regular hm'.regular (congrArg Reference.State.pixel h)
  have hd := UInt8.toNat_inj.mp (congrArg Reference.State.delay h)
  have hso := UInt8.toNat_inj.mp (congrArg Reference.State.sound h)
  have hcf := congrArg Reference.State.config h
  have hch := congrArg Reference.State.changed h
  have hst := congrArg Reference.State.status h
  have hra := congrArg Reference.State.random h
  obtain ⟨c, r, mem, s, ⟨d, so⟩, k, ⟨p, ch⟩, st, ra⟩ := m
  obtain ⟨c', r', mem', s', ⟨d', so'⟩, k', ⟨p', ch'⟩, st', ra'⟩ := m'
  simp only [Machine.view] at hr hmem hs hk hp hd hso hcf hch hst hra
  rw [hr, hmem, hs, hk, hp, hd, hso, hcf, hch, hst, hra]

/-! ## §4. Registers. -/

theorem Registers.value_of_register (r : Registers) (x : Register) : r.value x.val = (r.get x).toNat :=
  dif_pos x.isLt

theorem Registers.value_set (r : Registers) (x : Register) (a : UInt8) :
    (r.set x a).value = Function.update r.value x.val a.toNat :=
  cells_set r.v x.isLt a

theorem Registers.value_setFirst (r : Registers) (bytes : List UInt8) (k : Nat) (hk : k < 16) :
    (r.setFirst bytes).value k = (bytes[k]?.map UInt8.toNat).getD (r.value k) := by
  simp only [Registers.value, dif_pos hk, Registers.get_setFirst]
  rcases bytes[k]? with _ | byte
  · rfl
  · rfl

/-! ## §5. Memory, calls and keys. -/

/-- A write to memory is seen as far as memory goes. -/
theorem Memory.value_overlay {memory : Array UInt8} {start : Nat} {bytes : List UInt8}
    (h : start + bytes.length ≤ memory.size) (a : Nat) :
    value (overlay memory start bytes) a =
      if start ≤ a ∧ a < start + bytes.length then (bytes.map UInt8.toNat).getD (a - start) 0
      else value memory a := by
  rw [value, getElem?_overlay]
  by_cases ha : start ≤ a ∧ a < start + bytes.length
  · rw [if_pos ha, if_pos ⟨ha.1, ha.2, by omega⟩, List.getD_eq_getElem?_getD, List.getElem?_map]
    rcases bytes[a - start]? with _ | byte
    · rfl
    · rfl
  · rw [if_neg ha, if_neg fun h => ha ⟨h.1, h.2.1⟩, value]

theorem CallStack.value_set {s : CallStack} (h : s.depth < 16) (depth : Nat) (address : UInt16) :
    CallStack.value { slots := s.slots.set s.depth address h, depth } =
      Function.update s.value s.depth address.toNat :=
  cells_set s.slots h address

theorem Keypad.value_set {k : Keypad} {key : UInt8} {held : Bool} (h : key.toNat < 16) :
    (k.set key held).value = Function.update k.value key.toNat held := by
  rw [Keypad.set, dif_pos h]
  exact cells_set (f := id) k.keys h held

/-- The lowest held key is the first that the view holds. -/
theorem Keypad.firstHeld_eq (k : Keypad) :
    k.firstHeld.map UInt8.toNat = (List.range 16).find? k.value := by
  have hv : k.value ∘ Fin.val = fun key : Fin 16 => k.keys.get key := by
    funext key
    exact dif_pos key.isLt
  rw [← List.map_coe_finRange_eq_range, List.find?_map, hv, Keypad.firstHeld, Keypad.held,
    List.head?_filter, Option.map_map]
  apply congrArg (fun f => Option.map f _)
  funext key
  exact UInt8.toNat_ofNat_of_lt' (Nat.lt_trans key.isLt (by decide))

/-! ## §6. The screen. -/

namespace Framebuffer

/-- A blank screen shows nothing. -/
theorem value_replicate (n : Nat) : value (Array.replicate n 0) = fun _ _ => 0 := by
  funext column line
  rw [value]
  split
  · rw [Array.getElem?_replicate]
    split
    · rfl
    · rfl
  · rfl

/-- A pixel that at most one hit reaches. -/
theorem toNat_toggled {u : UInt8} (hu : u = 0 ∨ u = 1) {hits : Nat} (h : hits ≤ 1) :
    (toggled u hits).toNat = if hits = 1 then 1 - u.toNat else u.toNat := by
  rcases Nat.le_one_iff_eq_zero_or_eq_one.mp h with rfl | rfl
  · rfl
  · rcases hu with rfl | rfl
    · rfl
    · rfl

end Framebuffer

/-! ## §7. Machines. -/

namespace Machine

variable {m : Machine}

theorem view_v (m : Machine) (x : Register) : m.view.v x.val = (m.v x).toNat :=
  m.registers.value_of_register x

theorem view_memory {a : Nat} {byte : UInt8} (h : m.memory[a]? = some byte) :
    m.view.memory a = byte.toNat := by
  show (m.memory[a]?.getD 0).toNat = _
  rw [h]
  rfl

theorem view_setV (m : Machine) (x : Register) (a : UInt8) :
    (m.setV x a).view = m.view.setV x.val a.toNat := by
  exact congrArg (fun v => { m.view with v }) (m.registers.value_set x a)

/-- Writing a bit to the flag register is setting the flag. -/
theorem view_setFlag (m : Machine) (bit : Bool) :
    ({ m with registers := m.registers.setFlag bit } : Machine).view = m.view.setFlag bit := by
  have h := view_setV m Register.flag (if bit then 1 else 0)
  cases bit
  · exact h
  · exact h

theorem view_setI (m : Machine) (a : UInt16) : (m.setI a).view = { m.view with i := a.toNat } := rfl

theorem view_clear (m : Machine) :
    ({ m with framebuffer := m.framebuffer.clear } : Machine).view = m.view.clearScreen := by
  exact congrArg (fun pixel => { m.view with pixel, changed := true }) (Framebuffer.value_replicate _)

theorem view_takeRandom (m : Machine) (x : Register) (mask : UInt8) :
    (m.takeRandom x mask).view = m.view.takeRandom x.val mask.toNat := by
  have h := m.registers.value_set x (m.random.next.1 &&& mask)
  rw [UInt8.toNat_and] at h
  simp only [takeRandom_eq, view, Reference.State.takeRandom, Reference.State.setV, h,
    Registers.i_set, Registers.pc_set]

/-- Bytes that are written to memory are stored. -/
theorem view_store (full : m.memory.size = Memory.capacity) {bytes : List UInt8}
    (h : m.registers.i.toNat + bytes.length ≤ Memory.capacity) :
    ({ m with memory := Memory.overlay m.memory m.registers.i.toNat bytes } : Machine).view =
      m.view.store (bytes.map UInt8.toNat) := by
  have hv : Memory.value (Memory.overlay m.memory m.registers.i.toNat bytes) = fun a =>
      if m.registers.i.toNat ≤ a ∧ a < m.registers.i.toNat + (bytes.map UInt8.toNat).length then
        (bytes.map UInt8.toNat).getD (a - m.registers.i.toNat) 0
      else Memory.value m.memory a := by
    funext a
    rw [Memory.value_overlay (by rwa [full]), List.length_map]
  exact congrArg (fun memory => { m.view with memory }) hv

/-- The bytes at the index register are those that the view shows there. -/
theorem view_bytesAtIndex (full : m.memory.size = Memory.capacity) {count j : Nat}
    (h : m.registers.i.toNat + count ≤ Memory.capacity) (hj : j < count) :
    ∃ byte, (m.bytesAtIndex count)[j]? = some byte ∧
      m.view.memory (m.view.i + j) = byte.toNat := by
  have ha : m.registers.i.toNat + j < m.memory.size := by omega
  have hbyte := Array.getElem?_eq_getElem ha
  exact ⟨_, (m.getElem?_bytesAtIndex hj).trans hbyte, view_memory hbyte⟩

/-- Registers that are loaded from memory are restored. -/
theorem view_restore (full : m.memory.size = Memory.capacity) {x : Register}
    (h : m.registers.i.toNat + (x.val + 1) ≤ Memory.capacity) :
    ({ m with registers := m.registers.setFirst (m.bytesAtIndex (x.val + 1)) } : Machine).view =
      m.view.restore x.val := by
  have hv : (m.registers.setFirst (m.bytesAtIndex (x.val + 1))).value = fun k =>
      if k ≤ x.val then m.view.memory (m.view.i + k) else m.registers.value k := by
    funext k
    by_cases hk : k < 16
    · rw [Registers.value_setFirst _ _ k hk]
      by_cases hx : k ≤ x.val
      · obtain ⟨byte, hb, hm⟩ := view_bytesAtIndex full h (Nat.lt_succ_of_le hx)
        rw [hb, if_pos hx, hm]
        rfl
      · have hlen := length_bytesAtIndex full h
        rw [if_neg hx, List.getElem?_eq_none (by omega)]
        rfl
    -- There is no register of this number, and both sides show zero.
    · have hx : ¬k ≤ x.val := by
        have := x.isLt
        omega
      rw [if_neg hx, Registers.value, dif_neg hk, Registers.value, dif_neg hk]
  exact congrArg (fun v => { m.view with v }) hv

/-- The pixels that a sprite at the index register covers are those that one of its bits reaches. -/
theorem covers_eq_true_iff (full : m.memory.size = Memory.capacity) {count : Nat}
    (h : m.registers.i.toNat + count ≤ Memory.capacity) (x y column line : Nat) :
    m.view.covers x y count column line = true ↔
      (Framebuffer.spriteHits x y (m.bytesAtIndex count) column line).Nonempty := by
  have hbit : ∀ j b, j < count → Framebuffer.spriteBit (m.bytesAtIndex count) (j, b) =
      (m.view.memory (m.view.i + j)).testBit (7 - b) := by
    intro j b hj
    obtain ⟨byte, hb, hm⟩ := view_bytesAtIndex full h hj
    rw [Framebuffer.spriteBit, List.getD_eq_getElem?_getD, hb, hm]
    rfl
  have hlen := length_bytesAtIndex full h
  simp only [Reference.State.covers, List.any_eq_true, List.mem_range, Bool.and_eq_true,
    beq_iff_eq]
  constructor
  · intro h'
    obtain ⟨b, hb, j, hj, ⟨hset, hc⟩, hl⟩ := h'
    refine ⟨(j, b), Framebuffer.mem_spriteHits.mpr ⟨⟨by rwa [hlen], hb⟩, ?_, hc, hl⟩⟩
    rwa [hbit j b hj]
  · intro h'
    obtain ⟨⟨j, b⟩, hmem⟩ := h'
    obtain ⟨⟨hj, hb⟩, hset, hc, hl⟩ := Framebuffer.mem_spriteHits.mp hmem
    rw [hlen] at hj
    rw [hbit j b hj] at hset
    exact ⟨b, hb, j, hj, ⟨hset, hc⟩, hl⟩

/-- A pixel that a sprite reaches at most once is toggled if it is covered. -/
theorem value_toggleSprite (hm : m.WellShaped) {x y count : Nat} (low : count ≤ Framebuffer.height)
    (h : m.registers.i.toNat + count ≤ Memory.capacity) {collision : Bool} {pixels : Array UInt8}
    (ht : Framebuffer.toggleCells false m.framebuffer.pixels
      (Framebuffer.spriteCells x y (m.bytesAtIndex count)) = .ok (collision, pixels))
    (column line : Nat) :
    Framebuffer.value pixels column line =
      if m.view.covers x y count column line then 1 - m.view.pixel column line
      else m.view.pixel column line := by
  have hcov := covers_eq_true_iff hm.size_memory h x y column line
  have hlow : (m.bytesAtIndex count).length ≤ Framebuffer.height := by
    rwa [length_bytesAtIndex hm.size_memory h]
  by_cases hin : column < Framebuffer.width ∧ line < Framebuffer.height
  · obtain ⟨u, hu, hbin, hval⟩ := Framebuffer.exists_value hm.regular hin.1 hin.2
    have hle := Framebuffer.card_spriteHits_le_one hlow x y column line
    have hget := Framebuffer.getElem?_toggleSprite ht hin.1 line
    rw [hu, Option.map_some] at hget
    rw [show m.view.pixel column line = u.toNat from hval, Framebuffer.value, if_pos hin, hget,
      Option.getD_some, Framebuffer.toNat_toggled hbin hle]
    -- At most one hit, so there is one exactly if there is any.
    by_cases hc : m.view.covers x y count column line = true
    · have hpos := Finset.card_pos.mpr (hcov.mp hc)
      rw [if_pos hc, if_pos (by omega)]
    · have hzero : ¬0 < _ := fun hpos => hc (hcov.mpr (Finset.card_pos.mp hpos))
      rw [if_neg hc, if_neg (by omega)]
  -- Off the screen nothing is covered and nothing shown.
  · have hc : ¬m.view.covers x y count column line = true := by
      intro hc
      obtain ⟨bit, hbit⟩ := hcov.mp hc
      obtain ⟨_, _, rfl, rfl⟩ := Framebuffer.mem_spriteHits.mp hbit
      exact hin ⟨Nat.mod_lt _ (by decide), Nat.mod_lt _ (by decide)⟩
    rw [if_neg hc, Framebuffer.value, if_neg hin]
    exact (if_neg hin).symm

/-- A sprite that reaches no pixel twice turns a lit one off if and only if it covers one. -/
theorem collision_eq_any (hm : m.WellShaped) {x y count : Nat} (low : count ≤ Framebuffer.height)
    (h : m.registers.i.toNat + count ≤ Memory.capacity) {collision : Bool} {pixels : Array UInt8}
    (ht : Framebuffer.toggleCells false m.framebuffer.pixels
      (Framebuffer.spriteCells x y (m.bytesAtIndex count)) = .ok (collision, pixels)) :
    collision = (List.range 64).any fun column => (List.range 32).any fun line =>
      m.view.covers x y count column line && m.view.pixel column line == 1 := by
  have hcov := covers_eq_true_iff hm.size_memory h x y
  have hlow : (m.bytesAtIndex count).length ≤ Framebuffer.height := by
    rwa [length_bytesAtIndex hm.size_memory h]
  rw [Bool.eq_iff_iff, Framebuffer.collision_toggleSprite hm.regular ht]
  simp only [List.any_eq_true, List.mem_range, Bool.and_eq_true, beq_iff_eq]
  constructor
  · intro h'
    obtain ⟨column, line, u, hc, hl, hu, h2⟩ := h'
    obtain ⟨u', hu', hbin, hval⟩ := Framebuffer.exists_value hm.regular hc hl
    rw [hu, Option.some.injEq] at hu'
    have hle := Framebuffer.card_spriteHits_le_one hlow x y column line
    have hu1 : u.toNat ≤ 1 := hu' ▸ Framebuffer.toNat_le_one hbin
    -- A pixel is one at most and has one hit at most, so to reach two takes both.
    refine ⟨column, hc, line, hl, (hcov column line).mpr (Finset.card_pos.mp (by omega)), ?_⟩
    show Framebuffer.value m.framebuffer.pixels column line = 1
    rw [hval, ← hu']
    omega
  · intro h'
    obtain ⟨column, hc, line, hl, hcovers, hlit⟩ := h'
    obtain ⟨u, hu, hbin, hval⟩ := Framebuffer.exists_value hm.regular hc hl
    have hpos := Finset.card_pos.mpr ((hcov column line).mp hcovers)
    have hu1 : u.toNat = 1 := hval.symm.trans hlit
    exact ⟨column, line, u, hc, hl, hu, by omega⟩

/-- Drawing a sprite no taller than the screen is the drawing of the reference. -/
theorem view_draw (hm : m.WellShaped) (x y : Register) {count : Nat}
    (low : count ≤ Framebuffer.height) (h : m.registers.i.toNat + count ≤ Memory.capacity)
    {collision : Bool} {pixels : Array UInt8}
    (ht : Framebuffer.toggleCells false m.framebuffer.pixels
      (Framebuffer.spriteCells (m.v x).toNat (m.v y).toNat (m.bytesAtIndex count)) =
        .ok (collision, pixels)) :
    ({ m with framebuffer := { pixels, changed := true },
              registers := m.registers.setFlag collision } : Machine).view =
      m.view.draw x.val y.val count := by
  have hp : Framebuffer.value pixels = _ :=
    funext fun column => funext fun line => value_toggleSprite hm low h ht column line
  have hflag := view_setFlag ({ m with framebuffer := { pixels, changed := true } } : Machine) collision
  rw [hflag, collision_eq_any hm low h ht, Reference.State.draw, view_v, view_v]
  exact congrArg (fun pixel => ({ m.view with pixel, changed := true } : Reference.State).setFlag _) hp

/-! ## §8. What a host does between steps. -/

theorem view_countDown (m : Machine) : m.countDown.view = m.view.countDown := by
  have hd := Timers.toNat_countDown m.timers.delay
  have hs := Timers.toNat_countDown m.timers.sound
  simp only [view, countDown, Timers.tick, Reference.State.countDown, hd, hs]

theorem view_setKey (m : Machine) (key : UInt8) (held : Bool) :
    (m.setKey key held).view = m.view.setKey key.toNat held := by
  rw [Reference.State.setKey]
  split
  · rename_i hle
    have hk : key.toNat < 16 := Nat.lt_succ_of_le hle
    exact congrArg (fun held => { m.view with held }) (Keypad.value_set hk)
  · rename_i hgt
    have hk : ¬key.toNat < 16 := fun hk => hgt (Nat.le_of_lt_succ hk)
    rw [setKey, Keypad.set, dif_neg hk]

theorem view_isHeld (m : Machine) (key : UInt8) : m.view.isHeld key.toNat = m.keypad.isHeld key := by
  rw [Reference.State.isHeld, Keypad.isHeld]
  by_cases hk : key.toNat < 16
  · rw [dif_pos hk, decide_eq_true (Nat.le_of_lt_succ hk), Bool.true_and]
    exact dif_pos hk
  · rw [dif_neg hk, decide_eq_false fun hle => hk (Nat.lt_succ_of_le hle), Bool.false_and]

end Machine

end Chip8
