/-
  Chip8.Proofs.Performing — everything that one instruction can do.

  An instruction on a machine of the right shape has two ways to go.  Either the machine refuses what the
  instruction demands, and then the instruction gives up with the machine as it found it; or the machine
  grants it, and then the instruction completes on a machine of the right shape.  Nothing in between
  happens: no instruction fails halfway and none breaches its storage.  On a machine of any shape less is
  known, but still what each instruction writes to if it completes.

  Main statements: `perform_of_refusal?` and `perform_of_granted` (the two ways to go), `storeBytes_cases`
  and its siblings (what is written on any machine), `kept_perform` (what no instruction touches).
-/
import Chip8.Machine.Execute
import Chip8.Proofs.Decoding
import Chip8.Proofs.Drawing

namespace Chip8

/-! ## §1. Spans by their end. -/

/-- The span of so many addresses from one on. -/
def Span.ofLe (start length : Nat) (h : start + length ≤ Memory.capacity) : Span :=
  { start, stop := start + length, start_le_stop := Nat.le_add_right start length
    stop_le_capacity := h }

theorem Memory.span_of_le {address : UInt16} {length : Nat}
    (h : address.toNat + length ≤ capacity) :
    span address length = .ok (Span.ofLe address.toNat length h) :=
  dif_pos h

theorem Memory.writeSpan_ofLe {memory : Array UInt8} {start : Nat} {bytes : List UInt8}
    (full : memory.size = capacity) (h : start + bytes.length ≤ capacity) :
    writeSpan memory (Span.ofLe start bytes.length h) bytes = .ok (overlay memory start bytes) :=
  writeSpan_eq full (Nat.add_sub_cancel_left start bytes.length).symm

theorem Memory.span_of_lt {address : UInt16} {length : Nat}
    (h : capacity < address.toNat + length) :
    span address length = .error .addressOutOfBounds :=
  dif_neg (Nat.not_le.mpr h)

namespace Machine

variable {m : Machine}

/-- The grid of a well-shaped machine. -/
theorem WellShaped.regular (hm : m.WellShaped) : Framebuffer.Regular m.framebuffer.pixels :=
  ⟨hm.size_pixels, hm.pixel_binary⟩

/-- The machine and the flow of an instruction that completes are its own. -/
theorem done_inj {after after' : Machine} {flow flow' : Flow}
    (h : after.done flow = after'.done flow') : after = after' ∧ flow = flow' := by
  have hf := congrArg Effect.result h
  simp only [done, Except.ok.injEq] at hf
  exact ⟨congrArg Effect.machine h, hf⟩

theorem giveUp_ne_done {trap : Trap} {after : Machine} {flow : Flow} :
    m.giveUp trap ≠ after.done flow := by
  intro h
  cases congrArg Effect.result h

/-- A general register behind a write to one. -/
theorem v_setV (m : Machine) (x k : Register) (value : UInt8) :
    (m.setV x value).v k = if k = x then value else m.v k := by
  have h : (m.setV x value).v k = if x = k then value else m.v k := Registers.get_set ..
  rw [h]
  simp only [eq_comm]

/-! ## §2. Instructions on memory. -/

/-- The bytes in memory from the index register on, as many as there are. -/
def bytesAtIndex (m : Machine) (count : Nat) : List UInt8 :=
  (m.memory.extract m.registers.i.toNat (m.registers.i.toNat + count)).toList

theorem length_bytesAtIndex (full : m.memory.size = Memory.capacity) {count : Nat}
    (h : m.registers.i.toNat + count ≤ Memory.capacity) :
    (m.bytesAtIndex count).length = count := by
  rw [bytesAtIndex, Array.length_toList, Array.size_extract, full]
  omega

theorem getElem?_bytesAtIndex (m : Machine) {count j : Nat} (hj : j < count) :
    (m.bytesAtIndex count)[j]? = m.memory[m.registers.i.toNat + j]? := by
  rw [bytesAtIndex, Array.getElem?_toList, Array.getElem?_extract]
  split
  · rfl
  -- Both end with memory.
  · exact (Array.getElem?_eq_none (by omega)).symm

/-- Registers that are loaded from memory are those up to the last one. -/
theorem get_setFirst_bytesAtIndex (full : m.memory.size = Memory.capacity) {x : Register}
    (h : m.registers.i.toNat + (x.val + 1) ≤ Memory.capacity) (k : Register) :
    (m.registers.setFirst (m.bytesAtIndex (x.val + 1))).get k =
      if k ≤ x then m.memory[m.registers.i.toNat + k.val]?.getD (m.v k) else m.v k := by
  rw [Registers.get_setFirst]
  split
  · rename_i hk
    rw [getElem?_bytesAtIndex m (Nat.lt_succ_of_le hk)]
    rfl
  · rename_i hk
    have hk' : ¬k.val ≤ x.val := hk
    have hlength := length_bytesAtIndex full h
    rw [List.getElem?_eq_none (by omega)]
    rfl

theorem fetchBytes_of_le (full : m.memory.size = Memory.capacity) {count : Nat}
    (h : m.registers.i.toNat + count ≤ Memory.capacity) :
    m.fetchBytes count = .ok (m.bytesAtIndex count) := by
  simp only [fetchBytes, Memory.span_of_le h, Memory.readSpan_eq full, bytesAtIndex, Span.ofLe]

theorem fetchBytes_of_lt {count : Nat} (h : Memory.capacity < m.registers.i.toNat + count) :
    m.fetchBytes count = .error (.fault .addressOutOfBounds) := by
  simp only [fetchBytes, Memory.span_of_lt h]

theorem storeBytes_of_le (full : m.memory.size = Memory.capacity) {bytes : List UInt8}
    (h : m.registers.i.toNat + bytes.length ≤ Memory.capacity) :
    m.storeBytes bytes =
      { m with memory := Memory.overlay m.memory m.registers.i.toNat bytes }.done .advance := by
  simp only [storeBytes, Memory.span_of_le h, Memory.writeSpan_ofLe full h]

theorem storeBytes_of_lt {bytes : List UInt8}
    (h : Memory.capacity < m.registers.i.toNat + bytes.length) :
    m.storeBytes bytes = m.giveUp (.fault .addressOutOfBounds) := by
  simp only [storeBytes, Memory.span_of_lt h]

theorem restoreRegisters_of_le (full : m.memory.size = Memory.capacity) {x : Register}
    (h : m.registers.i.toNat + (x.val + 1) ≤ Memory.capacity) :
    m.restoreRegisters x =
      { m with registers := m.registers.setFirst (m.bytesAtIndex (x.val + 1)) }.done .advance := by
  simp only [restoreRegisters, fetchBytes_of_le full h]

theorem restoreRegisters_of_lt {x : Register}
    (h : Memory.capacity < m.registers.i.toNat + (x.val + 1)) :
    m.restoreRegisters x = m.giveUp (.fault .addressOutOfBounds) := by
  simp only [restoreRegisters, fetchBytes_of_lt h]

/-- A sprite on the screen of a machine starts at most at `0xFF` and has at most as many rows, so its
    coordinates fit. -/
theorem drawRows_of_le (hm : m.WellShaped) (x y : Register) {height : UInt8}
    (h : m.registers.i.toNat + height.toNat ≤ Memory.capacity) :
    ∃ collision pixels,
      Framebuffer.toggleCells false m.framebuffer.pixels
        (Framebuffer.spriteCells (m.v x).toNat (m.v y).toNat (m.bytesAtIndex height.toNat)) =
          .ok (collision, pixels) ∧
      Framebuffer.Regular pixels ∧
      m.drawRows x y height =
        { m with framebuffer := { pixels, changed := true },
                 registers := m.registers.setFlag collision }.done .advance := by
  have hx : (m.v x).toNat + Framebuffer.spriteWidth ≤ Framebuffer.coordinateLimit := by
    have := (m.v x).toNat_lt
    rw [Framebuffer.spriteWidth, Framebuffer.coordinateLimit]
    omega
  have hy : (m.v y).toNat + (m.bytesAtIndex height.toNat).length ≤ Framebuffer.coordinateLimit := by
    have := (m.v y).toNat_lt
    have := height.toNat_lt
    rw [length_bytesAtIndex hm.size_memory h, Framebuffer.coordinateLimit]
    omega
  obtain ⟨collision, pixels, ht, hd, hr⟩ := Framebuffer.exists_draw hm.regular hx hy
  refine ⟨collision, pixels, ht, hr, ?_⟩
  simp only [drawRows, fetchBytes_of_le hm.size_memory h, hd]

theorem drawRows_of_lt {x y : Register} {height : UInt8}
    (h : Memory.capacity < m.registers.i.toNat + height.toNat) :
    m.drawRows x y height = m.giveUp (.fault .addressOutOfBounds) := by
  simp only [drawRows, fetchBytes_of_lt h]

/-! ## §3. Calls and returns. -/

theorem openCall_of_lt {target : UInt16} (h : m.stack.depth < 16) :
    m.openCall target =
      { m with stack := { slots := m.stack.slots.set m.stack.depth m.registers.pc h,
                          depth := m.stack.depth + 1 } }.done (.jump target) := by
  simp only [openCall, CallStack.push, dif_pos h]

theorem openCall_of_full {target : UInt16} (h : m.stack.depth = CallStack.capacity) :
    m.openCall target = m.giveUp (.fault .stackOverflow) := by
  have hd : ¬m.stack.depth < 16 := by rw [h]; decide
  simp only [openCall, CallStack.push, dif_neg hd]

theorem returnFromCall_of_succ {depth : Nat} (hd : m.stack.depth = depth + 1) (h : depth < 16) :
    m.returnFromCall =
      { m with stack := { m.stack with depth } }.done (.jump (m.stack.slots[depth] + 2)) := by
  simp only [returnFromCall, CallStack.pop, hd, dif_pos h]

theorem returnFromCall_of_fault (hd : m.stack.depth = 0) (he : m.config.emptyReturn = .fault) :
    m.returnFromCall = m.giveUp (.fault .stackUnderflow) := by
  simp only [returnFromCall, CallStack.pop, hd, he]

theorem returnFromCall_of_toProgramStart (hd : m.stack.depth = 0)
    (he : m.config.emptyReturn = .toProgramStart) :
    m.returnFromCall = m.done (.jump (Memory.programStart + 2)) := by
  simp only [returnFromCall, CallStack.pop, hd, he]

/-! ## §4. The same on any machine. -/

-- Each of these gives up with the machine as it found it, or completes on a machine of a known form.

theorem storeBytes_cases (m : Machine) (bytes : List UInt8) :
    (∃ trap, m.storeBytes bytes = m.giveUp trap) ∨
      ∃ memory, m.storeBytes bytes = { m with memory }.done .advance := by
  unfold storeBytes
  split
  · exact .inl ⟨_, rfl⟩
  · split
    · exact .inl ⟨_, rfl⟩
    · exact .inr ⟨_, rfl⟩

theorem restoreRegisters_cases (m : Machine) (x : Register) :
    (∃ trap, m.restoreRegisters x = m.giveUp trap) ∨
      ∃ bytes, m.restoreRegisters x =
        { m with registers := m.registers.setFirst bytes }.done .advance := by
  unfold restoreRegisters
  split
  · exact .inl ⟨_, rfl⟩
  · exact .inr ⟨_, rfl⟩

/-- A sprite that is drawn marks the screen as written to. -/
theorem drawRows_cases (m : Machine) (x y : Register) (height : UInt8) :
    (∃ trap, m.drawRows x y height = m.giveUp trap) ∨
      ∃ collision pixels, m.drawRows x y height =
        { m with framebuffer := { pixels, changed := true },
                 registers := m.registers.setFlag collision }.done .advance := by
  unfold drawRows
  split
  · exact .inl ⟨_, rfl⟩
  · split
    · exact .inl ⟨_, rfl⟩
    · rename_i hd
      obtain ⟨pixels, rfl⟩ := Framebuffer.eq_of_draw hd
      exact .inr ⟨_, pixels, rfl⟩

theorem openCall_cases (m : Machine) (target : UInt16) :
    (∃ trap, m.openCall target = m.giveUp trap) ∨
      ∃ stack, m.stack.push m.registers.pc = .ok stack ∧
        m.openCall target = { m with stack }.done (.jump target) := by
  unfold openCall
  split
  · rename_i stack hp
    exact .inr ⟨stack, hp, rfl⟩
  · exact .inl ⟨_, rfl⟩

theorem returnFromCall_cases (m : Machine) :
    (∃ trap, m.returnFromCall = m.giveUp trap) ∨
      (∃ address stack, m.stack.pop = .ok (address, stack) ∧
        m.returnFromCall = { m with stack }.done (.jump (address + 2))) ∨
      m.stack.depth = 0 ∧ m.config.emptyReturn = .toProgramStart ∧
        m.returnFromCall = m.done (.jump (Memory.programStart + 2)) := by
  unfold returnFromCall
  split
  · rename_i address stack hp
    exact .inr (.inl ⟨address, stack, hp, rfl⟩)
  · rename_i hp
    split
    · exact .inl ⟨_, rfl⟩
    · rename_i he
      exact .inr (.inr ⟨CallStack.depth_of_pop_fault hp, he, rfl⟩)
  · exact .inl ⟨_, rfl⟩

/-- To take a key never gives up, but it may hold on. -/
theorem takeKey_cases (m : Machine) (x : Register) :
    (∃ key, m.keypad.firstHeld = some key ∧ m.takeKey x = (m.setV x key).done .advance) ∨
      m.keypad.firstHeld = none ∧ m.takeKey x = m.done .hold := by
  unfold takeKey
  split
  · rename_i key hk
    exact .inl ⟨key, hk, rfl⟩
  · rename_i hk
    exact .inr ⟨hk, rfl⟩

/-- Arithmetic touches the general registers only. -/
theorem combine_eq (m : Machine) (op : ByteOp) (x y : Register) :
    ∃ v, m.combine op x y = { m with registers := { m.registers with v } } := by
  unfold combine
  split
  split
  · exact ⟨_, rfl⟩
  · exact ⟨_, rfl⟩

/-- A random byte comes from the source and goes to one register. -/
theorem takeRandom_eq (m : Machine) (x : Register) (mask : UInt8) :
    m.takeRandom x mask =
      { m with random := m.random.next.2,
               registers := m.registers.set x (m.random.next.1 &&& mask) } := rfl

/-! ## §5. Refusals. -/

/-- The fault with which a machine refuses a demand, if it does. -/
def refusal? (m : Machine) : Demand → Option Fault
  | .openCall =>
    if m.stack.depth = 0 ∧ m.config.emptyReturn = .fault then some .stackUnderflow else none
  | .freeSlot => if m.stack.depth = CallStack.capacity then some .stackOverflow else none
  | .bytes count =>
    if Memory.capacity < m.registers.i.toNat + count then some .addressOutOfBounds else none

theorem refusal?_openCall_iff {cause : Fault} :
    m.refusal? .openCall = some cause ↔
      (m.stack.depth = 0 ∧ m.config.emptyReturn = .fault) ∧ cause = .stackUnderflow := by
  rw [refusal?, Option.ite_none_right_eq_some, Option.some.injEq, eq_comm (a := cause)]

theorem refusal?_freeSlot_iff {cause : Fault} :
    m.refusal? .freeSlot = some cause ↔
      m.stack.depth = CallStack.capacity ∧ cause = .stackOverflow := by
  rw [refusal?, Option.ite_none_right_eq_some, Option.some.injEq, eq_comm (a := cause)]

theorem refusal?_bytes_iff {count : Nat} {cause : Fault} :
    m.refusal? (.bytes count) = some cause ↔
      Memory.capacity < m.registers.i.toNat + count ∧ cause = .addressOutOfBounds := by
  rw [refusal?, Option.ite_none_right_eq_some, Option.some.injEq, eq_comm (a := cause)]

/-- Bytes that are not refused lie in memory. -/
theorem le_capacity_of_refusal? {count : Nat} (h : m.refusal? (.bytes count) = none) :
    m.registers.i.toNat + count ≤ Memory.capacity := by
  rw [refusal?, ite_eq_right_iff] at h
  exact Nat.not_lt.mp fun hlt => Option.some_ne_none _ (h hlt)

/-- A call that is not refused has a slot. -/
theorem WellShaped.depth_lt_of_refusal? (hm : m.WellShaped) (h : m.refusal? .freeSlot = none) :
    m.stack.depth < 16 := by
  rw [refusal?, ite_eq_right_iff] at h
  exact Nat.lt_of_le_of_ne hm.depth_le fun hfull => Option.some_ne_none _ (h hfull)

/-- A return that is not refused has a call to return to, or the host wants none. -/
theorem WellShaped.depth_of_refusal? (hm : m.WellShaped) (h : m.refusal? .openCall = none) :
    (m.stack.depth = 0 ∧ m.config.emptyReturn = .toProgramStart) ∨
      ∃ depth, m.stack.depth = depth + 1 ∧ depth < 16 := by
  have hle := hm.depth_le
  rw [CallStack.capacity] at hle
  rcases hd : m.stack.depth with _ | depth
  · rcases he : m.config.emptyReturn with _ | _
    · rw [refusal?_openCall_iff.mpr ⟨⟨hd, he⟩, rfl⟩] at h
      cases h
    · exact .inl ⟨rfl, rfl⟩
  · exact .inr ⟨depth, rfl, by omega⟩

/-- What an instruction demands is refused or granted. -/
theorem refused_or_granted (m : Machine) (i : Instruction) :
    (∃ d cause, i.demand? = some d ∧ m.refusal? d = some cause) ∨
      ∀ d, i.demand? = some d → m.refusal? d = none := by
  rcases hd : i.demand? with _ | d
  · exact .inr fun d h => by cases h
  · rcases hr : m.refusal? d with _ | cause
    · refine .inr fun d' h => ?_
      cases h
      exact hr
    · exact .inl ⟨d, cause, rfl, hr⟩

/-! ## §6. The two ways to go. -/

/-- An instruction whose demand is refused gives up and leaves the machine as it is. -/
theorem perform_of_refusal? {i : Instruction} {d : Demand} {cause : Fault}
    (hd : i.demand? = some d) (hr : m.refusal? d = some cause) :
    m.perform i = m.giveUp (.fault cause) := by
  cases i
  case returnFromCall =>
    cases hd
    obtain ⟨⟨h0, he⟩, rfl⟩ := refusal?_openCall_iff.mp hr
    exact returnFromCall_of_fault h0 he
  case call nnn =>
    cases hd
    obtain ⟨hfull, rfl⟩ := refusal?_freeSlot_iff.mp hr
    exact openCall_of_full hfull
  case draw x y n =>
    cases hd
    obtain ⟨hlt, rfl⟩ := refusal?_bytes_iff.mp hr
    exact drawRows_of_lt hlt
  case storeDecimal x =>
    cases hd
    obtain ⟨hlt, rfl⟩ := refusal?_bytes_iff.mp hr
    exact storeBytes_of_lt hlt
  case saveRegisters x =>
    cases hd
    obtain ⟨hlt, rfl⟩ := refusal?_bytes_iff.mp hr
    -- The registers up to and including `x` are `x + 1` bytes.
    exact storeBytes_of_lt (by rwa [Registers.length_upTo])
  case restoreRegisters x =>
    cases hd
    obtain ⟨hlt, rfl⟩ := refusal?_bytes_iff.mp hr
    exact restoreRegisters_of_lt hlt
  -- The others demand nothing that could be refused.
  all_goals cases hd

/-- The shape of a machine lies in its memory, its pixels and its stack alone. -/
theorem WellShaped.of_parts {after : Machine} (hm : m.WellShaped)
    (memory : after.memory.size = m.memory.size)
    (pixels : Framebuffer.Regular after.framebuffer.pixels)
    (depth : after.stack.depth ≤ CallStack.capacity) : after.WellShaped :=
  ⟨memory.trans hm.size_memory, pixels.size_eq, pixels.binary, depth⟩

theorem WellShaped.withRegisters (hm : m.WellShaped) (registers : Registers) :
    { m with registers }.WellShaped :=
  hm.of_parts rfl hm.regular hm.depth_le

/-- An instruction whose demand is granted, or that has none, completes on a well-shaped machine. -/
theorem perform_of_granted (hm : m.WellShaped) {i : Instruction}
    (hg : ∀ d, i.demand? = some d → m.refusal? d = none) :
    ∃ (flow : Flow) (after : Machine), m.perform i = after.done flow ∧ after.WellShaped := by
  cases i
  case clearScreen => exact ⟨.advance, _, rfl, hm.of_parts rfl hm.regular.clear hm.depth_le⟩
  case returnFromCall =>
    rcases hm.depth_of_refusal? (hg _ rfl) with ⟨h0, he⟩ | ⟨depth, hd, hlt⟩
    · exact ⟨_, _, returnFromCall_of_toProgramStart h0 he, hm⟩
    · exact ⟨_, _, returnFromCall_of_succ hd hlt, hm.of_parts rfl hm.regular (Nat.le_of_lt hlt)⟩
  case call nnn =>
    have hlt := hm.depth_lt_of_refusal? (hg _ rfl)
    exact ⟨_, _, openCall_of_lt hlt, hm.of_parts rfl hm.regular hlt⟩
  case combine op x y =>
    obtain ⟨v, h⟩ := combine_eq m op x y
    exact ⟨_, _, rfl, by rw [h]; exact hm.of_parts rfl hm.regular hm.depth_le⟩
  case draw x y n =>
    obtain ⟨collision, pixels, _, hp, hd⟩ :=
      drawRows_of_le hm x y (le_capacity_of_refusal? (hg _ rfl))
    exact ⟨_, _, hd, hm.of_parts rfl hp hm.depth_le⟩
  case takeKey x =>
    rcases m.takeKey_cases x with ⟨key, _, h⟩ | ⟨_, h⟩
    · exact ⟨_, _, h, hm.of_parts rfl hm.regular hm.depth_le⟩
    · exact ⟨_, _, h, hm⟩
  case storeDecimal x =>
    refine ⟨_, _, storeBytes_of_le hm.size_memory (le_capacity_of_refusal? (hg _ rfl)), ?_⟩
    exact hm.of_parts (Memory.size_overlay ..) hm.regular hm.depth_le
  case saveRegisters x =>
    have hle := le_capacity_of_refusal? (hg _ rfl)
    rw [← Registers.length_upTo m.registers x] at hle
    exact ⟨_, _, storeBytes_of_le hm.size_memory hle,
      hm.of_parts (Memory.size_overlay ..) hm.regular hm.depth_le⟩
  case restoreRegisters x =>
    exact ⟨_, _, restoreRegisters_of_le hm.size_memory (le_capacity_of_refusal? (hg _ rfl)),
      hm.of_parts rfl hm.regular hm.depth_le⟩
  -- The others write registers and timers at most.
  all_goals exact ⟨_, _, rfl, hm.of_parts rfl hm.regular hm.depth_le⟩

/-! ## §7. What no instruction touches. -/

/-- The parts of a machine that only the host and the end of a step write to. -/
structure Kept (m after : Machine) : Prop where
  config : after.config = m.config
  keypad : after.keypad = m.keypad
  status : after.status = m.status
  pc : after.registers.pc = m.registers.pc

theorem kept_of_registers (m : Machine) {registers : Registers}
    (h : registers.pc = m.registers.pc) : m.Kept { m with registers } :=
  ⟨rfl, rfl, rfl, h⟩

theorem Kept.refl (m : Machine) : m.Kept m := ⟨rfl, rfl, rfl, rfl⟩

theorem kept_storeBytes (m : Machine) (bytes : List UInt8) : m.Kept (m.storeBytes bytes).machine := by
  rcases m.storeBytes_cases bytes with ⟨trap, h⟩ | ⟨memory, h⟩
  · rw [h]
    exact .refl m
  · rw [h]
    exact ⟨rfl, rfl, rfl, rfl⟩

/-- An instruction on any machine keeps these parts, whether or not it completes. -/
theorem kept_perform (m : Machine) (i : Instruction) : m.Kept (m.perform i).machine := by
  cases i
  case returnFromCall =>
    show m.Kept m.returnFromCall.machine
    rcases m.returnFromCall_cases with ⟨trap, h⟩ | ⟨address, stack, _, h⟩ | ⟨_, _, h⟩
    · rw [h]
      exact .refl m
    · rw [h]
      exact ⟨rfl, rfl, rfl, rfl⟩
    · rw [h]
      exact .refl m
  case call nnn =>
    show m.Kept (m.openCall nnn).machine
    rcases m.openCall_cases nnn with ⟨trap, h⟩ | ⟨stack, _, h⟩
    · rw [h]
      exact .refl m
    · rw [h]
      exact ⟨rfl, rfl, rfl, rfl⟩
  case combine op x y =>
    obtain ⟨v, h⟩ := combine_eq m op x y
    show m.Kept (m.combine op x y)
    rw [h]
    exact ⟨rfl, rfl, rfl, rfl⟩
  case random x nn =>
    show m.Kept (m.takeRandom x nn)
    rw [takeRandom_eq]
    exact ⟨rfl, rfl, rfl, rfl⟩
  case draw x y n =>
    show m.Kept (m.drawRows x y n).machine
    rcases m.drawRows_cases x y n with ⟨trap, h⟩ | ⟨collision, pixels, h⟩
    · rw [h]
      exact .refl m
    · rw [h]
      exact ⟨rfl, rfl, rfl, rfl⟩
  case takeKey x =>
    show m.Kept (m.takeKey x).machine
    rcases m.takeKey_cases x with ⟨key, _, h⟩ | ⟨_, h⟩
    · rw [h]
      exact ⟨rfl, rfl, rfl, rfl⟩
    · rw [h]
      exact .refl m
  case storeDecimal x => exact kept_storeBytes m _
  case saveRegisters x => exact kept_storeBytes m _
  case restoreRegisters x =>
    show m.Kept (m.restoreRegisters x).machine
    rcases m.restoreRegisters_cases x with ⟨trap, h⟩ | ⟨bytes, h⟩
    · rw [h]
      exact .refl m
    · rw [h]
      exact kept_of_registers m (Registers.pc_setFirst _ _)
  all_goals exact ⟨rfl, rfl, rfl, rfl⟩

/-- A wait that goes on leaves the machine as it is. -/
theorem eq_of_takeKey_hold {x : Register} {after : Machine}
    (h : m.perform (.takeKey x) = after.done .hold) : after = m := by
  rcases m.takeKey_cases x with ⟨key, _, hk⟩ | ⟨_, hk⟩
  · cases (done_inj (hk.symm.trans h)).2
  · exact (done_inj (hk.symm.trans h)).1.symm

end Machine

end Chip8
