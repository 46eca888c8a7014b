/-
  Chip8.Proofs.Touching — where a step may leave its traces.

  A step that is no fault carries out one word, and the digits of the word say what may be different behind
  it: which addresses, which pixels, which calls and which registers.  What is in a part that the word does
  not write to at all is settled by `Instruction.writes`; inside the parts it does write to, the places are
  found from the instruction.  `Treads` says all of this in terms of the word, so that no instruction need
  be read to see that a place is safe.

  Main statements: `touches_encode` and `sets_encode` (what a word gives away), `targets_of_perform` and its
  siblings (the places in a part) and `step_footprint`.
-/
import Chip8.Proofs.Footprint
import Chip8.Proofs.Loading
import Chip8.Proofs.Spelling
import Chip8.Proofs.Sprites

namespace Chip8

open Instruction

/-! ## §1. What instructions write to. -/

/-- Says of an instruction that it may write to a general register. -/
def Instruction.Targets : Instruction → Register → Prop
  | .loadByte x _, k | .addByte x _, k | .random x _, k | .getDelay x, k | .takeKey x, k => k = x
  -- The digits from four on are those of the operations with a flag.
  | .combine op x _, k => k = x ∨ k = Register.flag ∧ 0x4 ≤ op.digit
  | .draw _ _ _, k => k = Register.flag
  | .restoreRegisters x, k => k.val ≤ x.val
  | _, _ => False

namespace Word

/-- Says of a word that it begins with the digit `F` and ends in a byte. -/
def IsMisc (w : Word) (last : UInt8) : Prop := w.family = 0xF ∧ w.nn = last

/-- Says of a word that it combines two registers into the first. -/
def Combines (w : Word) : Prop := w.family = 0x8 ∧ (w.n.toNat ≤ 0x7 ∨ w.n.toNat = 0xE)

/-- Says of a word that it combines two registers and then writes the flag. -/
def CombinesToFlag (w : Word) : Prop :=
  w.family = 0x8 ∧ (0x4 ≤ w.n.toNat ∧ w.n.toNat ≤ 0x7 ∨ w.n.toNat = 0xE)

/-- Says of a word that it may write to a general register. -/
def Sets (w : Word) (k : Register) : Prop :=
  k = w.x ∧ (w.family ∈ [0x6, 0x7, 0xC] ∨ w.IsMisc 0x07 ∨ w.IsMisc 0x0A ∨ w.Combines) ∨
  k = Register.flag ∧ (w.family = 0xD ∨ w.CombinesToFlag) ∨
  k.val ≤ w.x.val ∧ w.IsMisc 0x65

/-- Says of a word that it may write to a part. -/
def Touches (w : Word) : Part → Prop
  | .general => ∃ k, w.Sets k
  | .index => w.family = 0xA ∨ w.IsMisc 0x1E ∨ w.IsMisc 0x29
  | .memory => w.IsMisc 0x33 ∨ w.IsMisc 0x55
  | .stack => w.family = 0x2 ∨ w = 0x00EE
  | .delay => w.IsMisc 0x15
  | .sound => w.IsMisc 0x18
  | .screen => w = 0x00E0 ∨ w.family = 0xD
  | .random => w.family = 0xC

theorem isMisc_ofXNN (x : Register) (last : UInt8) : (ofXNN 0xF x last).IsMisc last :=
  ⟨family_ofXNN (by decide) x last, nn_ofXNN 0xF x last⟩

theorem toNat_n_combine (op : ByteOp) (x y : Register) :
    (encode (.combine op x y)).n.toNat = op.digit := by
  rw [encode, toNat_n_ofXYN, Nat.mod_eq_of_lt op.digit_lt]

end Word

/-- A word may write to the registers that its instruction may write to. -/
theorem sets_encode {i : Instruction} {k : Register} (h : i.Targets k) : i.encode.Sets k := by
  cases i with
  | loadByte x nn | addByte x nn | random x nn =>
    refine .inl ⟨h.trans (Word.x_ofXNN ..).symm, .inl ?_⟩
    rw [encode, Word.family_ofXNN (by decide)]
    decide
  | getDelay x =>
    exact .inl ⟨h.trans (Word.x_ofXNN ..).symm, .inr (.inl (Word.isMisc_ofXNN x 0x07))⟩
  | takeKey x =>
    exact .inl ⟨h.trans (Word.x_ofXNN ..).symm, .inr (.inr (.inl (Word.isMisc_ofXNN x 0x0A)))⟩
  | combine op x y =>
    have hfamily : (encode (.combine op x y)).family = 0x8 := Word.family_ofXYN (by decide) x y op.digit
    have hdigit := Word.toNat_n_combine op x y
    rcases h with hx | ⟨hflag, hle⟩
    · refine .inl ⟨hx.trans (Word.x_ofXYN ..).symm, .inr (.inr (.inr ⟨hfamily, ?_⟩))⟩
      rw [hdigit]
      cases op <;> decide
    · refine .inr (.inl ⟨hflag, .inr ⟨hfamily, ?_⟩⟩)
      rw [hdigit]
      cases op <;> revert hle <;> decide
  | draw x y n => exact .inr (.inl ⟨h, .inl (Word.family_ofXYN (by decide) x y n.toNat)⟩)
  | restoreRegisters x =>
    refine .inr (.inr ⟨?_, Word.isMisc_ofXNN x 0x65⟩)
    rw [encode, Word.x_ofXNN]
    exact h
  | _ => cases h

/-- A word may write to the parts that its instruction writes to. -/
theorem touches_encode {i : Instruction} {p : Part} (h : p ∈ i.writes) : i.encode.Touches p := by
  cases i with
  | clearScreen | returnFromCall =>
    obtain rfl := List.mem_singleton.mp h
    simp [Word.Touches, encode]
  | call nnn | setIndex nnn =>
    obtain rfl := List.mem_singleton.mp h
    simp [Word.Touches, encode, Word.family_ofNNN]
  | loadByte x nn | addByte x nn | getDelay x | takeKey x =>
    obtain rfl := List.mem_singleton.mp h
    exact ⟨x, sets_encode rfl⟩
  | restoreRegisters x =>
    obtain rfl := List.mem_singleton.mp h
    exact ⟨x, sets_encode (Nat.le_refl x.val)⟩
  | combine op x y =>
    obtain rfl := List.mem_singleton.mp h
    exact ⟨x, sets_encode (.inl rfl)⟩
  | random x nn =>
    rcases List.mem_pair.mp h with rfl | rfl
    · exact ⟨x, sets_encode rfl⟩
    · exact Word.family_ofXNN (by decide) x nn
  | draw x y n =>
    rcases List.mem_pair.mp h with rfl | rfl
    · exact ⟨Register.flag, sets_encode rfl⟩
    · exact .inr (Word.family_ofXYN (by decide) x y n.toNat)
  | setDelay x | setSound x | addIndex x | pointToGlyph x | storeDecimal x | saveRegisters x =>
    obtain rfl := List.mem_singleton.mp h
    simp [Word.Touches, encode, Word.isMisc_ofXNN]
  | _ => cases h

namespace Machine

variable {m after : Machine} {flow : Flow} {i : Instruction} {w : Word}

/-! ## §2. Parts. -/

/-- A part that is not the same behind an instruction is one that the instruction writes to. -/
theorem mem_writes_of_perform (performs : m.perform i = after.done flow) {p : Part}
    (h : ¬p.Same m after) : p ∈ i.writes := by
  by_contra hno
  exact h (same_of_done performs hno)

/-- A part that is not the same behind a word is one that the word may write to. -/
theorem touches_of_perform (performs : m.perform (decode w) = after.done flow) {p : Part}
    (h : ¬p.Same m after) : w.Touches p := by
  rw [← encode_decode w]
  exact touches_encode (mem_writes_of_perform performs h)

/-! ## §3. Registers. -/

/-- To write a general register changes no other. -/
theorem eq_of_v_setV_ne {x k : Register} {value : UInt8} (h : (m.setV x value).v k ≠ m.v k) : k = x := by
  by_contra hk
  rw [v_setV, if_neg hk] at h
  exact h rfl

/-- Arithmetic changes its first register, and the flag if it has one. -/
theorem targets_combine {op : ByteOp} {x y k : Register} (h : (m.combine op x y).v k ≠ m.v k) :
    (Instruction.combine op x y).Targets k := by
  have hx : (m.setV x (Alu.apply op (m.v x) (m.v y)).1).v k ≠ m.v k →
      (Instruction.combine op x y).Targets k :=
    fun hv => .inl (eq_of_v_setV_ne hv)
  cases op with
  | set | or | and | xor => exact hx h
  | add | sub | shiftRight | subReverse | shiftLeft =>
    by_cases hk : k = Register.flag
    · exact .inr ⟨hk, by decide⟩
    -- The flag is written behind the result and to another register.
    · refine hx fun hv => h (Eq.trans ?_ hv)
      by_contra hne
      exact hk (eq_of_v_setV_ne hne)

/-- Registers that are loaded from memory are those up to the last one. -/
theorem targets_restoreRegisters {x k : Register} (full : m.memory.size = Memory.capacity)
    (hle : m.registers.i.toNat + (x.val + 1) ≤ Memory.capacity)
    (hk : (m.registers.setFirst (m.bytesAtIndex (x.val + 1))).get k ≠ m.v k) :
    (Instruction.restoreRegisters x).Targets k := by
  by_contra hlt
  have hlast : ¬k ≤ x := hlt
  rw [get_setFirst_bytesAtIndex full hle, if_neg hlast] at hk
  exact hk rfl

/-- An instruction changes the registers that it may write to, and only if it retires. -/
theorem targets_of_perform (hm : m.WellShaped)
    (granted : ∀ d, i.demand? = some d → m.refusal? d = none) (performs : m.perform i = after.done flow)
    {k : Register} (hk : after.v k ≠ m.v k) :
    i.Targets k ∧ settledOutcome i flow = .retired i := by
  have hp : .general ∈ i.writes := mem_writes_of_perform performs fun hs => hk (congrArg (·[k]) hs)
  cases i with
  | loadByte x nn | addByte x nn | getDelay x =>
    obtain ⟨rfl, -⟩ := done_inj performs
    exact ⟨eq_of_v_setV_ne hk, rfl⟩
  | random x nn =>
    obtain ⟨rfl, -⟩ := done_inj performs
    exact ⟨eq_of_v_setV_ne (m := m) hk, rfl⟩
  | combine op x y =>
    obtain ⟨rfl, -⟩ := done_inj performs
    exact ⟨targets_combine hk, rfl⟩
  | takeKey x =>
    rcases m.takeKey_cases x with ⟨key, _, ht⟩ | ⟨_, ht⟩
    · obtain ⟨rfl, rfl⟩ := done_inj (ht.symm.trans performs)
      exact ⟨eq_of_v_setV_ne hk, rfl⟩
    · obtain ⟨rfl, -⟩ := done_inj (ht.symm.trans performs)
      exact absurd rfl hk
  | draw x y n =>
    obtain ⟨collision, pixels, _, _, hd⟩ := drawRows_of_le hm x y (le_capacity_of_refusal? (granted _ rfl))
    obtain ⟨rfl, -⟩ := done_inj (hd.symm.trans performs)
    exact ⟨eq_of_v_setV_ne (m := m) hk, rfl⟩
  | restoreRegisters x =>
    have hle := le_capacity_of_refusal? (granted _ rfl)
    obtain ⟨rfl, -⟩ := done_inj ((restoreRegisters_of_le hm.size_memory hle).symm.trans performs)
    exact ⟨targets_restoreRegisters hm.size_memory hle hk, rfl⟩
  | _ => simp [Instruction.writes] at hp

/-! ## §4. Memory. -/

/-- The addresses that a word may write to. -/
def Stores (m : Machine) (w : Word) (a : Nat) : Prop :=
  m.registers.i.toNat ≤ a ∧
    (w.IsMisc 0x33 ∧ a ≤ m.registers.i.toNat + 2 ∨ w.IsMisc 0x55 ∧ a ≤ m.registers.i.toNat + w.x.val)

/-- Bytes that are stored change the addresses that they are stored at. -/
theorem mem_of_storeBytes (full : m.memory.size = Memory.capacity) {bytes : List UInt8}
    (hle : m.registers.i.toNat + bytes.length ≤ Memory.capacity)
    (h : m.storeBytes bytes = after.done flow) {a : Nat} (hne : after.memory[a]? ≠ m.memory[a]?) :
    m.registers.i.toNat ≤ a ∧ a < m.registers.i.toNat + bytes.length := by
  obtain ⟨rfl, -⟩ := done_inj ((storeBytes_of_le full hle).symm.trans h)
  by_contra hno
  have hget := Memory.getElem?_overlay m.memory m.registers.i.toNat bytes a
  rw [if_neg (by omega)] at hget
  exact hne hget

/-- A word changes the addresses that it may write to. -/
theorem stores_of_perform (hm : m.WellShaped)
    (granted : ∀ d, (decode w).demand? = some d → m.refusal? d = none)
    (performs : m.perform (decode w) = after.done flow) {a : Nat}
    (hne : after.memory[a]? ≠ m.memory[a]?) : m.Stores w a := by
  have htouch : w.Touches .memory := touches_of_perform performs fun hs => hne (congrArg (·[a]?) hs)
  rcases htouch with h33 | h55
  · have hi : decode w = .storeDecimal w.x := by simp [decode, decodeMisc, h33.1, h33.2]
    rw [hi] at granted performs
    obtain ⟨hge, hlt⟩ :=
      mem_of_storeBytes hm.size_memory (le_capacity_of_refusal? (granted _ rfl)) performs hne
    exact ⟨hge, .inl ⟨h33, Nat.le_of_lt_succ hlt⟩⟩
  · have hi : decode w = .saveRegisters w.x := by simp [decode, decodeMisc, h55.1, h55.2]
    rw [hi] at granted performs
    have hlength := Registers.length_upTo m.registers w.x
    obtain ⟨hge, hlt⟩ :=
      mem_of_storeBytes hm.size_memory (hlength ▸ le_capacity_of_refusal? (granted _ rfl)) performs hne
    exact ⟨hge, .inr ⟨h55, by omega⟩⟩

/-! ## §5. The screen. -/

/-- The pixels that a word may write to. -/
def Paints (m : Machine) (w : Word) (column line : Nat) : Prop :=
  w = 0x00E0 ∨ w.family = 0xD ∧ ∃ b j, b < 8 ∧ j < w.n.toNat ∧
    ((m.v w.x).toNat + b) % 64 = column ∧ ((m.v w.y).toNat + j) % 32 = line

theorem decode_of_family_draw (h : w.family = 0xD) : decode w = .draw w.x w.y w.n := by
  simp only [decode, h]

/-- A word changes the pixels that it may write to. -/
theorem paints_of_perform (hm : m.WellShaped)
    (granted : ∀ d, (decode w).demand? = some d → m.refusal? d = none)
    (performs : m.perform (decode w) = after.done flow) {column line : Nat}
    (hc : column < Framebuffer.width) (hl : line < Framebuffer.height)
    (hne : after.framebuffer.pixel column line ≠ m.framebuffer.pixel column line) :
    m.Paints w column line := by
  have htouch : w.Touches .screen :=
    touches_of_perform performs fun hs => hne (congrArg (·.pixel column line) hs)
  rcases htouch with hclear | hdraw
  · exact .inl hclear
  · rw [decode_of_family_draw hdraw] at granted performs
    have hle := le_capacity_of_refusal? (granted _ rfl)
    obtain ⟨collision, pixels, ht, _, hd⟩ := drawRows_of_le hm w.x w.y hle
    obtain ⟨rfl, -⟩ := done_inj (hd.symm.trans performs)
    obtain ⟨bit, hbit⟩ := Framebuffer.exists_hit_of_pixel_ne ht hc hl hne
    obtain ⟨⟨hj, hb⟩, _, hcolumn, hline⟩ := Framebuffer.mem_spriteHits.mp hbit
    rw [length_bytesAtIndex hm.size_memory hle] at hj
    exact .inr ⟨hdraw, bit.2, bit.1, hb, hj, hcolumn, hline⟩

/-- A word that writes to the screen marks it, and no other word takes a mark away. -/
theorem changed_of_perform (performs : m.perform (decode w) = after.done flow) :
    after.framebuffer.changed = true ↔ m.framebuffer.changed = true ∨ w.Touches .screen := by
  have hmark : w.Touches .screen → after.framebuffer.changed = true := by
    intro hw
    apply changed_of_done performs
    rcases hw with rfl | hdraw
    · decide
    · rw [decode_of_family_draw hdraw]
      exact List.mem_pair.mpr (.inr rfl)
  by_cases hw : w.Touches .screen
  · exact iff_of_true (hmark hw) (.inr hw)
  · have hsame : Part.Same m after .screen := by
      by_contra hno
      exact hw (touches_of_perform performs hno)
    rw [show after.framebuffer = m.framebuffer from hsame, or_iff_left hw]

/-! ## §6. Calls. -/

/-- A call puts one address behind the others. -/
theorem frames_of_perform_call (hw : w.family = 0x2) (performs : m.perform (decode w) = after.done flow) :
    after.stack.frames = m.stack.frames ++ [m.registers.pc] := by
  rw [show decode w = .call w.nnn by simp only [decode, hw]] at performs
  rcases m.openCall_cases w.nnn with ⟨trap, ho⟩ | ⟨stack, hpush, ho⟩
  · exact absurd (ho.symm.trans performs) giveUp_ne_done
  · obtain ⟨rfl, -⟩ := done_inj (ho.symm.trans performs)
    exact CallStack.frames_push hpush

/-- A return takes the last address away, or there is none and the host does not mind. -/
theorem frames_of_perform_return (performs : m.perform (decode 0x00EE) = after.done flow) :
    (∃ address, m.stack.frames = after.stack.frames ++ [address]) ∨
      m.stack.frames = [] ∧ after.stack.frames = [] ∧ m.config.emptyReturn = .toProgramStart := by
  rcases m.returnFromCall_cases with ⟨trap, hr⟩ | ⟨address, stack, hpop, hr⟩ | ⟨hdepth, choice, hr⟩
  · exact absurd (hr.symm.trans performs) giveUp_ne_done
  · obtain ⟨rfl, -⟩ := done_inj (hr.symm.trans performs)
    exact .inl ⟨address, CallStack.frames_pop hpop⟩
  · obtain ⟨rfl, -⟩ := done_inj (hr.symm.trans performs)
    have hnone := CallStack.frames_of_depth hdepth
    exact .inr ⟨hnone, hnone, choice⟩

/-! ## §7. Steps. -/

/-- Says where a step that carries out a word may have left its traces.  A part that is not named is as it
    was, and so is a place in a part. -/
structure Treads (m : Machine) (w : Word) (s : Stepped) : Prop where
  config : s.machine.config = m.config
  keypad : s.machine.keypad = m.keypad
  memory : ∀ a, s.machine.memory[a]? ≠ m.memory[a]? → m.Stores w a
  pixels : ∀ column line, column < 64 → line < 32 →
    s.machine.framebuffer.pixel column line ≠ m.framebuffer.pixel column line → m.Paints w column line
  changed : s.machine.framebuffer.changed = true ↔
    m.framebuffer.changed = true ∨ w = 0x00E0 ∨ w.family = 0xD
  called : w.family = 0x2 → s.machine.stack.frames = m.stack.frames ++ [m.registers.pc]
  returned : w = 0x00EE →
    (∃ address, m.stack.frames = s.machine.stack.frames ++ [address]) ∨
      m.stack.frames = [] ∧ s.machine.stack.frames = [] ∧ m.config.emptyReturn = .toProgramStart
  stack : s.machine.stack ≠ m.stack → w.family = 0x2 ∨ w = 0x00EE
  delay : s.machine.timers.delay ≠ m.timers.delay → w.IsMisc 0x15
  sound : s.machine.timers.sound ≠ m.timers.sound → w.IsMisc 0x18
  random : s.machine.random ≠ m.random → w.family = 0xC
  index : s.machine.registers.i ≠ m.registers.i → w.family = 0xA ∨ w.IsMisc 0x1E ∨ w.IsMisc 0x29
  registers : ∀ k, s.machine.v k ≠ m.v k → w.Sets k ∧ ∃ i, s.outcome = .retired i

/-- The footprint of a step.  A step of a well-shaped machine that is no fault carries out the word at the
    program counter, and leaves everything as it is but for this.  Memory is different at most at the three
    addresses from the index register on, or at as many as there are registers to save.  A pixel is
    different only if the screen was cleared or a bit of the sprite can reach it; and these two instructions
    mark the screen as written to, always, while no instruction takes the mark away.  A call adds one
    address and a return takes the last one away, or there is none and the host does not mind.  The timers,
    the source of random bytes and the index register each have their own instructions, and so do the
    general registers, which are different only if the instruction retires.  Keys and choices of the host are
    never different. -/
theorem step_footprint (hm : m.WellShaped) :
    ∃ s, m.step = .ok s ∧
      (s.outcome.isFault = false → ∃ w, m.Fetches w ∧ m.Treads w s) := by
  obtain ⟨s, h, hs⟩ := exists_step hm
  refine ⟨s, h, fun hf => ?_⟩
  cases hs with
  | stopped cause status => cases hf
  | unfetched live outside => cases hf
  | refused live w d cause fetches demand refusal => cases hf
  | completed live w flow after fetches granted performs shaped kept =>
    rw [← demand?_decode] at granted
    have hpart : ∀ {p : Part}, ¬p.Same m after → w.Touches p := touches_of_perform performs
    refine ⟨w, fetches, ?_⟩
    constructor
    all_goals simp only [machine_settle, outcome_settle]
    case config => exact kept.config
    case keypad => exact kept.keypad
    case memory => exact fun a => stores_of_perform hm granted performs
    case pixels => exact fun column line hc hl => paints_of_perform hm granted performs hc hl
    case changed => exact changed_of_perform performs
    case called => exact fun hw => frames_of_perform_call hw performs
    case returned =>
      rintro rfl
      exact frames_of_perform_return performs
    case stack => exact hpart (p := .stack)
    case delay => exact hpart (p := .delay)
    case sound => exact hpart (p := .sound)
    case random => exact hpart (p := .random)
    case index => exact hpart (p := .index)
    case registers =>
      intro k hk
      obtain ⟨htargets, ho⟩ := targets_of_perform hm granted performs hk
      exact ⟨encode_decode w ▸ sets_encode htargets, _, ho⟩

/-- A sprite of two rows in the corner of the screen marks the screen and leaves the ninth column alone. -/
theorem step_footprint_drawn :
    let m := (new .standard).withImage [0xD0, 0x12]
    m.WellShaped ∧ ∃ s, m.step = .ok s ∧ s.outcome.isFault = false ∧ m.Treads 0xD012 s ∧
      s.machine.framebuffer.changed = true ∧
      s.machine.framebuffer.pixel 8 0 = m.framebuffer.pixel 8 0 ∧ s.machine.memory[0]? = m.memory[0]? := by
  intro m
  have hn := wellShaped_new .standard
  have hm : m.WellShaped := hn.withImage _
  have hf : m.Fetches 0xD012 := fetches_withImage hn.size_memory rfl 0xD0 0x12 []
  obtain ⟨s, h, hstep⟩ := step_footprint hm
  have hrun : m.step.map (·.outcome.isFault) = .ok false := by decide +kernel
  simp only [h, Except.map, Except.ok.injEq] at hrun
  obtain ⟨w, hw, htreads⟩ := hstep hrun
  obtain rfl := hw.unique hf
  refine ⟨hm, s, h, hrun, htreads, htreads.changed.mpr (.inr (.inr rfl)), ?_, ?_⟩
  · by_contra hne
    have hzero : (m.v (Word.x 0xD012)).toNat = 0 := rfl
    rcases htreads.pixels 8 0 (by decide) (by decide) hne with hclear | ⟨_, b, j, hb, _, hcolumn, _⟩
    · cases hclear
    · omega
  · by_contra hne
    rcases htreads.memory 0 hne with ⟨_, ⟨⟨hfamily, _⟩, _⟩ | ⟨⟨hfamily, _⟩, _⟩⟩
    · cases hfamily
    · cases hfamily

end Machine

end Chip8
