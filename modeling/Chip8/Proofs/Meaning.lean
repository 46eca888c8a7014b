/-
  Chip8.Proofs.Meaning — words and instructions in the eyes of the reference.

  The reference reads a word digit by digit; the machine decodes it and performs an instruction.  The two
  meet in the middle: `meaning` is what an instruction is to the reference.  The reference's table gives
  every word the meaning of the instruction that it decodes to, and an instruction that completes leaves
  the machine with the view that its meaning has.

  Main statements: `table_eq_meaning` (words) and `meaning_of_perform` (instructions).
-/
import Chip8.Proofs.Stepping
import Chip8.Proofs.Viewing

namespace Chip8

open Reference

/-! ## §1. What an instruction is to the reference. -/

/-- The meaning of an instruction. -/
def meaning (s : State) : Instruction → Kind × State
  | .clearScreen => s.clearScreen.next
  | .returnFromCall => s.returnFromCall
  | .system _ => s.next
  | .jump nnn => s.goto nnn.toNat
  | .call nnn => s.call nnn.toNat
  | .skipEqByte x nn => s.skipIf (s.v x.val == nn.toNat)
  | .skipNeByte x nn => s.skipIf (s.v x.val != nn.toNat)
  | .skipEq x y => s.skipIf (s.v x.val == s.v y.val)
  | .loadByte x nn => (s.setV x.val nn.toNat).next
  | .addByte x nn => (s.setV x.val ((s.v x.val + nn.toNat) % 0x100)).next
  | .combine op x y => s.arithmetic op.digit x.val y.val
  | .skipNe x y => s.skipIf (s.v x.val != s.v y.val)
  | .setIndex nnn => { s with i := nnn.toNat }.next
  | .jumpPlus nnn => s.goto ((nnn.toNat + s.v 0) % 0x10000)
  | .random x nn => (s.takeRandom x.val nn.toNat).next
  | .draw x y n => (s.draw x.val y.val n.toNat).next
  | .skipHeld x => s.skipIf (s.isHeld (s.v x.val))
  | .skipNotHeld x => s.skipIf (!s.isHeld (s.v x.val))
  | .getDelay x => (s.setV x.val s.delay).next
  | .takeKey x => s.takeKey x.val
  | .setDelay x => { s with delay := s.v x.val }.next
  | .setSound x => { s with sound := s.v x.val }.next
  | .addIndex x => { s with i := (s.i + s.v x.val) % 0x10000 }.next
  | .pointToGlyph x => { s with i := s.v x.val % 0x10 * 5 }.next
  | .storeDecimal x =>
    (s.store [s.v x.val / 100, s.v x.val / 10 % 10, s.v x.val % 10]).next
  | .saveRegisters x => (s.store ((List.range (x.val + 1)).map s.v)).next
  | .restoreRegisters x => (s.restore x.val).next
  | .unknown _ => s.ignore

/-! ## §2. Words mean what they decode to. -/

/-- A last digit that names no operation is passed over. -/
theorem arithmetic_of_none {n : Nat} (h : ByteOp.ofDigit? n = none) (s : State) (x y : Nat) :
    s.arithmetic n x y = s.ignore := by
  unfold ByteOp.ofDigit? at h
  split at h
  -- Every other digit contradicts that no operation was found.
  case h_10 =>
    unfold State.arithmetic
    split <;> first | rfl | contradiction
  all_goals cases h

theorem meaning_decodeSystem (s : State) (w : Word) :
    meaning s (Instruction.decodeSystem w) = s.system w.toNat := by
  have h0 : w = 0x00E0 ↔ w.toNat = 0x00E0 := UInt16.toNat_inj.symm
  have hE : w = 0x00EE ↔ w.toNat = 0x00EE := UInt16.toNat_inj.symm
  simp only [Instruction.decodeSystem, State.system, h0, hE]
  split
  · rfl
  · split
    · rfl
    · rfl

theorem meaning_decodeAlu (s : State) (w : Word) :
    meaning s (Instruction.decodeAlu w) = s.arithmetic w.n.toNat w.x.val w.y.val := by
  unfold Instruction.decodeAlu
  rcases h : ByteOp.ofDigit? w.n.toNat with _ | op
  · exact (arithmetic_of_none h s _ _).symm
  · rw [← ByteOp.digit_of_ofDigit? h]
    rfl

theorem meaning_decodeKey (s : State) (w : Word) :
    meaning s (Instruction.decodeKey w) = s.skipOnKey w.nn.toNat w.x.val := by
  unfold Instruction.decodeKey
  split
  case h_3 =>
    unfold State.skipOnKey
    split <;> first | rfl | contradiction
  all_goals
    rename_i h
    rw [h]
    rfl

theorem meaning_decodeMisc (s : State) (w : Word) :
    meaning s (Instruction.decodeMisc w) = s.misc w.nn.toNat w.x.val := by
  unfold Instruction.decodeMisc
  split
  case h_10 =>
    unfold State.misc
    split <;> first | rfl | contradiction
  all_goals
    rename_i h
    rw [h]
    rfl

/-- Two registers are compared in a word whose last digit is zero; any other is not in the table. -/
theorem meaning_ite_n (s : State) (w : Word) (i : Instruction) :
    meaning s (if w.n = 0 then i else .unknown w) =
      if w.toNat % 0x10 = 0 then meaning s i else s.ignore := by
  have hn : w.n = 0 ↔ w.toNat % 0x10 = 0 := by
    rw [← w.toNat_n]
    exact UInt8.toNat_inj.symm
  simp only [hn]
  split
  · rfl
  · rfl

/-- The reference's table gives every word the meaning of the instruction that it decodes to. -/
theorem table_eq_meaning (s : State) (w : Word) :
    s.table w.toNat = meaning s (Instruction.decode w) := by
  have hx : w.toNat / 0x100 % 0x10 = w.x.val := rfl
  have hy : w.toNat / 0x10 % 0x10 = w.y.val := rfl
  have hw := w.family_lt
  interval_cases h : w.family
  -- One case for each family, as the table has one row.
  all_goals
    have h' : w.toNat / 0x1000 = _ := h
    simp only [State.table, Instruction.decode, h, h', hx, hy, meaning_ite_n]
    simp only [meaning, ← w.toNat_n, ← w.toNat_nn, ← w.toNat_nnn]
  case «0» => exact (meaning_decodeSystem s w).symm
  case «8» => exact (meaning_decodeAlu s w).symm
  case «14» => exact (meaning_decodeKey s w).symm
  case «15» => exact (meaning_decodeMisc s w).symm

namespace Machine

variable {m after : Machine} {s : State} {flow : Flow}

/-! ## §3. Where an instruction continues. -/

/-- What the reference makes of an instruction that goes on with `flow`. -/
def continued (m after : Machine) (flow : Flow) : Kind × State :=
  (.retired, { after.view with pc := (flow.apply m.registers.pc).toNat, status := .running })

/-- An instruction that leaves the program counter alone goes on with the next word. -/
theorem next_of_view (hv : after.view = s) (hpc : after.registers.pc = m.registers.pc) :
    s.next = m.continued after .advance := by
  have h : (after.view.pc + 2) % 0x10000 = (Flow.advance.apply m.registers.pc).toNat := by
    show (after.registers.pc.toNat + 2) % 0x10000 = (m.registers.pc + 2).toNat
    rw [hpc, UInt16.toNat_add]
    rfl
  rw [← hv, State.next, State.goto, continued, h]

theorem skipIf_view (m : Machine) (condition : Bool) :
    m.view.skipIf condition = m.continued m (.skipWhen condition) := by
  have h : (m.view.pc + if condition then 4 else 2) % 0x10000 =
      ((Flow.skipWhen condition).apply m.registers.pc).toNat := by
    cases condition
    · exact (UInt16.toNat_add m.registers.pc 2).symm
    · exact (UInt16.toNat_add m.registers.pc 4).symm
  rw [State.skipIf, State.goto, continued, h]

/-- A condition on bytes is the same on numbers. -/
theorem beq_toNat (a b : UInt8) : (a.toNat == b.toNat) = (a == b) := by
  rw [Bool.eq_iff_iff, beq_iff_eq, beq_iff_eq, UInt8.toNat_inj]

theorem bne_toNat (a b : UInt8) : (a.toNat != b.toNat) = (a != b) := by
  rw [bne, bne, beq_toNat]

/-! ## §4. Arithmetic. -/

/-- The result is written first and the flag second. -/
theorem view_setV_setFlag (m : Machine) (x : Register) (value : UInt8) (bit : Bool) :
    ((m.setV x value).setV Register.flag (Alu.flagByte bit)).view =
      (m.view.setV x.val value.toNat).setFlag bit := by
  rw [← view_setV]
  exact view_setFlag (m.setV x value) bit

theorem toNat_sub_eq (a b : UInt8) : (a - b).toNat = (a.toNat + 0x100 - b.toNat) % 0x100 := by
  have hb := b.toNat_lt
  rw [UInt8.toNat_sub]
  congr 1
  omega

theorem toNat_shiftRight_one (a : UInt8) : (a >>> 1).toNat = a.toNat / 2 := by
  rw [UInt8.toNat_shiftRight]
  exact Nat.shiftRight_eq_div_pow _ 1

theorem toNat_shiftLeft_one (a : UInt8) : (a <<< 1).toNat = a.toNat * 2 % 0x100 := by
  rw [UInt8.toNat_shiftLeft]
  exact congrArg (· % 0x100) (Nat.shiftLeft_eq _ 1)

/-- The highest bit of a byte is set from `0x80` on. -/
theorem testBit_seven (a : UInt8) : a.toNat.testBit 7 = decide (0x80 ≤ a.toNat) := by
  have ha := a.toNat_lt
  rw [Nat.testBit_eq_decide_div_mod_eq, decide_eq_decide]
  omega

/-- An operation on two registers is the row of the table that its digit selects. -/
theorem arithmetic_view (m : Machine) (op : ByteOp) (x y : Register) :
    m.view.arithmetic op.digit x.val y.val = m.continued (m.combine op x y) .advance := by
  have hpc : (m.combine op x y).registers.pc = m.registers.pc := (kept_perform m (.combine op x y)).pc
  -- In each case the row is opened, and its numbers are those of the bytes.
  cases op <;> simp only [State.arithmetic, ByteOp.digit, view_v]
  case set => exact next_of_view (view_setV m x _) hpc
  case or => exact next_of_view ((view_setV m x _).trans (by rw [UInt8.toNat_or])) hpc
  case and => exact next_of_view ((view_setV m x _).trans (by rw [UInt8.toNat_and])) hpc
  case xor => exact next_of_view ((view_setV m x _).trans (by rw [UInt8.toNat_xor])) hpc
  case add =>
    refine next_of_view ((view_setV_setFlag m x _ _).trans ?_) hpc
    rw [UInt8.toNat_add]
    rfl
  case sub =>
    refine next_of_view ((view_setV_setFlag m x _ _).trans ?_) hpc
    rw [toNat_sub_eq]
    rfl
  case shiftRight =>
    refine next_of_view ((view_setV_setFlag m x _ _).trans ?_) hpc
    rw [toNat_shiftRight_one, Nat.testBit_zero]
  case subReverse =>
    refine next_of_view ((view_setV_setFlag m x _ _).trans ?_) hpc
    rw [toNat_sub_eq]
    rfl
  case shiftLeft =>
    refine next_of_view ((view_setV_setFlag m x _ _).trans ?_) hpc
    rw [toNat_shiftLeft_one, testBit_seven]

/-! ## §5. Instructions mean what they do. -/

/-- The kind of an instruction that completed. -/
def settledKind : Instruction → Flow → Kind
  | .unknown _, _ => .unknown
  | .takeKey _, .hold => .waiting
  | _, _ => .retired

/-- What the reference makes of an instruction that completed. -/
def settled (m after : Machine) (i : Instruction) (flow : Flow) : Kind × State :=
  (settledKind i flow, { after.view with pc := (flow.apply m.registers.pc).toNat,
                                         status := settledStatus i flow })

/-- The values of the first registers, as numbers. -/
theorem map_upTo (r : Registers) (x : Register) :
    (r.upTo x).map UInt8.toNat = (List.range (x.val + 1)).map r.value := by
  apply List.ext_getElem
  · simp
  · intro k h1 h2
    have hk : k < 16 := by
      rw [List.length_map, Registers.length_upTo] at h1
      omega
    simp [Registers.upTo, Registers.value, Registers.get, hk]

theorem toNat_addressOf (digit : UInt8) : (Font.addressOf digit).toNat = digit.toNat % 0x10 * 5 := by
  simp only [Font.addressOf, Font.start, Font.glyphSize, UInt16.toNat_ofNat', UInt16.toNat_ofNat]
  omega

theorem returnFromCall_view (hm : m.WellShaped)
    (hg : m.refusal? .openCall = none) (hp : m.returnFromCall = after.done flow) :
    m.view.returnFromCall = m.continued after flow := by
  rcases hm.depth_of_refusal? hg with ⟨h0, he⟩ | ⟨depth, hd, hlt⟩
  · rw [returnFromCall_of_toProgramStart h0 he] at hp
    obtain ⟨rfl, rfl⟩ := done_inj hp
    have hv : m.view.depth = 0 := h0
    rw [State.returnFromCall, hv]
    rfl
  · rw [returnFromCall_of_succ hd hlt] at hp
    obtain ⟨rfl, rfl⟩ := done_inj hp
    have hv : m.view.depth = depth + 1 := hd
    have ha : (m.view.slots depth + 2) % 0x10000 = (m.stack.slots[depth] + 2).toNat := by
      rw [show m.view.slots depth = m.stack.slots[depth].toNat from dif_pos hlt, UInt16.toNat_add]
      rfl
    rw [State.returnFromCall, hv]
    show State.goto _ ((m.view.slots depth + 2) % 0x10000) = _
    rw [ha]
    rfl

theorem call_view (hm : m.WellShaped) {target : UInt16} (hg : m.refusal? .freeSlot = none)
    (hp : m.openCall target = after.done flow) :
    m.view.call target.toNat = m.continued after flow := by
  have hlt := hm.depth_lt_of_refusal? hg
  rw [openCall_of_lt hlt] at hp
  obtain ⟨rfl, rfl⟩ := done_inj hp
  have hs := CallStack.value_set hlt (m.stack.depth + 1) m.registers.pc
  exact congrArg (fun slots =>
    (Kind.retired, { m.view with slots, depth := m.stack.depth + 1, pc := target.toNat,
                                 status := .running })) hs.symm

theorem takeKey_view {x : Register} (hp : m.takeKey x = after.done flow) :
    m.view.takeKey x.val = m.settled after (.takeKey x) flow := by
  have hf : (List.range 16).find? m.view.held = m.keypad.firstHeld.map UInt8.toNat :=
    m.keypad.firstHeld_eq.symm
  unfold takeKey at hp
  split at hp
  · rename_i key hk
    obtain ⟨rfl, rfl⟩ := done_inj hp
    rw [State.takeKey, hf, hk]
    exact next_of_view (view_setV m x key) rfl
  · rename_i hk
    obtain ⟨rfl, rfl⟩ := done_inj hp
    rw [State.takeKey, hf, hk]
    show (Kind.waiting, { m.view with status := .waiting (Fin.ofNat 16 x.val) }) = _
    rw [Fin.ofNat_val_eq_self]
    rfl

/-- An instruction that completes leaves the machine with the view that its meaning has. -/
theorem meaning_of_perform (hm : m.WellShaped) {i : Instruction}
    (low : ∀ x y n, i = .draw x y n → n.toNat ≤ Framebuffer.height)
    (hg : ∀ d, i.demand? = some d → m.refusal? d = none) (hp : m.perform i = after.done flow) :
    meaning m.view i = m.settled after i flow := by
  -- No instruction moves the program counter; where it continues is in the flow.
  have hpc : after.registers.pc = m.registers.pc := by
    have hk := kept_perform m i
    rw [hp] at hk
    exact hk.pc
  cases i
  case clearScreen =>
    obtain ⟨rfl, rfl⟩ := done_inj hp
    exact next_of_view (view_clear m) hpc
  case returnFromCall => exact returnFromCall_view hm (hg _ rfl) hp
  case system nnn =>
    obtain ⟨rfl, rfl⟩ := done_inj hp
    exact next_of_view rfl rfl
  case jump nnn =>
    obtain ⟨rfl, rfl⟩ := done_inj hp
    rfl
  case call nnn => exact call_view hm (hg _ rfl) hp
  case skipEqByte x nn =>
    obtain ⟨rfl, rfl⟩ := done_inj hp
    rw [meaning, view_v, beq_toNat]
    exact skipIf_view m _
  case skipNeByte x nn =>
    obtain ⟨rfl, rfl⟩ := done_inj hp
    rw [meaning, view_v, bne_toNat]
    exact skipIf_view m _
  case skipEq x y =>
    obtain ⟨rfl, rfl⟩ := done_inj hp
    rw [meaning, view_v, view_v, beq_toNat]
    exact skipIf_view m _
  case skipNe x y =>
    obtain ⟨rfl, rfl⟩ := done_inj hp
    rw [meaning, view_v, view_v, bne_toNat]
    exact skipIf_view m _
  case loadByte x nn =>
    obtain ⟨rfl, rfl⟩ := done_inj hp
    exact next_of_view (view_setV m x nn) hpc
  case addByte x nn =>
    obtain ⟨rfl, rfl⟩ := done_inj hp
    refine next_of_view ((view_setV m x _).trans ?_) hpc
    rw [UInt8.toNat_add, view_v]
  case combine op x y =>
    obtain ⟨rfl, rfl⟩ := done_inj hp
    exact arithmetic_view m op x y
  case setIndex nnn =>
    obtain ⟨rfl, rfl⟩ := done_inj hp
    exact next_of_view (view_setI m nnn) hpc
  case jumpPlus nnn =>
    obtain ⟨rfl, rfl⟩ := done_inj hp
    have ht : (nnn.toNat + m.view.v 0) % 0x10000 = (nnn + (m.v 0).toUInt16).toNat := by
      rw [show m.view.v 0 = (m.v 0).toNat from view_v m 0, UInt16.toNat_add, UInt8.toNat_toUInt16]
    rw [meaning, ht]
    rfl
  case random x nn =>
    obtain ⟨rfl, rfl⟩ := done_inj hp
    exact next_of_view (view_takeRandom m x nn) hpc
  case draw x y n =>
    have hle := le_capacity_of_refusal? (hg _ rfl)
    obtain ⟨collision, pixels, ht, _, hd⟩ := drawRows_of_le hm x y hle
    obtain ⟨rfl, rfl⟩ := done_inj (hd.symm.trans hp)
    exact next_of_view (view_draw hm x y (low x y n rfl) hle ht) hpc
  case skipHeld x =>
    obtain ⟨rfl, rfl⟩ := done_inj hp
    rw [meaning, view_v, view_isHeld]
    exact skipIf_view m _
  case skipNotHeld x =>
    obtain ⟨rfl, rfl⟩ := done_inj hp
    rw [meaning, view_v, view_isHeld]
    exact skipIf_view m _
  case getDelay x =>
    obtain ⟨rfl, rfl⟩ := done_inj hp
    exact next_of_view (view_setV m x m.timers.delay) hpc
  case takeKey x => exact takeKey_view hp
  case setDelay x =>
    obtain ⟨rfl, rfl⟩ := done_inj hp
    rw [meaning, view_v]
    exact next_of_view rfl rfl
  case setSound x =>
    obtain ⟨rfl, rfl⟩ := done_inj hp
    rw [meaning, view_v]
    exact next_of_view rfl rfl
  case addIndex x =>
    obtain ⟨rfl, rfl⟩ := done_inj hp
    refine next_of_view ((view_setI m _).trans ?_) hpc
    rw [UInt16.toNat_add, UInt8.toNat_toUInt16, view_v]
    rfl
  case pointToGlyph x =>
    obtain ⟨rfl, rfl⟩ := done_inj hp
    refine next_of_view ((view_setI m _).trans ?_) hpc
    rw [toNat_addressOf, view_v]
  case storeDecimal x =>
    have hle : m.registers.i.toNat + (Alu.decimalDigits (m.v x)).length ≤ Memory.capacity :=
      le_capacity_of_refusal? (hg _ rfl)
    obtain ⟨rfl, rfl⟩ := done_inj ((storeBytes_of_le hm.size_memory hle).symm.trans hp)
    refine next_of_view ((view_store hm.size_memory hle).trans ?_) hpc
    rw [view_v]
    rfl
  case saveRegisters x =>
    have hle := le_capacity_of_refusal? (hg _ rfl)
    rw [← Registers.length_upTo m.registers x] at hle
    obtain ⟨rfl, rfl⟩ := done_inj ((storeBytes_of_le hm.size_memory hle).symm.trans hp)
    refine next_of_view ((view_store hm.size_memory hle).trans ?_) hpc
    rw [map_upTo]
    rfl
  case restoreRegisters x =>
    have hle := le_capacity_of_refusal? (hg _ rfl)
    obtain ⟨rfl, rfl⟩ := done_inj ((restoreRegisters_of_le hm.size_memory hle).symm.trans hp)
    exact next_of_view (view_restore hm.size_memory hle) hpc
  case unknown word =>
    obtain ⟨rfl, rfl⟩ := done_inj hp
    rw [meaning, State.ignore, next_of_view rfl rfl]
    rfl

end Machine

end Chip8
