/-
  Chip8.Proofs.Saving — registers put away in memory and taken back.

  To save registers is to store them at consecutive addresses from the index register on, `V0` first, and to
  restore them is to load them from there.  Both leave the index register where it is, so the same addresses
  are meant if it is not moved in between, or is put back.  What is in memory at these addresses is then the
  registers as they were saved, unless an instruction has stored something over them; and only two kinds of
  instructions store at all, each at addresses that its operand and the index register give away.

  Main statements: `memory_of_execute` (one instruction), `Sparing.memory` (many) and `saved_then_restored`.
-/
import Chip8.Proofs.Footprint

namespace Chip8

/-! ## §1. Registers as bytes. -/

/-- The values of the first registers are in the order of the registers. -/
theorem Registers.getElem?_upTo (r : Registers) {x k : Register} (h : k ≤ x) :
    (r.upTo x)[k.val]? = some (r.get k) := by
  have hk : k.val < x.val + 1 := Nat.lt_succ_of_le h
  simp [Registers.upTo, Registers.get, List.getElem?_take_of_lt hk]

/-- Registers that were loaded from as many bytes as they are have these bytes as their values. -/
theorem Registers.upTo_setFirst (r : Registers) {bytes : List UInt8} {x : Register}
    (h : bytes.length = x.val + 1) : (r.setFirst bytes).upTo x = bytes := by
  apply List.ext_getElem?
  intro j
  rcases Nat.lt_or_ge j (x.val + 1) with hlt | hge
  · let k : Register := ⟨j, by omega⟩
    have hk : k ≤ x := Nat.le_of_lt_succ hlt
    have hj : j < bytes.length := by omega
    have hget := (r.setFirst bytes).getElem?_upTo hk
    rw [Registers.get_setFirst, List.getElem?_eq_getElem hj] at hget
    rw [List.getElem?_eq_getElem hj]
    exact hget
  · rw [List.getElem?_eq_none (by rw [Registers.length_upTo]; exact hge),
      List.getElem?_eq_none (by omega)]

/-- To store bytes where they are in memory already changes nothing. -/
theorem Memory.overlay_extract (memory : Array UInt8) (start stop : Nat) :
    overlay memory start (memory.extract start stop).toList = memory := by
  apply Array.ext_getElem?
  intro a
  rw [getElem?_overlay, Array.length_toList, Array.size_extract]
  split
  · rename_i ha
    rw [Array.getElem?_toList, Array.getElem?_extract, if_pos (by omega), Nat.add_sub_cancel' ha.1]
  · rfl

/-! ## §2. One instruction. -/

/-- The number of bytes that an instruction stores. -/
def Instruction.stored : Instruction → Nat
  | .storeDecimal _ => 3
  | .saveRegisters x => x.val + 1
  | _ => 0

namespace Machine

variable {m after : Machine} {flow : Flow} {i : Instruction} {x : Register}

/-- Says of an instruction that it stores something at an address. -/
def StoresAt (m : Machine) (i : Instruction) (a : Nat) : Prop :=
  m.registers.i.toNat ≤ a ∧ a < m.registers.i.toNat + i.stored

/-- An instruction is executed if it is performed to its end. -/
theorem execute_eq_ok_iff : m.execute i = .ok (flow, after) ↔ m.perform i = after.done flow := by
  unfold execute
  rcases hp : m.perform i with ⟨trap | flow', after'⟩
  · simp [Except.map, done]
  · simp [Except.map, done]

/-- Bytes that are stored are written over memory from the index register on. -/
theorem memory_of_storeBytes (full : m.memory.size = Memory.capacity) {bytes : List UInt8}
    (h : m.storeBytes bytes = after.done flow) :
    after.memory = Memory.overlay m.memory m.registers.i.toNat bytes := by
  rcases Nat.lt_or_ge Memory.capacity (m.registers.i.toNat + bytes.length) with hlt | hle
  · exact absurd ((storeBytes_of_lt hlt).symm.trans h) giveUp_ne_done
  · obtain ⟨rfl, -⟩ := done_inj ((storeBytes_of_le full hle).symm.trans h)
    rfl

/-- An instruction that is executed changes memory at most where it stores something, and not its size. -/
theorem memory_of_execute (full : m.memory.size = Memory.capacity) (h : m.execute i = .ok (flow, after)) :
    after.memory.size = m.memory.size ∧ ∀ a, ¬m.StoresAt i a → after.memory[a]? = m.memory[a]? := by
  have hp := execute_eq_ok_iff.mp h
  -- Both kinds of instructions that store something do it in the same way.
  have hstore : ∀ bytes : List UInt8, m.storeBytes bytes = after.done flow → bytes.length = i.stored →
      after.memory.size = m.memory.size ∧ ∀ a, ¬m.StoresAt i a → after.memory[a]? = m.memory[a]? := by
    intro bytes hs hlength
    rw [memory_of_storeBytes full hs]
    refine ⟨Memory.size_overlay .., ?_⟩
    intro a ha
    rw [Memory.getElem?_overlay, if_neg]
    unfold StoresAt at ha
    omega
  by_cases hw : .memory ∈ i.writes
  · cases i with
    | storeDecimal x => exact hstore _ hp (Alu.length_decimalDigits _)
    | saveRegisters x => exact hstore _ hp (Registers.length_upTo _ x)
    | _ => simp [Instruction.writes] at hw
  · have hsame : after.memory = m.memory := same_of_done hp hw
    rw [hsame]
    exact ⟨rfl, fun _ _ => rfl⟩

/-! ## §3. Many instructions. -/

/-- Says that instructions, executed one after the other, take a machine to another, and that none of them
    stores anything at the addresses from `first` to `last`. -/
inductive Sparing (first last : Nat) : Machine → List Instruction → Machine → Prop where
  | nil (m : Machine) : Sparing first last m [] m
  | cons {m next after : Machine} {i : Instruction} {is : List Instruction} {flow : Flow}
    (executed : m.execute i = .ok (flow, next))
    (apart : ∀ a, first ≤ a → a ≤ last → ¬m.StoresAt i a)
    (rest : Sparing first last next is after) : Sparing first last m (i :: is) after

/-- What is at the addresses that are spared is there behind all the instructions. -/
theorem Sparing.memory {first last : Nat} {is : List Instruction} (h : Sparing first last m is after)
    (full : m.memory.size = Memory.capacity) :
    after.memory.size = Memory.capacity ∧
      ∀ a, first ≤ a → a ≤ last → after.memory[a]? = m.memory[a]? := by
  induction h with
  | nil m => exact ⟨full, fun _ _ _ => rfl⟩
  | cons executed apart rest ih =>
    obtain ⟨hsize, hkeeps⟩ := memory_of_execute full executed
    obtain ⟨hfull, hlater⟩ := ih (hsize.trans full)
    refine ⟨hfull, ?_⟩
    intro a hfirst hlast
    exact (hlater a hfirst hlast).trans (hkeeps a (apart a hfirst hlast))

/-! ## §4. Saving and restoring. -/

theorem execute_saveRegisters (full : m.memory.size = Memory.capacity)
    (fits : m.registers.i.toNat + (x.val + 1) ≤ Memory.capacity) :
    m.execute (.saveRegisters x) = .ok (.advance,
      { m with memory := Memory.overlay m.memory m.registers.i.toNat (m.registers.upTo x) }) := by
  apply execute_eq_ok_iff.mpr
  exact storeBytes_of_le full (by rwa [Registers.length_upTo])

theorem execute_restoreRegisters (full : m.memory.size = Memory.capacity)
    (fits : m.registers.i.toNat + (x.val + 1) ≤ Memory.capacity) :
    m.execute (.restoreRegisters x) = .ok (.advance,
      { m with registers := m.registers.setFirst (m.bytesAtIndex (x.val + 1)) }) :=
  execute_eq_ok_iff.mpr (restoreRegisters_of_le full fits)

/-- Registers that are saved are in memory, one behind the other. -/
theorem getElem?_overlay_upTo (full : m.memory.size = Memory.capacity)
    (fits : m.registers.i.toNat + (x.val + 1) ≤ Memory.capacity) {k : Register} (hk : k ≤ x) :
    (Memory.overlay m.memory m.registers.i.toNat (m.registers.upTo x))[m.registers.i.toNat + k.val]? =
      some (m.v k) := by
  have hk' : k.val ≤ x.val := hk
  rw [Memory.getElem?_overlay, Registers.length_upTo, if_pos (by omega), Nat.add_sub_cancel_left]
  exact m.registers.getElem?_upTo hk

/-- Registers that are restored hold what is in memory, and nothing else changes. -/
theorem exists_restored (full : m.memory.size = Memory.capacity)
    (fits : m.registers.i.toNat + (x.val + 1) ≤ Memory.capacity) :
    ∃ restored, m.execute (.restoreRegisters x) = .ok (.advance, restored) ∧
      (∀ k, restored.v k =
        if k ≤ x then m.memory[m.registers.i.toNat + k.val]?.getD (m.v k) else m.v k) ∧
      restored.registers.i = m.registers.i ∧ restored.memory = m.memory := by
  exact ⟨_, execute_restoreRegisters full fits, get_setFirst_bytesAtIndex full fits,
    Registers.i_setFirst .., rfl⟩

/-- Saving and restoring undo each other, wherever the registers fit into memory.  Registers that were saved
    come back with their values, all of them or the first of them, after any instructions whatever that were
    executed in between and did not store over them, if only the index register is put back; to restore them
    changes no other register, nor the index register, nor memory.  Conversely, registers that were restored
    and are saved again leave memory as it was. -/
theorem saved_then_restored (full : m.memory.size = Memory.capacity)
    (fits : m.registers.i.toNat + (x.val + 1) ≤ Memory.capacity) :
    (∃ saved, m.execute (.saveRegisters x) = .ok (.advance, saved) ∧
      ∀ is later, saved.Sparing m.registers.i.toNat (m.registers.i.toNat + x.val) is later →
        ∀ z ≤ x, ∃ restored,
          (later.setI m.registers.i).execute (.restoreRegisters z) = .ok (.advance, restored) ∧
          (∀ k, restored.v k = if k ≤ z then m.v k else later.v k) ∧
          restored.registers.i = m.registers.i ∧ restored.memory = later.memory) ∧
    ∃ restored saved, m.execute (.restoreRegisters x) = .ok (.advance, restored) ∧
      restored.execute (.saveRegisters x) = .ok (.advance, saved) ∧ saved.memory = m.memory := by
  constructor
  · refine ⟨_, execute_saveRegisters full fits, ?_⟩
    intro is later hsparing z hz
    have hz' : z.val ≤ x.val := hz
    obtain ⟨hfull, hlater⟩ := hsparing.memory ((Memory.size_overlay ..).trans full)
    obtain ⟨restored, h, hv, hi, hmemory⟩ := exists_restored (m := later.setI m.registers.i) (x := z) hfull
      (show m.registers.i.toNat + (z.val + 1) ≤ Memory.capacity by omega)
    refine ⟨restored, h, ?_, hi, hmemory⟩
    intro k
    rw [hv k]
    split
    · rename_i hk
      have hk' : k.val ≤ z.val := hk
      -- What was saved is still in memory.
      have hsaved := getElem?_overlay_upTo full fits (Nat.le_trans hk hz)
      rw [← hlater _ (by omega) (by omega)] at hsaved
      exact congrArg (Option.getD · _) hsaved
    · rfl
  · have hindex := Registers.i_setFirst m.registers (m.bytesAtIndex (x.val + 1))
    refine ⟨_, _, execute_restoreRegisters full fits, execute_saveRegisters full ?_, ?_⟩
    · rwa [hindex]
    · simp only [hindex, Registers.upTo_setFirst _ (length_bytesAtIndex full fits)]
      exact Memory.overlay_extract ..

/-- Four registers are saved, then decimal digits right behind them and two registers right in front of them,
    and three of the four come back. -/
theorem saved_then_restored_between :
    let m : Machine :=
      { new .standard with registers := { (Registers.initial.set 0 10).set 2 30 with i := 0x300 } }
    let is : List Instruction :=
      [.loadByte 0 99, .loadByte 3 7, .setIndex 0x304, .storeDecimal 0, .setIndex 0x2FE, .saveRegisters 1]
    m.memory.size = Memory.capacity ∧ m.registers.i.toNat + ((3 : Register).val + 1) ≤ Memory.capacity ∧
      ∃ saved later restored, m.execute (.saveRegisters 3) = .ok (.advance, saved) ∧
        saved.Sparing 0x300 0x303 is later ∧
        (later.setI 0x300).execute (.restoreRegisters 2) = .ok (.advance, restored) ∧
        restored.v 0 = 10 ∧ restored.v 2 = 30 ∧ restored.v 3 = 7 := by
  intro m is
  have full : m.memory.size = Memory.capacity :=
    ((wellShaped_new .standard).withRegisters _).size_memory
  have fits : m.registers.i.toNat + ((3 : Register).val + 1) ≤ Memory.capacity := by decide
  obtain ⟨⟨saved, hsaved, hback⟩, _⟩ := saved_then_restored full fits
  have hfull : saved.memory.size = Memory.capacity := (memory_of_execute full hsaved).1.trans full
  -- The machines in front of and behind the two instructions that store something.
  let above := ((saved.setV 0 99).setV 3 7).setI 0x304
  let digits := Alu.decimalDigits (above.v 0)
  let below := { above with memory := Memory.overlay above.memory above.registers.i.toNat digits }.setI 0x2FE
  have hdigits : above.registers.i.toNat + digits.length ≤ Memory.capacity :=
    show 0x304 + 3 ≤ 0x1000 by decide
  have hregisters : below.registers.i.toNat + ((1 : Register).val + 1) ≤ Memory.capacity :=
    show 0x2FE + 2 ≤ 0x1000 by decide
  have habove : above.execute (.storeDecimal 0) = _ :=
    execute_eq_ok_iff.mpr (storeBytes_of_le (m := above) hfull hdigits)
  have hbelow := execute_saveRegisters ((Memory.size_overlay ..).trans hfull) hregisters
  have happart : ∀ (m : Machine) (i : Instruction),
      i.stored = 0 ∨ 0x304 ≤ m.registers.i.toNat ∨ m.registers.i.toNat + i.stored ≤ 0x300 →
      ∀ a, 0x300 ≤ a → a ≤ 0x303 → ¬m.StoresAt i a := by
    intro m i hi a _ _
    unfold StoresAt
    omega
  have hsparing : saved.Sparing 0x300 0x303 is _ :=
    .cons rfl (happart _ _ (.inl rfl)) <| .cons rfl (happart _ _ (.inl rfl)) <|
    .cons rfl (happart _ _ (.inl rfl)) <| .cons habove (happart _ _ (.inr (.inl (Nat.le_refl 0x304)))) <|
    .cons rfl (happart _ _ (.inl rfl)) <| .cons hbelow (happart _ _ (.inr (.inr (Nat.le_refl 0x300)))) <|
    .nil _
  obtain ⟨restored, h, hv, _⟩ := hback is _ hsparing 2 (by decide)
  have hseven : above.registers.get 3 = 7 := Registers.get_set (saved.registers.set 0 99) 3 3 7
  exact ⟨full, fits, saved, _, restored, hsaved, hsparing, h, hv 0, hv 2, (hv 3).trans hseven⟩

end Machine

end Chip8
