/-
  Chip8.Proofs.Continuing — where execution continues, and what becomes of the open calls.

  A program moves about in three ways: it goes on or skips, it jumps to an address in a word, and it
  calls and returns.  `Continues` lists them, with the call stack that each leaves behind.  The program
  counter, the return addresses and `V0` feed one another, since a call stores the first, a return fetches
  it back and a jump may add the last; together they stay so low that no sum of addresses ever leaves its
  sixteen bits, and the machine might as well count over the natural numbers.

  Main statements: `continues_of_perform` (the ways of an instruction), `continues_of_step` (and of a
  step), `Bounded.step` (a step keeps addresses low) and `pc_never_wraps` (every machine of a run).
-/
import Chip8.Proofs.Faults
import Chip8.Proofs.Reaching

namespace Chip8

open Instruction

/-! ## §1. Addresses in words. -/

/-- The address that an instruction carries, if it carries one. -/
def Instruction.address? : Instruction → Option UInt16
  | .system nnn | .jump nnn | .call nnn | .setIndex nnn | .jumpPlus nnn => some nnn
  | _ => none

theorem address?_decodeAlu (w : Word) : (decodeAlu w).address? = none := by
  unfold decodeAlu
  split <;> rfl

theorem address?_decodeKey (w : Word) : (decodeKey w).address? = none := by
  unfold decodeKey
  split <;> rfl

theorem address?_decodeMisc (w : Word) : (decodeMisc w).address? = none := by
  unfold decodeMisc
  split <;> rfl

/-- An address in a word is its last three digits. -/
theorem eq_nnn_of_address? {w : Word} {address : UInt16} (h : (decode w).address? = some address) :
    address = w.nnn := by
  have hw := w.family_lt
  interval_cases hf : w.family
  case «0» =>
    simp only [decode, hf, decodeSystem] at h
    split at h
    · cases h
    · split at h
      · cases h
      · exact (Option.some.inj h).symm
  case «5» | «9» =>
    simp only [decode, hf] at h
    split at h <;> cases h
  case «8» => simp [decode, hf, address?_decodeAlu] at h
  case «14» => simp [decode, hf, address?_decodeKey] at h
  case «15» => simp [decode, hf, address?_decodeMisc] at h
  -- The other families carry their last three digits or no address at all.
  all_goals
    simp only [decode, hf, address?, reduceCtorEq, Option.some.injEq] at h
    try exact h.symm

theorem toNat_lt_of_address? {w : Word} {address : UInt16}
    (h : (decode w).address? = some address) : address.toNat < 0x1000 := by
  rw [eq_nnn_of_address? h, w.toNat_nnn]
  exact Nat.mod_lt _ (by decide)

namespace Machine

variable {m : Machine}

/-! ## §2. The ways of an instruction. -/

/-- Says whether an instruction skips the one behind it. -/
def skips (m : Machine) : Instruction → Bool
  | .skipEqByte x nn => m.v x == nn
  | .skipNeByte x nn => m.v x != nn
  | .skipEq x y => m.v x == m.v y
  | .skipNe x y => m.v x != m.v y
  | .skipHeld x => m.keypad.isHeld (m.v x)
  | .skipNotHeld x => !m.keypad.isHeld (m.v x)
  | _ => false

/-- Where an instruction that completes continues, and the call stack behind it. -/
inductive Continues (m : Machine) : Instruction → Flow → CallStack → Prop where
  /-- Most instructions go on, and some skip on a condition. -/
  | onward {i : Instruction} (stays : i.transfersControl = false) :
    Continues m i (.skipWhen (m.skips i)) m.stack
  | jumped (nnn : UInt16) : Continues m (.jump nnn) (.jump nnn) m.stack
  | jumpedPlus (nnn : UInt16) :
    Continues m (.jumpPlus nnn) (.jump (nnn + (m.v 0).toUInt16)) m.stack
  | called (nnn : UInt16) {stack : CallStack} (push : m.stack.push m.registers.pc = .ok stack) :
    Continues m (.call nnn) (.jump nnn) stack
  | returned {address : UInt16} {stack : CallStack} (pop : m.stack.pop = .ok (address, stack)) :
    Continues m .returnFromCall (.jump (address + 2)) stack
  /-- A return with no call open goes to the program start, where the host wants that. -/
  | restarted (depth : m.stack.depth = 0) (choice : m.config.emptyReturn = .toProgramStart) :
    Continues m .returnFromCall (.jump (Memory.programStart + 2)) m.stack
  | tookKey (x : Register) {key : UInt8} (held : m.keypad.firstHeld = some key) :
    Continues m (.takeKey x) .advance m.stack
  | heldOn (x : Register) (none : m.keypad.firstHeld = none) :
    Continues m (.takeKey x) .hold m.stack

/-- An instruction that is no transfer of control and skips nothing goes on. -/
theorem Continues.advance {i : Instruction} (stays : i.transfersControl = false)
    (steady : m.skips i = false) : m.Continues i .advance m.stack := by
  have h := Continues.onward (m := m) stays
  rwa [steady] at h

theorem continues_storeBytes {i : Instruction} (stays : i.transfersControl = false)
    (steady : m.skips i = false) {bytes : List UInt8} {after : Machine} {flow : Flow}
    (h : m.storeBytes bytes = after.done flow) : m.Continues i flow after.stack := by
  rcases m.storeBytes_cases bytes with ⟨trap, hs⟩ | ⟨memory, hs⟩
  · exact absurd (hs.symm.trans h) giveUp_ne_done
  · obtain ⟨rfl, rfl⟩ := done_inj (hs.symm.trans h)
    exact .advance stays steady

theorem continues_restoreRegisters {x : Register} {after : Machine} {flow : Flow}
    (h : m.restoreRegisters x = after.done flow) :
    m.Continues (.restoreRegisters x) flow after.stack := by
  rcases m.restoreRegisters_cases x with ⟨trap, hr⟩ | ⟨bytes, hr⟩
  · exact absurd (hr.symm.trans h) giveUp_ne_done
  · obtain ⟨rfl, rfl⟩ := done_inj (hr.symm.trans h)
    exact .advance rfl rfl

theorem continues_drawRows {x y : Register} {height : UInt8} {after : Machine} {flow : Flow}
    (h : m.drawRows x y height = after.done flow) :
    m.Continues (.draw x y height) flow after.stack := by
  rcases m.drawRows_cases x y height with ⟨trap, hd⟩ | ⟨collision, pixels, hd⟩
  · exact absurd (hd.symm.trans h) giveUp_ne_done
  · obtain ⟨rfl, rfl⟩ := done_inj (hd.symm.trans h)
    exact .advance rfl rfl

theorem continues_returnFromCall {after : Machine} {flow : Flow}
    (h : m.returnFromCall = after.done flow) :
    m.Continues .returnFromCall flow after.stack := by
  rcases m.returnFromCall_cases with ⟨trap, hr⟩ | ⟨address, stack, hp, hr⟩ | ⟨hd, he, hr⟩
  · exact absurd (hr.symm.trans h) giveUp_ne_done
  · obtain ⟨rfl, rfl⟩ := done_inj (hr.symm.trans h)
    exact .returned hp
  · obtain ⟨rfl, rfl⟩ := done_inj (hr.symm.trans h)
    exact .restarted hd he

theorem continues_openCall {nnn : UInt16} {after : Machine} {flow : Flow}
    (h : m.openCall nnn = after.done flow) : m.Continues (.call nnn) flow after.stack := by
  rcases m.openCall_cases nnn with ⟨trap, ho⟩ | ⟨stack, hp, ho⟩
  · exact absurd (ho.symm.trans h) giveUp_ne_done
  · obtain ⟨rfl, rfl⟩ := done_inj (ho.symm.trans h)
    exact .called nnn hp

theorem continues_takeKey {x : Register} {after : Machine} {flow : Flow}
    (h : m.takeKey x = after.done flow) : m.Continues (.takeKey x) flow after.stack := by
  rcases m.takeKey_cases x with ⟨key, hk, ht⟩ | ⟨hk, ht⟩
  · obtain ⟨rfl, rfl⟩ := done_inj (ht.symm.trans h)
    exact .tookKey x hk
  · obtain ⟨rfl, rfl⟩ := done_inj (ht.symm.trans h)
    exact .heldOn x hk

/-- An instruction that completes continues in one of the ways. -/
theorem continues_of_perform {i : Instruction} {after : Machine} {flow : Flow}
    (h : m.perform i = after.done flow) : m.Continues i flow after.stack := by
  cases i
  case returnFromCall => exact continues_returnFromCall h
  case call nnn => exact continues_openCall h
  case takeKey x => exact continues_takeKey h
  case draw x y n => exact continues_drawRows h
  case storeDecimal x => exact continues_storeBytes rfl rfl h
  case saveRegisters x => exact continues_storeBytes rfl rfl h
  case restoreRegisters x => exact continues_restoreRegisters h
  case jump nnn =>
    obtain ⟨rfl, rfl⟩ := done_inj h
    exact .jumped nnn
  case jumpPlus nnn =>
    obtain ⟨rfl, rfl⟩ := done_inj h
    exact .jumpedPlus nnn
  case combine op x y =>
    obtain ⟨rfl, rfl⟩ := done_inj h
    obtain ⟨v, hc⟩ := combine_eq m op x y
    rw [hc]
    exact .onward rfl
  -- The others complete with the stack as it was and go on, or skip on their condition.
  all_goals
    obtain ⟨rfl, rfl⟩ := done_inj h
    exact .onward rfl

/-! ## §3. The ways of a step. -/

/-- A step either stays where it is and answers with a fault, or its instruction continues. -/
theorem continues_of_step (hm : m.WellShaped) {s : Stepped} (h : m.step = .ok s) :
    (∃ cause, s.outcome = .fault cause ∧ s.machine.registers = m.registers ∧
      s.machine.stack = m.stack) ∨
    ∃ w flow, m.Fetches w ∧ s.outcome = settledOutcome (decode w) flow ∧
      m.Continues (decode w) flow s.machine.stack ∧
      s.machine.registers.pc = flow.apply m.registers.pc := by
  cases stepsTo_of_step hm h with
  | stopped cause status => exact .inl ⟨cause, rfl, rfl, rfl⟩
  | unfetched live outside => exact .inl ⟨_, rfl, rfl, rfl⟩
  | refused live w d cause fetches demand refusal => exact .inl ⟨cause, rfl, rfl, rfl⟩
  | completed live w flow after fetches granted performs shaped kept =>
    have hc := continues_of_perform performs
    rw [machine_settle]
    exact .inr ⟨w, flow, fetches, outcome_settle .., hc, rfl⟩

/-! ## §4. Sums of addresses. -/

/-- Says that the program counter and the return addresses are no higher than a program can take
    them. -/
structure Bounded (m : Machine) : Prop where
  pc_le : m.registers.pc.toNat ≤ 0x10FE
  /-- A call stands inside memory, with room for both of its bytes. -/
  frame_le : ∀ address ∈ m.stack.frames, address.toNat ≤ 0xFFE

/-- Says of the sums that lead to the next instruction that each is the sum of natural numbers. -/
structure Unwrapped (m : Machine) : Prop where
  advance : (m.registers.pc + 2).toNat = m.registers.pc.toNat + 2
  skip : (m.registers.pc + 4).toNat = m.registers.pc.toNat + 4
  returned : ∀ address ∈ m.stack.frames, (address + 2).toNat = address.toNat + 2
  jumpPlus : ∀ w nnn, m.Fetches w → decode w = .jumpPlus nnn →
    (nnn + (m.v 0).toUInt16).toNat = nnn.toNat + (m.v 0).toNat

theorem toNat_add_of_lt {a b : UInt16} (h : a.toNat + b.toNat < 0x10000) :
    (a + b).toNat = a.toNat + b.toNat := by
  rw [UInt16.toNat_add]
  exact Nat.mod_eq_of_lt h

/-- Low addresses leave room for every sum. -/
theorem Bounded.unwrapped (hb : m.Bounded) : m.Unwrapped where
  advance := by
    have := hb.pc_le
    exact toNat_add_of_lt (show m.registers.pc.toNat + 2 < 0x10000 by omega)
  skip := by
    have := hb.pc_le
    exact toNat_add_of_lt (show m.registers.pc.toNat + 4 < 0x10000 by omega)
  returned := by
    intro address hmem
    have := hb.frame_le address hmem
    exact toNat_add_of_lt (show address.toNat + 2 < 0x10000 by omega)
  jumpPlus := by
    intro w nnn _ hw
    have hn : nnn.toNat < 0x1000 := toNat_lt_of_address? (w := w) (by rw [hw]; rfl)
    have hv := (m.v 0).toNat_lt
    have hv' : (m.v 0).toUInt16.toNat = (m.v 0).toNat := UInt8.toNat_toUInt16 _
    rw [toNat_add_of_lt (by omega), hv']

/-! ## §5. Where instructions lead. -/

/-- The place where an instruction continues, in sums of natural numbers. -/
def destination (m : Machine) : Instruction → Nat
  | .jump nnn | .call nnn => nnn.toNat
  | .jumpPlus nnn => nnn.toNat + (m.v 0).toNat
  -- The innermost call or, as far as the host wants that, the program start in its place.
  | .returnFromCall => (m.stack.frames.getLast?.getD Memory.programStart).toNat + 2
  | .takeKey _ => m.registers.pc.toNat + if m.keypad.firstHeld.isSome then 2 else 0
  | i => m.registers.pc.toNat + if m.skips i then 4 else 2

theorem destination_returnFromCall (m : Machine) : m.destination .returnFromCall =
    (m.stack.frames.getLast?.getD Memory.programStart).toNat + 2 := rfl

theorem destination_takeKey (m : Machine) (x : Register) : m.destination (.takeKey x) =
    m.registers.pc.toNat + if m.keypad.firstHeld.isSome then 2 else 0 := rfl

/-- An instruction that goes on or skips is at its destination. -/
theorem destination_of_stays {i : Instruction} (stays : i.transfersControl = false) :
    m.destination i = m.registers.pc.toNat + if m.skips i then 4 else 2 := by
  cases i
  case returnFromCall | jump | call | jumpPlus | takeKey => cases stays
  all_goals rfl

/-- Whatever way an instruction goes, it gets to its destination. -/
theorem toNat_apply_of_continues (hu : m.Unwrapped) {w : Word} (hf : m.Fetches w) {flow : Flow}
    {stack : CallStack} (h : m.Continues (decode w) flow stack) :
    (flow.apply m.registers.pc).toNat = m.destination (decode w) := by
  generalize hi : decode w = i at h
  cases h with
  | onward stays =>
    rw [destination_of_stays stays, Flow.skipWhen]
    split
    · exact hu.skip
    · exact hu.advance
  | jumped nnn => rfl
  | jumpedPlus nnn => exact hu.jumpPlus w nnn hf hi
  | called nnn push => rfl
  | returned pop =>
    rename_i address
    have hframes := CallStack.frames_pop pop
    have hmem : address ∈ m.stack.frames := by
      rw [hframes]
      exact List.mem_append_right _ List.mem_cons_self
    have hlast : m.stack.frames.getLast? = some address := by
      rw [hframes, List.getLast?_concat]
    rw [destination_returnFromCall, hlast]
    exact hu.returned address hmem
  | restarted depth choice =>
    rw [destination_returnFromCall, CallStack.frames_of_depth depth]
    rfl
  | tookKey x held =>
    rw [destination_takeKey, held]
    exact hu.advance
  | heldOn x none =>
    rw [destination_takeKey, none]
    rfl

/-- No destination is out of reach. -/
theorem destination_le (hb : m.Bounded) {w : Word} (hf : m.Fetches w) :
    m.destination (decode w) ≤ 0x10FE := by
  have hpc : m.registers.pc.toNat + 1 < 0x1000 := hf.1
  have haddress {nnn : UInt16} (h : (decode w).address? = some nnn) : nnn.toNat < 0x1000 :=
    toNat_lt_of_address? h
  generalize decode w = i at haddress
  by_cases hi : i.transfersControl
  · cases i with
    | jump nnn | call nnn =>
      have := haddress rfl
      show nnn.toNat ≤ _
      omega
    | jumpPlus nnn =>
      have := haddress rfl
      have := (m.v 0).toNat_lt
      show nnn.toNat + (m.v 0).toNat ≤ _
      omega
    | returnFromCall =>
      rw [destination_returnFromCall]
      rcases hl : m.stack.frames.getLast? with _ | address
      · decide
      · have := hb.frame_le address (List.mem_of_getLast? hl)
        show address.toNat + 2 ≤ _
        omega
    | takeKey x =>
      rw [destination_takeKey]
      split <;> omega
    | _ => cases hi
  · rw [destination_of_stays (Bool.eq_false_iff.mpr hi)]
    split <;> omega

/-! ## §6. Addresses stay low. -/

theorem Bounded.of_parts (hb : m.Bounded) {after : Machine}
    (registers : after.registers = m.registers) (stack : after.stack = m.stack) :
    after.Bounded where
  pc_le := by
    rw [registers]
    exact hb.pc_le
  frame_le := by
    rw [stack]
    exact hb.frame_le

/-- A call adds the address at which it stands, and no other way adds any. -/
theorem mem_frames_of_continues {i : Instruction} {flow : Flow} {stack : CallStack}
    (h : m.Continues i flow stack) {address : UInt16} (hmem : address ∈ stack.frames) :
    address ∈ m.stack.frames ∨ address = m.registers.pc := by
  cases h with
  | called nnn push =>
    rw [CallStack.frames_push push, List.mem_append, List.mem_singleton] at hmem
    exact hmem
  | returned pop =>
    rw [CallStack.frames_pop pop]
    exact .inl (List.mem_append_left _ hmem)
  | _ => exact .inl hmem

/-- A step keeps addresses low. -/
theorem Bounded.step (hm : m.WellShaped) (hb : m.Bounded) {s : Stepped} (h : m.step = .ok s) :
    s.machine.Bounded := by
  rcases continues_of_step hm h with ⟨_, _, hr, hs⟩ | ⟨w, flow, hf, _, hc, hpc⟩
  · exact hb.of_parts hr hs
  · constructor
    · rw [hpc, toNat_apply_of_continues hb.unwrapped hf hc]
      exact destination_le hb hf
    · intro address hmem
      rcases mem_frames_of_continues hc hmem with hold | rfl
      · exact hb.frame_le address hold
      · have hlt : m.registers.pc.toNat + 1 < 0x1000 := hf.1
        omega

theorem bounded_new (config : Config) : (new config).Bounded where
  pc_le := by
    show Memory.programStart.toNat ≤ _
    decide
  frame_le := by
    intro address hmem
    cases hmem

/-- Every machine of a run has low addresses, whatever images it is given on the way. -/
theorem Reachable.bounded {allowed : Request → Prop} (h : Reachable allowed m) : m.Bounded := by
  refine h.preserves ?_ ?_ ?_ ?_ ?_ ?_
  · exact bounded_new
  · intro config image
    exact (bounded_new config).of_parts rfl rfl
  · intro m s hm hb hs
    exact hb.step hm hs
  · intro m hb
    exact hb.of_parts rfl rfl
  · intro m key held hb
    exact hb.of_parts rfl rfl
  · intro m image _ _ hb
    exact hb.of_parts rfl rfl

/-- The program counter never wraps around.  In every machine of a run, whatever images it is given on
    the way, the program counter and the return addresses are low, every sum of addresses is the sum of
    natural numbers, and a step that is no fault leads to its instruction's destination, counted in such
    sums.  The steps inside a tick are steps like any others: they start from machines of the run. -/
theorem pc_never_wraps {allowed : Request → Prop} (h : Reachable allowed m) :
    m.registers.pc.toNat ≤ 0x10FE ∧ (∀ address ∈ m.stack.frames, address.toNat ≤ 0xFFE) ∧
    m.Unwrapped ∧
    ∃ s, m.step = .ok s ∧
      ((∃ cause, s.outcome = .fault cause) ∧ s.machine.registers.pc = m.registers.pc ∨
        (∀ cause, s.outcome ≠ .fault cause) ∧
          ∃ w, m.Fetches w ∧ s.machine.registers.pc.toNat = m.destination (decode w)) := by
  have hb := h.bounded
  obtain ⟨s, hs, _⟩ := exists_step h.wellShaped
  refine ⟨hb.pc_le, hb.frame_le, hb.unwrapped, s, hs, ?_⟩
  rcases continues_of_step h.wellShaped hs with ⟨cause, ho, hr, _⟩ | ⟨w, flow, hf, ho, hc, hpc⟩
  · exact .inl ⟨⟨cause, ho⟩, congrArg Registers.pc hr⟩
  · refine .inr ⟨?_, w, hf, ?_⟩
    · rw [ho]
      exact settledOutcome_ne_fault _ _
    · rw [hpc]
      exact toNat_apply_of_continues hb.unwrapped hf hc

/-- A jump from `0xFFF` on by the largest register goes as far as a program can get. -/
theorem pc_never_wraps_farthest :
    ∃ m s, Reachable (fun _ => True) m ∧ m.v 0 = 0xFF ∧ m.step = .ok s ∧
      s.outcome = .retired (.jumpPlus 0xFFF) ∧ s.machine.registers.pc.toNat = 0x10FE ∧
      ∃ w, m.Fetches w ∧ m.destination (decode w) = 0x10FE := by
  have hstart : Reachable (fun _ => True) ((new .standard).withImage [0x60, 0xFF, 0xBF, 0xFF]) :=
    .made (ofImage_of_le _ (by decide))
  -- The first step loads the register, the second jumps.
  have hrun : (((new .standard).withImage [0x60, 0xFF, 0xBF, 0xFF]).step.bind fun t =>
      t.machine.step.map fun s => (t.machine.v 0, s.outcome, s.machine.registers.pc.toNat)) =
        .ok (0xFF, .retired (.jumpPlus 0xFFF), 0x10FE) := by
    decide +kernel
  obtain ⟨t, ht, _⟩ := exists_step hstart.wellShaped
  have hreach := hstart.stepped trivial ht
  obtain ⟨_, _, _, s, hs, hor⟩ := pc_never_wraps hreach
  simp only [ht, hs, Except.bind, Except.map, Except.ok.injEq, Prod.mk.injEq] at hrun
  obtain ⟨hv, ho, hpc⟩ := hrun
  refine ⟨t.machine, s, hreach, hv, hs, ho, hpc, ?_⟩
  rcases hor with ⟨⟨cause, hc⟩, _⟩ | ⟨_, w, hf, hd⟩
  · rw [ho] at hc
    cases hc
  · exact ⟨w, hf, hd.symm.trans hpc⟩

end Machine

end Chip8
