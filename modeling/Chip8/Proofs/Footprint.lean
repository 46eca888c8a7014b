/-
  Chip8.Proofs.Footprint — which parts of a machine an instruction writes to.

  Of the parts of a machine that instructions write to at all, each instruction writes to two at most, and
  most to one.  `writes` lists them, and whatever is not listed is left as it was, on any machine and
  whether or not the instruction completes.

  Main statements: `same_perform` (instructions), `changed_of_done` (which of them mark the screen) and
  `same_of_step` (steps).
-/
import Chip8.Proofs.Stepping

namespace Chip8

/-! ## §1. Parts. -/

/-- A part of a machine that some instruction writes to. -/
inductive Part where
  /-- The general registers. -/
  | general
  /-- The index register. -/
  | index
  | memory
  | stack
  /-- The delay timer. -/
  | delay
  /-- The sound timer. -/
  | sound
  | screen
  /-- The source of random bytes. -/
  | random
  deriving Repr, DecidableEq

/-- Says that two machines agree in a part. -/
def Part.Same (m after : Machine) : Part → Prop
  | .general => after.registers.v = m.registers.v
  | .index => after.registers.i = m.registers.i
  | .memory => after.memory = m.memory
  | .stack => after.stack = m.stack
  | .delay => after.timers.delay = m.timers.delay
  | .sound => after.timers.sound = m.timers.sound
  | .screen => after.framebuffer = m.framebuffer
  | .random => after.random = m.random

/-- The parts that an instruction may write to. -/
def Instruction.writes : Instruction → List Part
  | .clearScreen => [.screen]
  | .returnFromCall | .call _ => [.stack]
  | .loadByte _ _ | .addByte _ _ | .combine _ _ _ | .getDelay _ | .takeKey _ | .restoreRegisters _ =>
    [.general]
  | .setIndex _ | .addIndex _ | .pointToGlyph _ => [.index]
  | .random _ _ => [.general, .random]
  | .draw _ _ _ => [.general, .screen]
  | .setDelay _ => [.delay]
  | .setSound _ => [.sound]
  | .storeDecimal _ | .saveRegisters _ => [.memory]
  | .system _ | .jump _ | .skipEqByte _ _ | .skipNeByte _ _ | .skipEq _ _ | .skipNe _ _
  | .jumpPlus _ | .skipHeld _ | .skipNotHeld _ | .unknown _ => []

namespace Machine

variable {m : Machine}

/-! ## §2. What is not written to. -/

theorem same_refl (m : Machine) (p : Part) : p.Same m m := by
  cases p <;> rfl

/-- A write to the general registers is a write to nothing else. -/
theorem same_of_general (m : Machine) (registers : Registers)
    (index : registers.i = m.registers.i) {p : Part} (h : p ≠ .general) : p.Same m { m with registers } := by
  cases p <;> first | exact absurd rfl h | exact index | rfl

theorem same_storeBytes (m : Machine) (bytes : List UInt8) {p : Part} (h : p ≠ .memory) :
    p.Same m (m.storeBytes bytes).machine := by
  rcases m.storeBytes_cases bytes with ⟨trap, hs⟩ | ⟨memory, hs⟩
  · rw [hs]
    exact same_refl m p
  · rw [hs]
    cases p <;> first | exact absurd rfl h | rfl

/-- An instruction leaves the parts that it does not write to as they are. -/
theorem same_perform {i : Instruction} {p : Part} (h : p ∉ i.writes) :
    p.Same m (m.perform i).machine := by
  cases i
  case clearScreen | setIndex nnn | addIndex x | pointToGlyph x | setDelay x | setSound x =>
    have hp := List.ne_of_not_mem_cons h
    cases p <;> first | exact absurd rfl hp | rfl
  case returnFromCall =>
    have hp := List.ne_of_not_mem_cons h
    show p.Same m m.returnFromCall.machine
    rcases m.returnFromCall_cases with ⟨trap, hr⟩ | ⟨address, stack, _, hr⟩ | ⟨_, _, hr⟩
    · rw [hr]
      exact same_refl m p
    · rw [hr]
      cases p <;> first | exact absurd rfl hp | rfl
    · rw [hr]
      exact same_refl m p
  case call nnn =>
    have hp := List.ne_of_not_mem_cons h
    show p.Same m (m.openCall nnn).machine
    rcases m.openCall_cases nnn with ⟨trap, ho⟩ | ⟨stack, _, ho⟩
    · rw [ho]
      exact same_refl m p
    · rw [ho]
      cases p <;> first | exact absurd rfl hp | rfl
  case loadByte x nn | addByte x nn | getDelay x =>
    exact same_of_general m _ (Registers.i_set ..) (List.ne_of_not_mem_cons h)
  case combine op x y =>
    obtain ⟨v, hc⟩ := combine_eq m op x y
    show p.Same m (m.combine op x y)
    rw [hc]
    exact same_of_general m { m.registers with v } rfl (List.ne_of_not_mem_cons h)
  case takeKey x =>
    show p.Same m (m.takeKey x).machine
    rcases m.takeKey_cases x with ⟨key, _, hk⟩ | ⟨_, hk⟩
    · rw [hk]
      exact same_of_general m _ (Registers.i_set ..) (List.ne_of_not_mem_cons h)
    · rw [hk]
      exact same_refl m p
  case restoreRegisters x =>
    show p.Same m (m.restoreRegisters x).machine
    rcases m.restoreRegisters_cases x with ⟨trap, hr⟩ | ⟨bytes, hr⟩
    · rw [hr]
      exact same_refl m p
    · rw [hr]
      exact same_of_general m _ (Registers.i_setFirst ..) (List.ne_of_not_mem_cons h)
  case random x nn =>
    obtain ⟨hg, hrest⟩ := List.ne_and_not_mem_of_not_mem_cons h
    have hr := List.ne_of_not_mem_cons hrest
    have hi := Registers.i_set m.registers x (m.random.next.1 &&& nn)
    show p.Same m (m.takeRandom x nn)
    rw [takeRandom_eq]
    cases p <;> first | exact absurd rfl hg | exact absurd rfl hr | exact hi | rfl
  case draw x y n =>
    obtain ⟨hg, hrest⟩ := List.ne_and_not_mem_of_not_mem_cons h
    have hs := List.ne_of_not_mem_cons hrest
    show p.Same m (m.drawRows x y n).machine
    rcases m.drawRows_cases x y n with ⟨trap, hd⟩ | ⟨collision, pixels, hd⟩
    · rw [hd]
      exact same_refl m p
    · rw [hd]
      have hi : (m.registers.setFlag collision).i = m.registers.i := Registers.i_set ..
      cases p <;> first | exact absurd rfl hg | exact absurd rfl hs | exact hi | rfl
  case storeDecimal x => exact same_storeBytes m _ (List.ne_of_not_mem_cons h)
  case saveRegisters x => exact same_storeBytes m _ (List.ne_of_not_mem_cons h)
  -- The others write to nothing.
  all_goals exact same_refl m p

/-- An instruction that completes leaves the parts that it does not write to as they are. -/
theorem same_of_done {i : Instruction} {after : Machine} {flow : Flow}
    (performs : m.perform i = after.done flow) {p : Part} (h : p ∉ i.writes) : p.Same m after := by
  have hs : p.Same m (m.perform i).machine := same_perform h
  rwa [performs] at hs

/-- An instruction that writes to the screen and completes marks it. -/
theorem changed_of_done {i : Instruction} {after : Machine} {flow : Flow}
    (performs : m.perform i = after.done flow) (h : .screen ∈ i.writes) :
    after.framebuffer.changed = true := by
  cases i with
  | clearScreen =>
    obtain ⟨rfl, -⟩ := done_inj performs
    rfl
  | draw x y n =>
    rcases m.drawRows_cases x y n with ⟨trap, hd⟩ | ⟨collision, pixels, hd⟩
    · exact absurd (hd.symm.trans performs) giveUp_ne_done
    · obtain ⟨rfl, -⟩ := done_inj (hd.symm.trans performs)
      rfl
  | _ => simp [Instruction.writes] at h

/-! ## §3. Steps. -/

/-- A step that executes no instruction leaves every part as it is, and one that does leaves those that
    its instruction does not write to. -/
theorem same_of_step {s : Stepped} (h : m.StepsTo s) :
    (∀ p : Part, p.Same m s.machine) ∨
      ∃ w flow, m.status.stoppedBy = none ∧ m.Fetches w ∧
        s.outcome = settledOutcome (Instruction.decode w) flow ∧
        ∀ p ∉ (Instruction.decode w).writes, p.Same m s.machine := by
  cases h with
  | stopped cause status => exact .inl fun p => same_refl m p
  | unfetched live outside => exact .inl fun p => by cases p <;> rfl
  | refused live w d cause fetches demand refusal => exact .inl fun p => by cases p <;> rfl
  | completed live w flow after fetches granted performs shaped kept =>
    refine .inr ⟨w, flow, live, fetches, outcome_settle .., ?_⟩
    intro p hp
    have hs := same_of_done performs hp
    rw [machine_settle]
    cases p <;> exact hs

end Machine

end Chip8
