/-
  Chip8.Proofs.Status — the status of a machine is true.

  A status says more than whether the machine runs: it names the register that a key is to go to, or the
  fault that stopped the machine.  Neither is looked at again before the next step, so both had better
  still be so when it comes.  They are, as long as the host writes no image into a machine in the middle
  of a run: a waiting machine stands at the instruction that waits for this register, and a stopped one
  would commit the same fault once more.

  Main statements: `Truthful.step` (a step keeps the status true), `offends_iff_step_fault` (an offence
  is what a running machine stops at) and `status_truthful` (every machine of such a run).
-/
import Chip8.Proofs.Faults
import Chip8.Proofs.Reaching

namespace Chip8

/-- Says that a request writes into no machine in the middle of a run. -/
def Request.Orderly : Request → Prop
  | .load _ => False
  | _ => True

namespace Machine

variable {m : Machine}

/-! ## §1. Truth. -/

/-- Says that what the status tells of the machine is so. -/
structure Truthful (m : Machine) : Prop where
  /-- A waiting machine stands at the instruction that waits. -/
  waiting : ∀ x, m.status = .waiting x → ∃ w, m.Fetches w ∧ Instruction.decode w = .takeKey x
  /-- A stopped machine still offends as it did. -/
  stopped : ∀ cause, m.status = .stopped cause → m.Offends cause

/-- A machine that runs has nothing to be untrue about. -/
theorem Truthful.of_running (h : m.status = .running) : m.Truthful where
  waiting := by
    intro x hx
    rw [h] at hx
    cases hx
  stopped := by
    intro cause hc
    rw [h] at hc
    cases hc

/-- Whether a machine offends lies in its registers, its memory, its stack and the choices of the
    host. -/
theorem Offends.of_parts {after : Machine} {cause : Fault} (h : m.Offends cause)
    (registers : after.registers = m.registers) (memory : after.memory = m.memory)
    (stack : after.stack = m.stack) (config : after.config = m.config) : after.Offends cause := by
  unfold Offends Fetches at h ⊢
  rwa [registers, memory, stack, config]

theorem Truthful.of_parts (h : m.Truthful) {after : Machine}
    (registers : after.registers = m.registers) (memory : after.memory = m.memory)
    (stack : after.stack = m.stack) (config : after.config = m.config)
    (status : after.status = m.status) : after.Truthful where
  waiting := by
    intro x hx
    obtain ⟨w, hf, hd⟩ := h.waiting x (status.symm.trans hx)
    exact ⟨w, hf.of_parts (congrArg Registers.pc registers) memory, hd⟩
  stopped := by
    intro cause hc
    exact (h.stopped cause (status.symm.trans hc)).of_parts registers memory stack config

/-! ## §2. A step keeps the status true. -/

/-- Only an instruction that waits, and only while it holds on, leaves a machine waiting. -/
theorem settledStatus_eq_waiting_iff {i : Instruction} {flow : Flow} {x : Register} :
    settledStatus i flow = .waiting x ↔ i = .takeKey x ∧ flow = .hold := by
  unfold settledStatus
  split
  · simp
  · rename_i h
    constructor
    · intro hx
      cases hx
    · intro h'
      obtain ⟨hi, hf⟩ := h'
      exact absurd hf (h x hi)

theorem settledStatus_ne_stopped {i : Instruction} {flow : Flow} {cause : Fault} :
    settledStatus i flow ≠ .stopped cause := by
  unfold settledStatus
  split
  · intro h
    cases h
  · intro h
    cases h

/-- A step is a fault exactly if the machine behind it is stopped, by this step or before it. -/
theorem outcome_eq_fault_iff_status {s : Stepped} (h : m.step = .ok s) {cause : Fault} :
    s.outcome = .fault cause ↔ s.machine.status = .stopped cause := by
  rcases step_cases h with ⟨cause', hs, rfl⟩ | ⟨live, cause', hw, rfl⟩ | ⟨live, w, hw, hd⟩
  · rw [hs, Outcome.fault.injEq, Status.stopped.injEq]
  · rw [stop, Outcome.fault.injEq, Status.stopped.injEq]
  · rcases dispatch_cases hd with ⟨flow, _, rfl⟩ | ⟨cause', _, rfl⟩
    · rw [outcome_settle, machine_settle]
      exact iff_of_false (settledOutcome_ne_fault _ _ _) settledStatus_ne_stopped
    · rw [stop, Outcome.fault.injEq, Status.stopped.injEq]

/-- A machine that stopped at an offence is stopped truthfully. -/
theorem Truthful.of_offends {cause : Fault} (h : m.Offends cause) :
    ({ m with status := .stopped cause } : Machine).Truthful where
  waiting := by
    intro x hx
    cases hx
  stopped := by
    intro cause' hc
    cases hc
    exact h.of_parts rfl rfl rfl rfl

/-- A step keeps the status true. -/
theorem Truthful.step (hm : m.WellShaped) (ht : m.Truthful) {s : Stepped} (h : m.step = .ok s) :
    s.machine.Truthful := by
  cases stepsTo_of_step hm h with
  | stopped cause status => exact ht
  | unfetched live outside => exact .of_offends (.inl outside)
  | refused live w d cause fetches demand refusal =>
    exact .of_offends (offends_iff.mpr (.inr ⟨w, d, fetches, demand, refusal⟩))
  | completed live w flow after fetches granted performs shaped kept =>
    rw [machine_settle]
    constructor
    · intro x hx
      obtain ⟨hi, rfl⟩ := settledStatus_eq_waiting_iff.mp hx
      -- The instruction held on, so neither the program counter nor the memory moved.
      rw [hi] at performs
      obtain rfl := eq_of_takeKey_hold performs
      exact ⟨w, fetches.of_parts rfl rfl, hi⟩
    · intro cause hc
      exact absurd hc settledStatus_ne_stopped

/-! ## §3. Stepping once more. -/

/-- An offence is exactly what the machine, set running, stops at. -/
theorem offends_iff_step_fault (hm : m.WellShaped) (cause : Fault) :
    m.Offends cause ↔
      ∃ s, ({ m with status := .running } : Machine).step = .ok s ∧ s.outcome = .fault cause := by
  have hr : ({ m with status := .running } : Machine).WellShaped :=
    hm.of_parts rfl hm.regular hm.depth_le
  obtain ⟨s, h, hs⟩ := exists_step hr
  -- To offend is blind to the status, so the running machine offends exactly if this one does.
  have hiff := outcome_eq_fault_iff rfl hs cause
  constructor
  · intro ho
    exact ⟨s, h, hiff.mpr (ho.of_parts rfl rfl rfl rfl)⟩
  · intro h'
    obtain ⟨s', h', hc⟩ := h'
    rw [h, Except.ok.injEq] at h'
    rw [← h'] at hc
    exact (hiff.mp hc).of_parts rfl rfl rfl rfl

/-! ## §4. Whole runs. -/

/-- Every machine of a run without loads has a true status. -/
theorem Reachable.truthful (h : Reachable Request.Orderly m) : m.Truthful := by
  -- Fresh machines run, with or without an image; a load is the one request that the run leaves out.
  refine h.preserves ?_ ?_ ?_ ?_ ?_ ?_
  · intro config
    exact .of_running rfl
  · intro config image
    exact .of_running rfl
  · intro m s hm ht hs
    exact ht.step hm hs
  · intro m ht
    exact ht.of_parts rfl rfl rfl rfl rfl
  · intro m key held ht
    exact ht.of_parts rfl rfl rfl rfl rfl
  · intro m image may
    exact may.elim

/-- The status never lies.  A machine of a run without loads that waits stands, inside memory, at the
    instruction that waits for its register; one that is stopped still offends as the status says, which
    is never for an image; and to offend is to stop again for the same reason once set running. -/
theorem status_truthful (h : Reachable Request.Orderly m) :
    (∀ x, m.status = .waiting x →
      m.registers.pc.toNat ≤ 0xFFE ∧ ∃ w, m.Fetches w ∧ Instruction.decode w = .takeKey x) ∧
    (∀ cause, m.status = .stopped cause → cause ≠ .imageTooLarge ∧ m.Offends cause) ∧
    ∀ cause, m.Offends cause ↔
      ∃ s, ({ m with status := .running } : Machine).step = .ok s ∧ s.outcome = .fault cause := by
  have ht := h.truthful
  refine ⟨?_, ?_, offends_iff_step_fault h.wellShaped⟩
  · intro x hx
    obtain ⟨w, hf, hd⟩ := ht.waiting x hx
    have hlt := hf.1
    rw [Memory.capacity] at hlt
    exact ⟨by omega, w, hf, hd⟩
  · intro cause hc
    have ho := ht.stopped cause hc
    exact ⟨ho.ne_imageTooLarge, ho⟩

/-- A program that begins with a return is stopped by its first step, and rightly so. -/
theorem status_truthful_emptyReturn :
    ∃ m, Reachable Request.Orderly m ∧ m.status = .stopped .stackUnderflow ∧
      m.Offends .stackUnderflow := by
  have hn := wellShaped_new .standard
  have hm := hn.withImage [0x00, 0xEE]
  have hf := fetches_withImage hn.size_memory rfl 0x00 0xEE []
  obtain ⟨s, h, hs⟩ := exists_step hm
  have ho : ((new .standard).withImage [0x00, 0xEE]).Offends .stackUnderflow := ⟨hf, rfl, rfl⟩
  have hmachine := machine_of_fault hs ((outcome_eq_fault_iff rfl hs _).mpr ho)
  have hstart : Reachable Request.Orderly ((new .standard).withImage [0x00, 0xEE]) :=
    .made (show ofImage .standard _ = _ from load_of_le hn.size_memory (by decide))
  have hr : Reachable Request.Orderly s.machine := hstart.stepped trivial h
  have hstatus : s.machine.status = .stopped .stackUnderflow := by rw [hmachine]
  exact ⟨s.machine, hr, hstatus, ((status_truthful hr).2.1 _ hstatus).2⟩

end Machine

end Chip8
