/-
  Chip8.Proofs.Stepping — everything that one step can do.

  A step of a well-shaped machine ends in one of four ways, and `StepsTo` lists them: the machine was
  stopped before, the fetch ran past memory, the instruction was refused, or it completed.  Statements
  about steps are proved by going through the four, and none of them opens the step itself.  Of a machine
  of any shape `step_cases` says less, but enough for what does not depend on the shape.

  Main statements: `step_cases` (what a step of any machine is), `exists_step` (a step of a well-shaped one
  succeeds and ends in one of the four ways), `WellShaped.step` (a step keeps the shape) and `config_step`
  (and the choices of the host).
-/
import Chip8.Machine.Step
import Chip8.Proofs.Performing

namespace Chip8

namespace Machine

variable {m : Machine}

/-! ## §1. Fetching. -/

/-- Says that a word stands at the program counter, with both bytes inside the address space. -/
def Fetches (m : Machine) (w : Word) : Prop :=
  m.registers.pc.toNat + 1 < Memory.capacity ∧
    ∃ high low, m.memory[m.registers.pc.toNat]? = some high ∧
      m.memory[m.registers.pc.toNat + 1]? = some low ∧ w = Word.ofBytes high low

/-- At most one word stands at the program counter. -/
theorem Fetches.unique {w w' : Word} (h : m.Fetches w) (h' : m.Fetches w') : w = w' := by
  obtain ⟨_, high, low, hh, hl, rfl⟩ := h
  obtain ⟨_, high', low', hh', hl', rfl⟩ := h'
  rw [hh, Option.some.injEq] at hh'
  rw [hl, Option.some.injEq] at hl'
  rw [hh', hl']

/-- The word at the program counter lies in the program counter and the memory alone. -/
theorem Fetches.of_parts {after : Machine} {w : Word} (h : m.Fetches w)
    (pc : after.registers.pc = m.registers.pc) (memory : after.memory = m.memory) :
    after.Fetches w := by
  rw [Fetches, pc, memory]
  exact h

theorem Fetches.setI {w : Word} (h : m.Fetches w) (value : UInt16) : (m.setI value).Fetches w :=
  h.of_parts rfl rfl

/-- A full memory has a word at every program counter inside it. -/
theorem exists_fetches (full : m.memory.size = Memory.capacity)
    (h : m.registers.pc.toNat + 1 < Memory.capacity) : ∃ w, m.Fetches w := by
  have hh : m.registers.pc.toNat < m.memory.size := by omega
  have hl : m.registers.pc.toNat + 1 < m.memory.size := by omega
  exact ⟨_, h, _, _, Array.getElem?_eq_getElem hh, Array.getElem?_eq_getElem hl, rfl⟩

/-- The word that stands at the program counter is read. -/
theorem Fetches.readWord {w : Word} (h : m.Fetches w) :
    Memory.readWord m.memory m.registers.pc = .ok w := by
  obtain ⟨hlt, high, low, hh, hl, rfl⟩ := h
  have hs := Memory.span_of_le
    (show m.registers.pc.toNat + Memory.instructionSize ≤ Memory.capacity from hlt)
  simp only [Memory.readWord, hs, Span.ofLe, hh, hl]

theorem readWord_of_le (h : Memory.capacity ≤ m.registers.pc.toNat + 1) :
    Memory.readWord m.memory m.registers.pc = .error .addressOutOfBounds := by
  have hs := Memory.span_of_lt
    (show Memory.capacity < m.registers.pc.toNat + Memory.instructionSize from Nat.lt_succ_of_le h)
  simp only [Memory.readWord, hs]

/-! ## §2. Steps of any machine. -/

theorem stoppedBy_eq_some_iff {status : Status} {cause : Fault} :
    status.stoppedBy = some cause ↔ status = .stopped cause := by
  cases status <;> simp [Status.stoppedBy]

/-- What a step comes to that carries out an instruction read from a word. -/
def dispatch (m : Machine) (word : Word) (instruction : Instruction) : Except Breach Stepped :=
  let effect := m.perform instruction
  match effect.result with
  | .ok flow => .ok (m.settle effect.machine instruction flow (m.startEvents word))
  | .error (.fault cause) => .ok (effect.machine.stop m.registers.pc cause (m.startEvents word))
  | .error (.breach breach) => .error breach

/-- A step that reads a word carries out its instruction. -/
theorem step_of_readWord (live : m.status.stoppedBy = none) {w : Word}
    (h : Memory.readWord m.memory m.registers.pc = .ok w) :
    m.step = m.dispatch w (Instruction.decode w) := by
  simp only [step, live, h]
  rfl

theorem step_of_readWord_error (live : m.status.stoppedBy = none) {cause : Fault}
    (h : Memory.readWord m.memory m.registers.pc = .error cause) :
    m.step = .ok (m.stop m.registers.pc cause []) := by
  simp only [step, live, h]

/-- The instruction that the next step carries out: there is one if the machine is not stopped and has a
    word to carry out. -/
def current? (m : Machine) : Option Instruction :=
  match m.status.stoppedBy, Memory.readWord m.memory m.registers.pc with
  | none, .ok word => some (Instruction.decode word)
  | _, _ => none

theorem current?_of_readWord (live : m.status.stoppedBy = none) {w : Word}
    (h : Memory.readWord m.memory m.registers.pc = .ok w) :
    m.current? = some (Instruction.decode w) := by
  simp only [current?, live, h]

theorem current?_of_stopped {cause : Fault} (h : m.status = .stopped cause) : m.current? = none := by
  simp only [current?, h, Status.stoppedBy]

theorem current?_of_readWord_error {cause : Fault}
    (h : Memory.readWord m.memory m.registers.pc = .error cause) : m.current? = none := by
  unfold current?
  split
  · rename_i hw
    cases hw.symm.trans h
  · rfl

/-- A step that gives anything was stopped before it, could not fetch, or carried out an instruction. -/
theorem step_cases {s : Stepped} (h : m.step = .ok s) :
    (∃ cause, m.status = .stopped cause ∧ s = { outcome := .fault cause, events := [], machine := m }) ∨
    (m.status.stoppedBy = none ∧ ∃ cause, Memory.readWord m.memory m.registers.pc = .error cause ∧
      s = m.stop m.registers.pc cause []) ∨
    (m.status.stoppedBy = none ∧ ∃ w, Memory.readWord m.memory m.registers.pc = .ok w ∧
      m.dispatch w (Instruction.decode w) = .ok s) := by
  rcases hl : m.status.stoppedBy with _ | cause
  · rcases hw : Memory.readWord m.memory m.registers.pc with cause | w
    · rw [step_of_readWord_error hl hw, Except.ok.injEq] at h
      exact .inr (.inl ⟨rfl, cause, rfl, h.symm⟩)
    · rw [step_of_readWord hl hw] at h
      exact .inr (.inr ⟨rfl, w, rfl, h⟩)
  · have hs := stoppedBy_eq_some_iff.mp hl
    rw [step_of_stopped hs, Except.ok.injEq] at h
    exact .inl ⟨cause, hs, h.symm⟩

/-- An instruction that is carried out is settled, or it stops the machine. -/
theorem dispatch_cases {w : Word} {i : Instruction} {s : Stepped} (h : m.dispatch w i = .ok s) :
    (∃ flow, (m.perform i).result = .ok flow ∧
      s = m.settle (m.perform i).machine i flow (m.startEvents w)) ∨
    (∃ cause, (m.perform i).result = .error (.fault cause) ∧
      s = (m.perform i).machine.stop m.registers.pc cause (m.startEvents w)) := by
  simp only [dispatch] at h
  split at h
  · rename_i flow hr
    exact .inl ⟨flow, hr, (Except.ok.inj h).symm⟩
  · rename_i cause hr
    exact .inr ⟨cause, hr, (Except.ok.inj h).symm⟩
  · cases h

/-! ## §3. The ways a step of a well-shaped machine ends. -/

/-- The ways a step ends. -/
inductive StepsTo (m : Machine) : Stepped → Prop where
  /-- The machine was stopped before. -/
  | stopped (cause : Fault) (status : m.status = .stopped cause) :
    StepsTo m { outcome := .fault cause, events := [], machine := m }
  /-- The fetch ran past memory. -/
  | unfetched (live : m.status.stoppedBy = none)
    (outside : Memory.capacity ≤ m.registers.pc.toNat + 1) :
    StepsTo m (m.stop m.registers.pc .addressOutOfBounds [])
  /-- The machine refused what the instruction demanded. -/
  | refused (live : m.status.stoppedBy = none) (w : Word) (d : Demand) (cause : Fault)
    (fetches : m.Fetches w) (demand : w.demand? = some d) (refusal : m.refusal? d = some cause) :
    StepsTo m (m.stop m.registers.pc cause (m.startEvents w))
  /-- The instruction completed. -/
  | completed (live : m.status.stoppedBy = none) (w : Word) (flow : Flow) (after : Machine)
    (fetches : m.Fetches w) (granted : ∀ d, w.demand? = some d → m.refusal? d = none)
    (performs : m.perform (Instruction.decode w) = after.done flow) (shaped : after.WellShaped)
    (kept : m.Kept after) :
    StepsTo m (m.settle after (Instruction.decode w) flow (m.startEvents w))

/-- A step whose instruction completes is settled. -/
theorem step_of_done (live : m.status.stoppedBy = none) {w : Word} (hf : m.Fetches w) {flow : Flow}
    {after : Machine} (hp : m.perform (Instruction.decode w) = after.done flow) :
    m.step = .ok (m.settle after (Instruction.decode w) flow (m.startEvents w)) := by
  rw [step_of_readWord live hf.readWord, dispatch, hp]
  rfl

/-- A step that has a word to carry out is refused or completes. -/
theorem step_of_fetches (hm : m.WellShaped) (live : m.status.stoppedBy = none) {w : Word}
    (hf : m.Fetches w) : ∃ s, m.step = .ok s ∧ m.StepsTo s := by
  rcases refused_or_granted m (Instruction.decode w) with ⟨d, cause, hd, hc⟩ | hg
  · have hp := perform_of_refusal? hd hc
    refine ⟨_, ?_, .refused live w d cause hf ((demand?_decode w).symm.trans hd) hc⟩
    rw [step_of_readWord live hf.readWord, dispatch, hp]
    rfl
  · obtain ⟨flow, after, hp, hs⟩ := perform_of_granted hm hg
    have hk : m.Kept after := by
      have := kept_perform m (Instruction.decode w)
      rwa [hp] at this
    rw [demand?_decode] at hg
    exact ⟨_, step_of_done live hf hp, .completed live w flow after hf hg hp hs hk⟩

/-- A step of a well-shaped machine succeeds and ends in one of the four ways. -/
theorem exists_step (hm : m.WellShaped) : ∃ s, m.step = .ok s ∧ m.StepsTo s := by
  -- The checks of a step in their order: the status, the fetch, the demand.
  rcases hl : m.status.stoppedBy with _ | cause
  · rcases Nat.lt_or_ge (m.registers.pc.toNat + 1) Memory.capacity with hlt | hge
    · obtain ⟨w, hf⟩ := exists_fetches hm.size_memory hlt
      exact step_of_fetches hm hl hf
    · exact ⟨_, step_of_readWord_error hl (readWord_of_le hge), .unfetched hl hge⟩
  · have hs := stoppedBy_eq_some_iff.mp hl
    exact ⟨_, step_of_stopped hs, .stopped cause hs⟩

/-- Whatever a step of a well-shaped machine gives is one of the four ways to end. -/
theorem stepsTo_of_step (hm : m.WellShaped) {s : Stepped} (h : m.step = .ok s) : m.StepsTo s := by
  obtain ⟨s', h', hs⟩ := exists_step hm
  rw [h, Except.ok.injEq] at h'
  rwa [h']

/-! ## §4. The end of an instruction that completes. -/

/-- The status behind an instruction that completed. -/
def settledStatus : Instruction → Flow → Status
  | .takeKey x, .hold => .waiting x
  | _, _ => .running

/-- The outcome of an instruction that completed. -/
def settledOutcome : Instruction → Flow → Outcome
  | .unknown word, _ => .skippedUnknown word
  | .takeKey x, .hold => .waiting x
  | i, _ => .retired i

/-- An instruction that completed hands its machine on with the program counter moved. -/
theorem machine_settle (m after : Machine) (i : Instruction) (flow : Flow) (earlier : List Event) :
    (m.settle after i flow earlier).machine =
      { after with registers := { after.registers with pc := flow.apply m.registers.pc },
                   status := settledStatus i flow } := by
  unfold settle
  split
  · rfl
  · rfl
  -- Neither an unknown word nor a wait that goes on, so the machine runs.
  · rename_i hu ht
    have hs : settledStatus i flow = .running := by
      unfold settledStatus
      split
      · exact (ht _ rfl rfl).elim
      · rfl
    rw [hs]

/-- An instruction that is neither an unknown word nor a wait that goes on retires. -/
theorem settledOutcome_eq_retired {i : Instruction} {flow : Flow}
    (hu : ∀ word, i = .unknown word → False) (ht : ∀ x, i = .takeKey x → flow = .hold → False) :
    settledOutcome i flow = .retired i := by
  unfold settledOutcome
  split
  · exact (hu _ rfl).elim
  · exact (ht _ rfl rfl).elim
  · rfl

theorem outcome_settle (m after : Machine) (i : Instruction) (flow : Flow)
    (earlier : List Event) :
    (m.settle after i flow earlier).outcome = settledOutcome i flow := by
  unfold settle
  split
  · rfl
  · rfl
  · rename_i hu ht
    exact (settledOutcome_eq_retired hu ht).symm

/-- An instruction that completed is no fault. -/
theorem isFault_settledOutcome (i : Instruction) (flow : Flow) :
    (settledOutcome i flow).isFault = false := by
  unfold settledOutcome
  split <;> rfl

theorem settledOutcome_ne_fault (i : Instruction) (flow : Flow) (cause : Fault) :
    settledOutcome i flow ≠ .fault cause := by
  intro h
  have hf := isFault_settledOutcome i flow
  rw [h] at hf
  cases hf

/-- An instruction that retires is the one that completed. -/
theorem eq_of_settledOutcome {i j : Instruction} {flow : Flow}
    (h : settledOutcome i flow = .retired j) : i = j := by
  unfold settledOutcome at h
  split at h
  · cases h
  · cases h
  · exact Outcome.retired.inj h

/-- Only a word outside the table is passed over. -/
theorem settledOutcome_eq_skippedUnknown_iff {i : Instruction} {flow : Flow} {word : Word} :
    settledOutcome i flow = .skippedUnknown word ↔ i = .unknown word := by
  constructor
  · intro h
    unfold settledOutcome at h
    split at h
    · rw [Outcome.skippedUnknown.inj h]
    · cases h
    · cases h
  · intro h
    rw [h]
    rfl

/-- An instruction that waits is one that takes a key. -/
theorem eq_takeKey_of_settledOutcome {i : Instruction} {flow : Flow} {x : Register}
    (h : settledOutcome i flow = .waiting x) : i = .takeKey x := by
  unfold settledOutcome at h
  split at h
  · cases h
  · rw [Outcome.waiting.inj h]
  · cases h

/-- A step that has a word to carry out comes to the end of its instruction, unless the word demands
    something. -/
theorem StepsTo.exists_flow {s : Stepped} (h : m.StepsTo s) (live : m.status.stoppedBy = none) {w : Word}
    (hf : m.Fetches w) (hw : w.demand? = none) :
    ∃ flow, s.outcome = settledOutcome (Instruction.decode w) flow := by
  cases h with
  | stopped cause status =>
    rw [stoppedBy_eq_some_iff.mpr status] at live
    cases live
  | unfetched _ outside => exact absurd hf.1 (Nat.not_lt.mpr outside)
  | refused _ w' d cause fetches demand refusal =>
    rw [fetches.unique hf, hw] at demand
    cases demand
  | completed _ w' flow after fetches granted performs shaped kept =>
    rw [fetches.unique hf]
    exact ⟨flow, outcome_settle ..⟩

/-! ## §5. What a step keeps. -/

/-- A step keeps the shape of the machine. -/
theorem WellShaped.step (hm : m.WellShaped) {s : Stepped} (h : m.step = .ok s) :
    s.machine.WellShaped := by
  cases stepsTo_of_step hm h with
  | stopped cause status => exact hm
  | unfetched live outside => exact hm.of_parts rfl hm.regular hm.depth_le
  | refused live w d cause fetches demand refusal => exact hm.of_parts rfl hm.regular hm.depth_le
  | completed live w flow after fetches granted performs shaped kept =>
    rw [machine_settle]
    exact shaped.of_parts rfl shaped.regular shaped.depth_le

/-- A step keeps the choices of the host. -/
theorem config_step {s : Stepped} (h : m.step = .ok s) : s.machine.config = m.config := by
  rcases step_cases h with ⟨cause, _, rfl⟩ | ⟨_, cause, _, rfl⟩ | ⟨_, w, _, hd⟩
  · rfl
  · rfl
  · have hk := (kept_perform m (Instruction.decode w)).config
    rcases dispatch_cases hd with ⟨flow, _, rfl⟩ | ⟨cause, _, rfl⟩
    · rw [machine_settle]
      exact hk
    · exact hk

end Machine

end Chip8
