/-
  Chip8.Proofs.Faults — when a step is a fault, with which code, and what it leaves behind.

  `Offends` says of a machine, without running it, that the instruction at hand is at fault: it looks at
  the program counter, the digits of the word there, the index register, the depth of the stack and the
  choice of the host.  A live machine's step is a fault exactly if the machine offends, the code is the
  one it offends with, and nothing but the status changes.

  Main statements: `offends_iff` (offences are failed fetches and refused demands),
  `outcome_eq_fault_iff` (a step is a fault exactly if the machine offends) and `step_fault_exact`.
-/
import Chip8.Proofs.Loading
import Chip8.Proofs.Stepping

namespace Chip8

namespace Machine

variable {m : Machine}

/-! ## §1. Offences. -/

/-- Says that the instruction at hand is at fault, and with which code. -/
def Offends (m : Machine) : Fault → Prop
  | .stackUnderflow =>
    m.Fetches 0x00EE ∧ m.stack.depth = 0 ∧ m.config.emptyReturn = .fault
  | .stackOverflow => ∃ w, m.Fetches w ∧ w.family = 0x2 ∧ m.stack.depth = CallStack.capacity
  | .addressOutOfBounds =>
    Memory.capacity ≤ m.registers.pc.toNat + 1 ∨
      ∃ w count, m.Fetches w ∧ w.reach? = some count ∧
        Memory.capacity < m.registers.i.toNat + count
  | .imageTooLarge => False

/-- A machine offends if and only if there is nothing to fetch or it refuses what the word demands. -/
theorem offends_iff {cause : Fault} :
    m.Offends cause ↔
      (Memory.capacity ≤ m.registers.pc.toNat + 1 ∧ cause = .addressOutOfBounds) ∨
        ∃ w d, m.Fetches w ∧ w.demand? = some d ∧ m.refusal? d = some cause := by
  constructor
  · intro h
    cases cause with
    | stackUnderflow =>
      obtain ⟨hf, h0, he⟩ := h
      exact .inr ⟨_, _, hf, demand?_eq_openCall_iff.mpr rfl,
        refusal?_openCall_iff.mpr ⟨⟨h0, he⟩, rfl⟩⟩
    | stackOverflow =>
      obtain ⟨w, hf, hw, hd⟩ := h
      exact .inr ⟨_, _, hf, demand?_eq_freeSlot_iff.mpr hw, refusal?_freeSlot_iff.mpr ⟨hd, rfl⟩⟩
    -- The one code that a fetch and a demand share.
    | addressOutOfBounds =>
      rcases h with h | ⟨w, count, hf, hw, hlt⟩
      · exact .inl ⟨h, rfl⟩
      · exact .inr ⟨_, _, hf, demand?_eq_bytes_iff.mpr hw, refusal?_bytes_iff.mpr ⟨hlt, rfl⟩⟩
    | imageTooLarge => exact h.elim
  · intro h
    rcases h with ⟨h, rfl⟩ | ⟨w, d, hf, hd, hr⟩
    · exact .inl h
    · cases d with
      | openCall =>
        obtain ⟨⟨h0, he⟩, rfl⟩ := refusal?_openCall_iff.mp hr
        rw [demand?_eq_openCall_iff.mp hd] at hf
        exact ⟨hf, h0, he⟩
      | freeSlot =>
        obtain ⟨hfull, rfl⟩ := refusal?_freeSlot_iff.mp hr
        exact ⟨w, hf, demand?_eq_freeSlot_iff.mp hd, hfull⟩
      | bytes count =>
        obtain ⟨hlt, rfl⟩ := refusal?_bytes_iff.mp hr
        exact .inr ⟨w, count, hf, demand?_eq_bytes_iff.mp hd, hlt⟩

/-- A machine at a word that demands nothing does not offend. -/
theorem not_offends_of_demand {w : Word} (hf : m.Fetches w) (hw : w.demand? = none) (cause : Fault) :
    ¬m.Offends cause := by
  intro ho
  rcases offends_iff.mp ho with ⟨hle, _⟩ | ⟨w', d, hf', hd, _⟩
  · exact absurd hf.1 (Nat.not_lt.mpr hle)
  · rw [hf'.unique hf, hw] at hd
    cases hd

/-- Only loading an image has a fault of its own. -/
theorem Offends.ne_imageTooLarge {cause : Fault} (h : m.Offends cause) :
    cause ≠ .imageTooLarge := by
  intro hc
  rw [hc] at h
  exact h

/-- A machine offends with one code at most. -/
theorem Offends.unique {cause cause' : Fault} (h : m.Offends cause) (h' : m.Offends cause') :
    cause = cause' := by
  rcases offends_iff.mp h with ⟨ho, rfl⟩ | ⟨w, d, hf, hd, hr⟩
  · rcases offends_iff.mp h' with ⟨_, rfl⟩ | ⟨w', d', hf', _, _⟩
    · rfl
    · exact absurd hf'.1 (Nat.not_lt.mpr ho)
  · rcases offends_iff.mp h' with ⟨ho, _⟩ | ⟨w', d', hf', hd', hr'⟩
    · exact absurd hf.1 (Nat.not_lt.mpr ho)
    · rw [← hf.unique hf', hd, Option.some.injEq] at hd'
      rw [← hd', hr, Option.some.injEq] at hr'
      exact hr'

/-! ## §2. Faults are offences. -/

/-- A live machine's step is a fault exactly if the machine offends. -/
theorem outcome_eq_fault_iff (live : m.status.stoppedBy = none) {s : Stepped} (h : m.StepsTo s)
    (cause : Fault) : s.outcome = .fault cause ↔ m.Offends cause := by
  cases h with
  | stopped cause' status =>
    rw [stoppedBy_eq_some_iff.mpr status] at live
    cases live
  | unfetched _ outside =>
    have ho : m.Offends .addressOutOfBounds := .inl outside
    show Outcome.fault .addressOutOfBounds = .fault cause ↔ _
    rw [Outcome.fault.injEq]
    exact ⟨fun hc => hc ▸ ho, ho.unique⟩
  | refused _ w d cause' fetches demand refusal =>
    have ho : m.Offends cause' := offends_iff.mpr (.inr ⟨w, d, fetches, demand, refusal⟩)
    show Outcome.fault cause' = .fault cause ↔ _
    rw [Outcome.fault.injEq]
    exact ⟨fun hc => hc ▸ ho, ho.unique⟩
  | completed _ w flow after fetches granted performs shaped kept =>
    constructor
    · intro hc
      rw [outcome_settle] at hc
      exact absurd hc (settledOutcome_ne_fault _ _ _)
    -- Both ways to offend are closed: the word was fetched and its demand granted.
    · intro ho
      rcases offends_iff.mp ho with ⟨ho, _⟩ | ⟨w', d, hf, hd, hr⟩
      · exact absurd fetches.1 (Nat.not_lt.mpr ho)
      · rw [hf.unique fetches] at hd
        rw [granted d hd] at hr
        cases hr

/-- A fault of a live machine changes its status and nothing else. -/
theorem machine_of_fault {s : Stepped} (h : m.StepsTo s) {cause : Fault}
    (hf : s.outcome = .fault cause) : s.machine = { m with status := .stopped cause } := by
  cases h with
  | stopped cause' status =>
    cases hf
    rw [← status]
  | unfetched _ outside =>
    cases hf
    rfl
  | refused _ w d cause' fetches demand refusal =>
    cases hf
    rfl
  | completed _ w flow after fetches granted performs shaped kept =>
    rw [outcome_settle] at hf
    exact absurd hf (settledOutcome_ne_fault _ _ _)

theorem stoppedBy_eq_none_iff {status : Status} :
    status.stoppedBy = none ↔ ∀ cause, status ≠ .stopped cause := by
  cases status <;> simp [Status.stoppedBy]

/-- Faults are exact and atomic: the step of a machine that is not stopped is a fault exactly when the
    machine offends, with the code that it offends with, which is never the one of an image; and then
    every part of the machine but the status is as it was. -/
theorem step_fault_exact (hm : m.WellShaped) (live : ∀ cause, m.status ≠ .stopped cause) :
    ∃ s, m.step = .ok s ∧
      (∀ cause, s.outcome = .fault cause ↔ m.Offends cause) ∧
      s.outcome ≠ .fault .imageTooLarge ∧
      ∀ cause, s.outcome = .fault cause → s.machine = { m with status := .stopped cause } := by
  obtain ⟨s, h, hs⟩ := exists_step hm
  have hl := stoppedBy_eq_none_iff.mpr live
  refine ⟨s, h, outcome_eq_fault_iff hl hs, ?_, fun cause => machine_of_fault hs⟩
  intro hc
  exact ((outcome_eq_fault_iff hl hs _).mp hc).ne_imageTooLarge rfl

/-- A sprite of no rows at an address past memory is a fault all the same. -/
theorem step_fault_emptySprite :
    let m := ((new .standard).withImage [0xD0, 0x00]).setI 0x1001
    m.WellShaped ∧ (∀ cause, m.status ≠ .stopped cause) ∧
      ∃ s, m.step = .ok s ∧ s.outcome = .fault .addressOutOfBounds ∧
        s.machine = { m with status := .stopped .addressOutOfBounds } := by
  intro m
  have hn := wellShaped_new .standard
  have hm : m.WellShaped := (hn.withImage _).withRegisters _
  have live : ∀ cause, m.status ≠ .stopped cause := by
    intro cause hc
    cases hc
  have hf : m.Fetches 0xD000 :=
    (fetches_withImage hn.size_memory rfl 0xD0 0x00 []).setI 0x1001
  have ho : m.Offends .addressOutOfBounds := .inr ⟨_, 0, hf, rfl, by decide⟩
  obtain ⟨s, h, hiff, _, hmachine⟩ := step_fault_exact hm live
  have hs := (hiff _).mpr ho
  exact ⟨hm, live, s, h, hs, hmachine _ hs⟩

end Machine

end Chip8
