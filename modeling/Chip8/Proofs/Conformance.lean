/-
  Chip8.Proofs.Conformance — the machine does what the table says.

  A step that is no fault is a step of the reference, and a run without faults is a run of it: what the
  steps come to is of the same kind, and the machine behind them has the view of the reference's state.
  Since the view determines the machine, the two agree in every part, also in those that nothing shows,
  such as the slots of the call stack that are not in use.

  Main statements: `view_step` (steps), `exists_follow` (runs) and `step_conforms` (both).
-/
import Chip8.Proofs.Faults
import Chip8.Proofs.Meaning

namespace Chip8

open Reference

/-- The kind of an outcome; a fault has none. -/
def Outcome.kind? : Outcome → Option Kind
  | .retired _ => some .retired
  | .waiting _ => some .waiting
  | .skippedUnknown _ => some .unknown
  | .fault _ => none

/-- An outcome without a kind is a fault, and no other is. -/
theorem Outcome.kind?_eq_none_iff {outcome : Outcome} :
    outcome.kind? = none ↔ ∃ cause, outcome = .fault cause := by
  cases outcome <;> simp [Outcome.kind?]

/-- A word that draws asks for no more rows than the screen has. -/
theorem height_of_decode {w : Word} {x y : Register} {n : UInt8}
    (h : Instruction.decode w = .draw x y n) : n.toNat ≤ Framebuffer.height := by
  have hd := demand?_decode w
  rw [h] at hd
  have hr := reach?_le (demand?_eq_bytes_iff.mp hd.symm)
  exact Nat.le_trans hr (by decide)

namespace Machine

variable {m : Machine}

/-! ## §1. Steps. -/

/-- The word that the reference reads is the one that the machine fetches. -/
theorem view_word {w : Word} (h : m.Fetches w) : m.view.word = w.toNat := by
  obtain ⟨_, high, low, hh, hl, rfl⟩ := h
  have hhigh := high.toNat_lt
  have hlow := low.toNat_lt
  have hvh : m.view.memory m.view.pc = high.toNat := view_memory hh
  have hvl : m.view.memory (m.view.pc + 1) = low.toNat := view_memory hl
  rw [State.word, hvh, hvl, Word.ofBytes, UInt16.toNat_ofNat']
  omega

theorem kind?_settledOutcome (i : Instruction) (flow : Flow) :
    (settledOutcome i flow).kind? = some (settledKind i flow) := by
  unfold settledOutcome
  split
  · rfl
  · rfl
  · rename_i hu ht
    unfold settledKind
    split
    · exact (hu _ rfl).elim
    · exact (ht _ rfl rfl).elim
    · rfl

/-- A step that is no fault is a step of the reference. -/
theorem view_step (hm : m.WellShaped) {s : Stepped} (h : m.step = .ok s)
    (hf : s.outcome.kind? ≠ none) :
    s.outcome.kind? = some m.view.step.1 ∧ s.machine.view = m.view.step.2 := by
  cases stepsTo_of_step hm h with
  | stopped cause status => exact absurd rfl hf
  | unfetched live outside => exact absurd rfl hf
  | refused live w d cause fetches demand refusal => exact absurd rfl hf
  -- Only a completed instruction is no fault: word, instruction and machine agree in its meaning.
  | completed live w flow after fetches granted performs shaped kept =>
    rw [← demand?_decode] at granted
    have hmean := meaning_of_perform hm (fun _ _ _ => height_of_decode) granted performs
    rw [State.step, view_word fetches, table_eq_meaning, hmean, outcome_settle, machine_settle]
    exact ⟨kind?_settledOutcome _ _, rfl⟩

/-! ## §2. Runs. -/

/-- What the steps of a run come to, and the machine behind it. -/
def follow (m : Machine) : List Action → Except Breach (List Outcome × Machine)
  | [] => .ok ([], m)
  | .step :: actions =>
    match m.step with
    | .error breach => .error breach
    | .ok s => (s.machine.follow actions).map fun rest => (s.outcome :: rest.1, rest.2)
  | .countDown :: actions => m.countDown.follow actions
  | .setKey key held :: actions => (m.setKey key held).follow actions

/-- A run succeeds, and one without faults is a run of the reference. -/
theorem exists_follow (actions : List Action) :
    ∀ {m : Machine}, m.WellShaped →
      ∃ outcomes after, m.follow actions = .ok (outcomes, after) ∧ after.WellShaped ∧
        ((∀ o ∈ outcomes, o.kind? ≠ none) →
          outcomes.map Outcome.kind? = (m.view.run actions).1.map some ∧
            after.view = (m.view.run actions).2) := by
  induction actions with
  | nil =>
    intro m hm
    exact ⟨[], m, rfl, hm, fun _ => ⟨rfl, rfl⟩⟩
  | cons action actions ih =>
    intro m hm
    cases action with
    | step =>
      obtain ⟨s, hs, _⟩ := exists_step hm
      obtain ⟨outcomes, after, hfollow, ha, hrun⟩ := ih (hm.step hs)
      refine ⟨s.outcome :: outcomes, after, by simp only [follow, hs, hfollow, Except.map], ha, ?_⟩
      intro hno
      -- The rest of the run starts from the view that the reference's step leaves.
      obtain ⟨hk, hv⟩ := view_step hm hs (hno _ List.mem_cons_self)
      rw [hv] at hrun
      obtain ⟨hks, hvs⟩ := hrun fun o ho => hno o (List.mem_cons_of_mem _ ho)
      exact ⟨by rw [List.map_cons, hk, hks]; rfl, hvs⟩
    | countDown =>
      have hc : m.countDown.WellShaped := hm.of_parts rfl hm.regular hm.depth_le
      obtain ⟨outcomes, after, hfollow, ha, hrun⟩ := ih hc
      rw [view_countDown] at hrun
      exact ⟨outcomes, after, hfollow, ha, hrun⟩
    | setKey key held =>
      have hk : (m.setKey key held).WellShaped := hm.of_parts rfl hm.regular hm.depth_le
      obtain ⟨outcomes, after, hfollow, ha, hrun⟩ := ih hk
      rw [view_setKey] at hrun
      exact ⟨outcomes, after, hfollow, ha, hrun⟩

/-- The machine conforms to the table.  From a well-shaped machine, a step that is no fault is of the kind
    that the reference gives and leaves the view that the reference leaves, and so does every run of steps,
    counts of the timers and keys that meets no fault; and there is but one well-shaped machine of a view. -/
theorem step_conforms (hm : m.WellShaped) :
    (∃ s, m.step = .ok s ∧ s.machine.WellShaped ∧
      ((∀ cause, s.outcome ≠ .fault cause) →
        s.outcome.kind? = some m.view.step.1 ∧ s.machine.view = m.view.step.2)) ∧
    (∀ actions, ∃ outcomes after, m.follow actions = .ok (outcomes, after) ∧ after.WellShaped ∧
      ((∀ o ∈ outcomes, ∀ cause, o ≠ .fault cause) →
        outcomes.map Outcome.kind? = (m.view.run actions).1.map some ∧
          after.view = (m.view.run actions).2)) ∧
    ∀ m' : Machine, m'.WellShaped → m'.view = m.view → m' = m := by
  have hno : ∀ {o : Outcome}, (∀ cause, o ≠ .fault cause) → o.kind? ≠ none := by
    intro o ho hk
    obtain ⟨cause, hc⟩ := Outcome.kind?_eq_none_iff.mp hk
    exact ho cause hc
  refine ⟨?_, ?_, fun m' hm' hv => view_inj hm' hm hv⟩
  · obtain ⟨s, h, _⟩ := exists_step hm
    exact ⟨s, h, hm.step h, fun ho => view_step hm h (hno ho)⟩
  · intro actions
    obtain ⟨outcomes, after, h, ha, hrun⟩ := exists_follow actions hm
    exact ⟨outcomes, after, h, ha, fun ho => hrun fun o hmem => hno (ho o hmem)⟩

/-- The first step of a program that loads a constant. -/
theorem step_conforms_loadByte :
    let m := (new .standard).withImage [0x60, 0x05]
    m.WellShaped ∧ ∃ s, m.step = .ok s ∧ (∀ cause, s.outcome ≠ .fault cause) ∧
      s.outcome.kind? = some .retired ∧ s.machine.view.v 0 = 5 := by
  intro m
  have hn := wellShaped_new .standard
  have hm : m.WellShaped := hn.withImage _
  have hf : m.Fetches 0x6005 := fetches_withImage hn.size_memory rfl 0x60 0x05 []
  obtain ⟨s, h, _, hconforms⟩ := (step_conforms hm).1
  have hno : ∀ cause, s.outcome ≠ .fault cause := by
    intro cause hc
    exact not_offends_of_demand hf rfl cause
      ((outcome_eq_fault_iff rfl (stepsTo_of_step hm h) cause).mp hc)
  have hstep : m.view.step = (m.view.setV 0 5).next := by
    rw [State.step, view_word hf]
    rfl
  obtain ⟨hk, hv⟩ := hconforms hno
  rw [hstep] at hk hv
  refine ⟨hm, s, h, hno, hk, ?_⟩
  rw [hv]
  rfl

end Machine

end Chip8
