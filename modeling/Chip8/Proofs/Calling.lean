/-
  Chip8.Proofs.Calling — calls and returns match.

  A call puts its address behind the open ones, and its return takes the last one away.  What happens in
  between may call and return as it likes: while at least as many calls stay open as there were behind the
  call, none of the addresses up to there is touched, neither by a pop, which would go below, nor by a
  push, which writes above.  So the return that closes the call comes back behind it, and finds the calls
  open that were open before.

  Main statements: `prefix_of_continues` (one instruction), `Within.keeps_frames` (runs) and
  `return_after_call`.
-/
import Chip8.Proofs.Continuing

namespace Chip8

open Instruction

namespace Machine

variable {m : Machine}

/-! ## §1. Runs above a depth. -/

/-- The machines that steps, counts of the timers and keys lead to while so many calls stay open.  Only a
    step can change how many there are. -/
inductive Within (floor : Nat) (m : Machine) : Machine → Prop where
  | start : Within floor m m
  | step {later : Machine} {s : Stepped} (before : Within floor m later) (step : later.step = .ok s)
    (deep : floor ≤ s.machine.stack.depth) : Within floor m s.machine
  | countDown {later : Machine} (before : Within floor m later) : Within floor m later.countDown
  | setKey {later : Machine} (before : Within floor m later) (key : UInt8) (held : Bool) :
    Within floor m (later.setKey key held)

theorem Within.wellShaped (hm : m.WellShaped) {floor : Nat} {later : Machine}
    (h : Within floor m later) : later.WellShaped := by
  induction h with
  | start => exact hm
  | step before step deep ih => exact ih.step step
  | countDown before ih => exact ih.of_parts rfl ih.regular ih.depth_le
  | setKey before key held ih => exact ih.of_parts rfl ih.regular ih.depth_le

/-! ## §2. The lower calls are untouched. -/

/-- An instruction that leaves the lowest calls open leaves their addresses as they were. -/
theorem prefix_of_continues {i : Instruction} {flow : Flow} {stack : CallStack}
    (h : m.Continues i flow stack) {base : List UInt16} (hb : base <+: m.stack.frames)
    (deep : base.length ≤ stack.frames.length) : base <+: stack.frames := by
  cases h with
  | called nnn push =>
    rw [CallStack.frames_push push]
    exact hb.trans (List.prefix_append _ _)
  | returned pop =>
    -- What is left behind the pop is a prefix of the same addresses, and no shorter.
    rw [CallStack.frames_pop pop] at hb
    exact List.prefix_of_prefix_length_le hb (List.prefix_append _ _) deep
  | _ => exact hb

theorem prefix_of_step (hm : m.WellShaped) {s : Stepped} (h : m.step = .ok s) {base : List UInt16}
    (hb : base <+: m.stack.frames) (deep : base.length ≤ s.machine.stack.depth) :
    base <+: s.machine.stack.frames := by
  rcases continues_of_step hm h with ⟨_, _, _, hs⟩ | ⟨w, flow, _, _, hc, _⟩
  · rwa [hs]
  · rw [← CallStack.length_frames (hm.step h).depth_le] at deep
    exact prefix_of_continues hc hb deep

/-- While so many calls stay open, their addresses stay as they were. -/
theorem Within.keeps_frames (hm : m.WellShaped) {base : List UInt16} (hb : base <+: m.stack.frames)
    {later : Machine} (h : Within base.length m later) : base <+: later.stack.frames := by
  induction h with
  | start => exact hb
  | step before step deep ih => exact prefix_of_step (before.wellShaped hm) step ih deep
  | countDown before ih => exact ih
  | setKey before key held ih => exact ih

/-! ## §3. A call and its return. -/

/-- An instruction that retires went one of its ways. -/
theorem continues_of_retired (hm : m.WellShaped) {s : Stepped} (h : m.step = .ok s)
    {i : Instruction} (ho : s.outcome = .retired i) :
    ∃ flow, m.Continues i flow s.machine.stack ∧
      s.machine.registers.pc = flow.apply m.registers.pc := by
  rcases continues_of_step hm h with ⟨cause, hf, _⟩ | ⟨w, flow, _, hs, hc, hpc⟩
  · rw [ho] at hf
    cases hf
  · obtain rfl := eq_of_settledOutcome (hs.symm.trans ho)
    exact ⟨flow, hc, hpc⟩

/-- A call puts the address where it stands behind the others. -/
theorem frames_of_call (hm : m.WellShaped) {s : Stepped} (h : m.step = .ok s) {nnn : UInt16}
    (ho : s.outcome = .retired (.call nnn)) :
    s.machine.stack.frames = m.stack.frames ++ [m.registers.pc] := by
  obtain ⟨flow, hc, _⟩ := continues_of_retired hm h ho
  generalize s.machine.stack = stack at hc
  cases hc with
  | onward stays => cases stays
  | called nnn push => exact CallStack.frames_push push

/-- A return takes the last address away and continues behind it. -/
theorem frames_of_return (hm : m.WellShaped) {s : Stepped} (h : m.step = .ok s)
    (ho : s.outcome = .retired .returnFromCall) {base : List UInt16} {address : UInt16}
    (hf : m.stack.frames = base ++ [address]) :
    s.machine.stack.frames = base ∧ s.machine.registers.pc = address + 2 := by
  obtain ⟨flow, hc, hpc⟩ := continues_of_retired hm h ho
  generalize s.machine.stack = stack at hc
  cases hc with
  | onward stays => cases stays
  | returned pop =>
    have heq := (CallStack.frames_pop pop).symm.trans hf
    obtain ⟨hbase, rfl⟩ := List.append_singleton_inj.mp heq
    exact ⟨hbase, hpc⟩
  | restarted depth choice =>
    rw [CallStack.frames_of_depth depth] at hf
    exact absurd hf.symm (List.append_ne_nil_of_right_ne_nil _ (List.cons_ne_nil _ _))

/-- Calls and returns match over whole runs.  Let a machine of a run call, and let steps, counts
    of the timers and keys follow, whatever they do, behind each of which the call is still open.  If a
    return is then made with no more calls open than there were behind that call, it continues at the
    instruction after the call, and the calls that are open are those that were open before it, in the
    same order. -/
theorem return_after_call {allowed : Request → Prop} (hr : Reachable allowed m) :
    ∃ s, m.step = .ok s ∧ ∀ nnn, s.outcome = .retired (.call nnn) →
      s.machine.stack.depth = m.stack.depth + 1 ∧
      ∀ later, Within (m.stack.depth + 1) s.machine later →
        ∃ t, later.step = .ok t ∧
          (t.outcome = .retired .returnFromCall → later.stack.depth = m.stack.depth + 1 →
            t.machine.registers.pc.toNat = m.registers.pc.toNat + 2 ∧
              t.machine.stack.frames = m.stack.frames) := by
  have hm := hr.wellShaped
  obtain ⟨s, hs, _⟩ := exists_step hm
  refine ⟨s, hs, ?_⟩
  intro nnn ho
  have hsm := hm.step hs
  have hframes := frames_of_call hm hs ho
  have hdepth : s.machine.stack.depth = m.stack.depth + 1 := by
    rw [← CallStack.length_frames hsm.depth_le, hframes, List.length_append,
      CallStack.length_frames hm.depth_le]
    rfl
  refine ⟨hdepth, ?_⟩
  intro later hw
  have hl := hw.wellShaped hsm
  obtain ⟨t, ht, _⟩ := exists_step hl
  refine ⟨t, ht, ?_⟩
  intro hreturn hlevel
  -- The addresses at the call are still the lowest ones, and at this depth there are no others.
  have hlength : s.machine.stack.frames.length = m.stack.depth + 1 := by
    rw [CallStack.length_frames hsm.depth_le, hdepth]
  have hkept : s.machine.stack.frames <+: later.stack.frames :=
    (hlength ▸ hw).keeps_frames hsm (List.prefix_refl _)
  have hsame : later.stack.frames = m.stack.frames ++ [m.registers.pc] := by
    rw [← hframes]
    refine (hkept.eq_of_length ?_).symm
    rw [hlength, CallStack.length_frames hl.depth_le, hlevel]
  obtain ⟨hbase, hpc⟩ := frames_of_return hl ht hreturn hsame
  refine ⟨?_, hbase⟩
  rw [hpc]
  exact hr.bounded.unwrapped.advance

/-- A subroutine that calls another one, which returns, and then returns itself. -/
theorem return_after_call_nested :
    ∃ m s later t, Reachable (fun _ => True) m ∧ m.step = .ok s ∧
      s.outcome = .retired (.call 0x204) ∧ Within (m.stack.depth + 1) s.machine later ∧
      later.step = .ok t ∧ t.outcome = .retired .returnFromCall ∧
      later.stack.depth = m.stack.depth + 1 ∧
      t.machine.registers.pc.toNat = m.registers.pc.toNat + 2 ∧
      t.machine.stack.frames = m.stack.frames := by
  have hr : Reachable (fun _ => True) ((new .standard).withImage
      [0x22, 0x04, 0x00, 0x00, 0x22, 0x08, 0x00, 0xEE, 0x00, 0xEE]) :=
    .made (ofImage_of_le _ (by decide))
  have hrun : (((new .standard).withImage
      [0x22, 0x04, 0x00, 0x00, 0x22, 0x08, 0x00, 0xEE, 0x00, 0xEE]).step.bind fun s =>
      s.machine.step.bind fun a => a.machine.step.bind fun b => b.machine.countDown.step.map fun t =>
        (s.outcome, a.machine.stack.depth, b.machine.stack.depth, t.outcome)) =
          .ok (.retired (.call 0x204), 2, 1, .retired .returnFromCall) := by
    decide +kernel
  obtain ⟨s, hs, hcall⟩ := return_after_call hr
  have hsm := hr.wellShaped.step hs
  obtain ⟨a, ha, _⟩ := exists_step hsm
  obtain ⟨b, hb, _⟩ := exists_step (hsm.step ha)
  simp only [hs, ha, hb, Except.bind, Except.map] at hrun
  split at hrun
  · cases hrun
  rename_i t ht
  simp only [Except.ok.injEq, Prod.mk.injEq] at hrun
  obtain ⟨ho, hda, hdb, hot⟩ := hrun
  have hw : Within 1 s.machine b.machine.countDown :=
    .countDown (.step (.step .start ha (by omega)) hb (by omega))
  obtain ⟨_, hmatch⟩ := hcall _ ho
  obtain ⟨t', ht', hreturn⟩ := hmatch _ hw
  obtain rfl := Except.ok.inj (ht.symm.trans ht')
  obtain ⟨hpc, hframes⟩ := hreturn hot hdb
  exact ⟨_, s, _, t, hr, hs, ho, hw, ht, hot, hdb, hpc, hframes⟩

end Machine

end Chip8
