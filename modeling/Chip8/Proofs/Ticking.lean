/-
  Chip8.Proofs.Ticking — a tick that ends early leaves what it would leave if it went on.

  A tick gives up its budget at the first fault.  Nothing is lost by that: the fault stops the machine, and
  a stopped machine answers every further step with the same fault, does nothing and tells nothing.  So a
  tick is a run of as many steps as the budget allows, whatever they come to, and a count of the timers
  behind it; only the report shows where the tick stopped.  `upToFault` cuts the outcomes of such a run off
  where the tick does.

  Main statements: `burst_eq_run` and `tick_eq_run` (machines of any shape), `exists_turns_steps` (pages) and
  `early_stop_invisible` (both).
-/
import Chip8.Machine.Run
import Chip8.Proofs.Announcing
import Chip8.Proofs.Status

namespace Chip8

/-! ## §1. Outcomes up to a fault. -/

/-- The outcomes up to the first fault and with it, or all of them if there is none. -/
def upToFault : List Outcome → List Outcome
  | [] => []
  | o :: os => if o.isFault then [o] else o :: upToFault os

theorem upToFault_cons {o : Outcome} (h : o.isFault = false) (os : List Outcome) :
    upToFault (o :: os) = o :: upToFault os := by
  rw [upToFault, if_neg (Bool.not_eq_true _ ▸ h)]

theorem upToFault_of_calm {os : List Outcome} (h : ∀ o ∈ os, o.isFault = false) : upToFault os = os := by
  induction os with
  | nil => rfl
  | cons o os ih =>
    obtain ⟨ho, hos⟩ := List.forall_mem_cons.mp h
    rw [upToFault_cons ho, ih hos]

theorem upToFault_append_fault {before : List Outcome} (h : ∀ o ∈ before, o.isFault = false)
    (cause : Fault) (after : List Outcome) :
    upToFault (before ++ .fault cause :: after) = before ++ [.fault cause] := by
  induction before with
  | nil => rfl
  | cons o os ih =>
    obtain ⟨ho, hos⟩ := List.forall_mem_cons.mp h
    rw [List.cons_append, upToFault_cons ho, ih hos, List.cons_append]

/-! ## §2. Runs step by step. -/

/-- What a run gives whose first step is this one. -/
def Stepped.followedBy (s : Stepped) (r : Ran) : Ran :=
  { outcomes := s.outcome :: r.outcomes, events := s.events ++ r.events, machine := r.machine }

namespace Machine

variable {m : Machine}

theorem runFrom_succ {s : Stepped} (h : m.step = .ok s) (outcomes : Array Outcome)
    (events : Array Event) (count : Nat) :
    runFrom outcomes events m (count + 1) =
      runFrom (outcomes.push s.outcome) (events ++ s.events) s.machine count := by
  simp only [runFrom, h]

theorem runFrom_succ_of_error {breach : Breach} (h : m.step = .error breach) (outcomes : Array Outcome)
    (events : Array Event) (count : Nat) :
    runFrom outcomes events m (count + 1) = .error breach := by
  simp only [runFrom, h]

theorem run_succ_of_error {breach : Breach} (h : m.step = .error breach) (count : Nat) :
    m.run (count + 1) = .error breach := by
  rw [run, runFrom_succ_of_error h]

/-- To put the events of a list behind others is to make an array of them first. -/
theorem append_eq_append_toArray (events : Array Event) (es : List Event) :
    events ++ es = events ++ es.toArray := by
  apply Array.toList_inj.mp
  rw [Array.toList_appendList, Array.toList_append]

/-- The outcomes and events that a run starts with stand in front of its own. -/
theorem runFrom_eq (count : Nat) :
    ∀ (m : Machine) (outcomes : Array Outcome) (events : Array Event),
      runFrom outcomes events m count = (m.run count).map fun r =>
        (outcomes ++ r.outcomes.toArray, events ++ r.events.toArray, r.machine) := by
  induction count with
  | zero =>
    intro m outcomes events
    simp only [runFrom, run, Except.map, Array.append_empty]
  | succ count ih =>
    intro m outcomes events
    rcases hs : m.step with breach | s
    · rw [runFrom_succ_of_error hs, run_succ_of_error hs, Except.map]
    · rw [run, runFrom_succ hs, runFrom_succ hs, ih, ih]
      rcases s.machine.run count with breach | r
      · rfl
      · simp [Except.map, append_eq_append_toArray]

/-- A run is its first step and the run behind that. -/
theorem run_succ {s : Stepped} (h : m.step = .ok s) (count : Nat) :
    m.run (count + 1) = (s.machine.run count).map s.followedBy := by
  rw [run, runFrom_succ h, runFrom_eq]
  rcases s.machine.run count with breach | r
  · rfl
  · simp [Except.map, Stepped.followedBy]

/-- A stopped machine answers every step of a run with its fault, and nothing else comes of the run. -/
theorem run_of_stopped {cause : Fault} (h : m.status = .stopped cause) (count : Nat) :
    m.run count = .ok { outcomes := List.replicate count (.fault cause), events := [], machine := m } := by
  induction count with
  | zero => rfl
  | succ count ih =>
    rw [run_succ (step_of_stopped h), ih]
    rfl

/-- A run of a well-shaped machine succeeds and has an outcome for each step. -/
theorem exists_ran (count : Nat) :
    ∀ {m : Machine}, m.WellShaped → ∃ r, m.run count = .ok r ∧ r.outcomes.length = count := by
  induction count with
  | zero =>
    intro m _
    exact ⟨_, rfl, rfl⟩
  | succ count ih =>
    intro m hm
    obtain ⟨s, hs, _⟩ := exists_step hm
    obtain ⟨r, hr, hlength⟩ := ih (hm.step hs)
    refine ⟨s.followedBy r, ?_, congrArg (· + 1) hlength⟩
    rw [run_succ hs, hr]
    rfl

/-- The last outcome up to a fault is the last of the whole run. -/
theorem getLast?_upToFault (count : Nat) :
    ∀ {m : Machine} {r : Ran}, m.run count = .ok r →
      (upToFault r.outcomes).getLast? = r.outcomes.getLast? := by
  induction count with
  | zero =>
    intro m r h
    cases h
    rfl
  | succ count ih =>
    intro m r h
    rcases hs : m.step with breach | s
    · rw [run_succ_of_error hs] at h
      cases h
    · rw [run_succ hs] at h
      obtain ⟨rest, hrest, rfl⟩ := exists_of_map_eq_ok h
      have hlast := ih hrest
      show (upToFault (s.outcome :: rest.outcomes)).getLast? = (s.outcome :: rest.outcomes).getLast?
      cases ho : s.outcome with
      -- Behind a fault there is only the same fault, so it is also the last.
      | fault cause =>
        rw [run_of_stopped ((outcome_eq_fault_iff_status hs).mp ho), Except.ok.injEq] at hrest
        rw [← hrest, ← List.replicate_succ, List.getLast?_replicate]
        rfl
      | _ =>
        show (_ :: upToFault rest.outcomes).getLast? = _
        rw [List.getLast?_cons, List.getLast?_cons, hlast]

/-! ## §3. Bursts and ticks. -/

/-- A burst is a run of as many steps as its budget, but it counts only those up to a fault. -/
theorem burst_eq_run (budget : Nat) :
    ∀ (m : Machine) (report : TickReport) (events : Array Event),
      burst report events m budget = (m.run budget).map fun r =>
        (report.counting (upToFault r.outcomes), events ++ r.events.toArray, r.machine) := by
  induction budget with
  | zero =>
    intro m report events
    simp only [burst, run, runFrom, Except.map, Array.append_empty]
    rfl
  | succ budget ih =>
    intro m report events
    rcases hs : m.step with breach | s
    · rw [burst, hs, run_succ_of_error hs]
      rfl
    · rw [run_succ hs]
      simp only [burst, hs]
      cases ho : s.outcome with
      -- The burst ends here, and the run goes on with a stopped machine.
      | fault cause =>
        rw [run_of_stopped ((outcome_eq_fault_iff_status hs).mp ho)]
        simp only [Except.map, Stepped.followedBy, ho, List.append_nil, append_eq_append_toArray]
        rfl
      | _ =>
        simp only [Outcome.isFault, Bool.false_eq_true, if_false, ih]
        rcases s.machine.run budget with breach | r
        · rfl
        · simp only [Except.map, Stepped.followedBy, ho, upToFault, Outcome.isFault,
            Bool.false_eq_true, if_false, TickReport.counting_cons, append_eq_append_toArray,
            Array.append_assoc, List.append_toArray]

/-- A tick is a run of as many steps as its budget and a count of the timers, and it reports the outcomes up
    to a fault. -/
theorem tick_eq_run (m : Machine) :
    m.tick = (m.run m.config.stepsPerTick.toNat).map fun r =>
      { report := { steps := (upToFault r.outcomes).length
                    finalStep := (upToFault r.outcomes).getLast? }
        events := r.events, machine := r.machine.countDown } := by
  rw [tick, burst_eq_run]
  rcases m.run m.config.stepsPerTick.toNat with breach | r
  · rfl
  · simp only [Except.map, TickReport.counting, Nat.zero_add, Option.or_none, Array.empty_append]

end Machine

/-! ## §4. Frames. -/

namespace Page

/-- Steps asked for one by one are a run of the machine, and write the lines of its events. -/
theorem exists_turns_steps (count : Nat) (visits : List Visit) :
    ∀ {p : Page} {r : Ran}, p.machine.run count = .ok r →
      ∃ ts, written ts = Console.linesOf r.events ∧ p.behind ts = { machine := r.machine } ∧
        p.turns (List.replicate count (.call .step) ++ visits) =
          (({ machine := r.machine } : Page).turns visits).map (ts ++ ·) := by
  induction count with
  | zero =>
    intro p r h
    cases h
    refine ⟨[], rfl, rfl, ?_⟩
    show p.turns visits = (p.turns visits).map id
    rcases p.turns visits with breach | ts <;> rfl
  | succ count ih =>
    intro p r h
    rcases hs : p.machine.step with breach | s
    · rw [Machine.run_succ_of_error hs] at h
      cases h
    · rw [Machine.run_succ hs] at h
      obtain ⟨rest, hrest, rfl⟩ := Machine.exists_of_map_eq_ok h
      obtain ⟨reply, hvisit, hl, hp⟩ : ∃ reply, p.visit (.call .step) = .ok reply ∧
          reply.lines = Console.linesOf s.events ∧ reply.page = { machine := s.machine } := by
        simp [visit, call, step, hs, Except.map]
      obtain ⟨ts, hlines, hbehind, hturns⟩ := ih (p := { machine := s.machine }) hrest
      refine ⟨⟨p, .call .step, reply⟩ :: ts, ?_, ?_, ?_⟩
      · show reply.lines ++ written ts = Console.linesOf (s.events ++ rest.events)
        rw [hl, hlines, Console.linesOf_append]
      · show reply.page.behind ts = _
        rw [hp, hbehind]
        rfl
      · show p.turns (.call .step :: (List.replicate count (.call .step) ++ visits)) = _
        simp only [turns, hvisit, hp, hturns, Stepped.followedBy]
        rcases ({ machine := rest.machine } : Page).turns visits with breach | later <;> rfl

/-- A frame leaves the page and writes the lines that its steps and a count of the timers do. -/
theorem exists_turns_frame {p : Page} (hp : p.machine.WellShaped) :
    ∃ reply ts, p.call .frame = .ok reply ∧
      p.turns (List.replicate p.machine.config.stepsPerTick.toNat (.call .step) ++
        [.call .countDown]) = .ok ts ∧
      p.behind ts = reply.page ∧ written ts = reply.lines := by
  obtain ⟨r, hr, _⟩ := Machine.exists_ran p.machine.config.stepsPerTick.toNat hp
  obtain ⟨ts, hlines, hbehind, hturns⟩ := exists_turns_steps _ [.call .countDown] hr
  obtain ⟨t, hframe, hpage, hl⟩ : ∃ reply, p.call .frame = .ok reply ∧
      reply.page = { machine := r.machine.countDown } ∧ reply.lines = Console.linesOf r.events := by
    simp [call, frame, p.machine.tick_eq_run, hr, Except.map]
  obtain ⟨last, hlast, hlastPage, hlastLines⟩ : ∃ turn,
      ({ machine := r.machine } : Page).turns [.call .countDown] = .ok [turn] ∧
        turn.reply.page = { machine := r.machine.countDown } ∧ turn.reply.lines = [] :=
    ⟨_, rfl, rfl, rfl⟩
  rw [hlast] at hturns
  refine ⟨t, ts ++ [last], hframe, hturns, ?_, ?_⟩
  · rw [behind_append, hbehind]
    exact hlastPage.trans hpage.symm
  · rw [written, List.flatMap_append, List.flatMap_singleton, hlastLines, List.append_nil, hl]
    exact hlines

end Page

/-! ## §5. The early stop. -/

/-- Says of the report of a tick that it tells the outcomes of a run as far as the tick went: as many as there
    are up to the first fault, with that fault as the final one, or all of them if there is none. -/
structure TickReport.Covers (report : TickReport) (outcomes : List Outcome) : Prop where
  stopped : ∀ before cause after, outcomes = before ++ .fault cause :: after →
    (∀ o ∈ before, o.isFault = false) →
      report.steps = before.length + 1 ∧ report.finalStep = some (.fault cause)
  full : (∀ o ∈ outcomes, o.isFault = false) → report.steps = outcomes.length
  last : report.finalStep = outcomes.getLast?

theorem covers_upToFault {outcomes : List Outcome}
    (hlast : (upToFault outcomes).getLast? = outcomes.getLast?) :
    TickReport.Covers
      { steps := (upToFault outcomes).length, finalStep := (upToFault outcomes).getLast? } outcomes where
  stopped := by
    intro before cause after hparts calm
    rw [hparts, upToFault_append_fault calm]
    exact ⟨List.length_append, List.getLast?_concat⟩
  full := by
    intro calm
    rw [upToFault_of_calm calm]
  last := hlast

/-- The early stop of a tick cannot be seen in the machine.  A tick of a well-shaped machine, stopped or not
    and with any budget, leaves the machine and tells the events of as many steps as the budget allows, made
    whatever they come to, and of one count of the timers.  Its report has the number of the first step that
    is a fault, or of all steps if none is, and the outcome of that step; this is also the outcome of the
    last of all steps, and there is none exactly if the budget is nothing.  Hence on a page, whatever visits
    were paid to it, a frame leaves the page and writes the lines of ten steps and a count of the timers. -/
theorem early_stop_invisible :
    (∀ m : Machine, m.WellShaped →
      ∃ r t, m.run m.config.stepsPerTick.toNat = .ok r ∧
        r.outcomes.length = m.config.stepsPerTick.toNat ∧
        m.tick = .ok t ∧ t.machine = r.machine.countDown ∧ t.events = r.events ∧
        t.report.Covers r.outcomes ∧ (t.report.finalStep = none ↔ m.config.stepsPerTick = 0)) ∧
    ∀ (seed : UInt64) (visits : List Page.Visit),
      ∃ ts reply ts', (Page.withSeed seed).turns visits = .ok ts ∧
        ((Page.withSeed seed).behind ts).call .frame = .ok reply ∧
        ((Page.withSeed seed).behind ts).turns
          (List.replicate 10 (.call .step) ++ [.call .countDown]) = .ok ts' ∧
        ((Page.withSeed seed).behind ts).behind ts' = reply.page ∧ Page.written ts' = reply.lines := by
  constructor
  · intro m hm
    obtain ⟨r, hr, hlength⟩ := Machine.exists_ran m.config.stepsPerTick.toNat hm
    have htick := m.tick_eq_run
    rw [hr] at htick
    have hcovers := covers_upToFault (Machine.getLast?_upToFault _ hr)
    refine ⟨r, _, hr, hlength, htick, rfl, rfl, hcovers, ?_⟩
    rw [hcovers.last, List.getLast?_eq_none_iff, ← List.length_eq_zero_iff, hlength]
    exact UInt32.toNat_inj (b := 0)
  · intro seed visits
    have hi : (Page.withSeed seed).machine.Intact (Page.withSeed seed).machine :=
      (Page.wellShaped_withSeed seed).intact
    obtain ⟨ts, hts, hv⟩ := Page.exists_turns visits hi.shaped
    have hp := hv.intact hi
    have hbudget : ((Page.withSeed seed).behind ts).machine.config.stepsPerTick.toNat = 10 := by
      rw [hp.config]
      rfl
    obtain ⟨reply, ts', hframe, hsteps, hpage, hlines⟩ := Page.exists_turns_frame hp.shaped
    rw [hbudget] at hsteps
    exact ⟨ts, reply, ts', hts, hframe, hsteps, hpage, hlines⟩

/-- A program passes over a word and returns with no call open, on a machine and then on a page. -/
theorem early_stop_invisible_returned :
    let image : List UInt8 := [0x80, 0x08, 0x00, 0xEE]
    let m := (Machine.new .standard).withImage image
    m.WellShaped ∧
      (∃ r t, m.run m.config.stepsPerTick.toNat = .ok r ∧ m.tick = .ok t ∧
        r.outcomes = .skippedUnknown 0x8008 :: List.replicate 9 (.fault .stackUnderflow) ∧
        t.machine = r.machine.countDown ∧ t.report.steps = 2 ∧
        t.report.finalStep = some (.fault .stackUnderflow)) ∧
      ∃ ts reply ts', (Page.withSeed 7).turns [.call (.loadImage image)] = .ok ts ∧
        ((Page.withSeed 7).behind ts).call .frame = .ok reply ∧
        ((Page.withSeed 7).behind ts).turns
          (List.replicate 10 (.call .step) ++ [.call .countDown]) = .ok ts' ∧
        ((Page.withSeed 7).behind ts).behind ts' = reply.page ∧
        reply.lines = [.skipped 0x200 0x8008, .faulted .stackUnderflow 0x202] := by
  intro image m
  have hm : m.WellShaped := (Machine.wellShaped_new .standard).withImage _
  obtain ⟨hmachines, hpages⟩ := early_stop_invisible
  obtain ⟨r, t, hr, _, ht, hmachine, _, hcovers, _⟩ := hmachines m hm
  obtain ⟨ts, reply, ts', hts, hframe, hsteps, hpage, hlines⟩ := hpages 7 [.call (.loadImage image)]
  have hrun : (m.run m.config.stepsPerTick.toNat).map Ran.outcomes =
      .ok (.skippedUnknown 0x8008 :: List.replicate 9 (.fault .stackUnderflow)) := by
    decide +kernel
  have hvisits : (((Page.withSeed 7).turns [.call (.loadImage image)]).bind fun ts =>
      ((Page.withSeed 7).behind ts).turns
        (List.replicate 10 (.call .step) ++ [.call .countDown])).map Page.written =
        .ok [.skipped 0x200 0x8008, .faulted .stackUnderflow 0x202] := by
    decide +kernel
  simp only [hr, Except.map, Except.ok.injEq] at hrun
  simp only [hts, Except.bind, hsteps, Except.map, Except.ok.injEq] at hvisits
  obtain ⟨hcount, hfinal⟩ :=
    hcovers.stopped [.skippedUnknown 0x8008] .stackUnderflow
      (List.replicate 8 (.fault .stackUnderflow)) hrun (by decide)
  exact ⟨hm, ⟨r, t, hr, ht, hrun, hmachine, hcount, hfinal⟩,
    ts, reply, ts', hts, hframe, hsteps, hpage, hlines.symm.trans hvisits⟩

end Chip8
