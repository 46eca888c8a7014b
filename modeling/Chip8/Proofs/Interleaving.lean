/-
  Chip8.Proofs.Interleaving — counts of the timers may stand anywhere among steps.

  Three instructions have to do with the timers.  A step at any other neither looks at them nor writes to
  them, so it comes to the same before a count and behind it; and that is so too of a step that is a fault,
  that waits or that finds the machine stopped.  Counts can therefore be moved past steps one by one until
  all of them stand at the end, and what a schedule comes to depends on nothing but how many of either it
  has.

  Main statements: `step_countDown` (a count passes a step), `deedsAll_countDown` (and steps in a row),
  `exists_deedsAll_interleaved` (schedules) and `counts_interleave`.
-/
import Chip8.Proofs.Chronicling
import Chip8.Proofs.Surroundings

namespace Chip8

/-- Says whether an instruction reads or writes a timer. -/
def Instruction.usesTimers : Instruction → Bool
  | .getDelay _ | .setDelay _ | .setSound _ => true
  | _ => false

/-- Says whether the deed is a step at such an instruction. -/
def Deed.usesTimers (d : Deed) : Bool := d.instruction?.any Instruction.usesTimers

namespace Machine

variable {m : Machine}

/-! ## §1. A count passes a step. -/

/-- To an instruction that does not use the timers, all timers look alike. -/
theorem looksAlike_timers {i : Instruction} (untimed : i.usesTimers = false) (timers : Timers) :
    m.LooksAlike { m.surroundings with timers } i := by
  cases i
  case getDelay => cases untimed
  case returnFromCall => exact fun _ => rfl
  case random | skipHeld | skipNotHeld | takeKey => rfl
  all_goals trivial

/-- Such an instruction hands timers on as they are. -/
theorem behind_timers {i : Instruction} (untimed : i.usesTimers = false) (s : Surroundings)
    (timers : Timers) : ({ s with timers } : Surroundings).behind m i = { s.behind m i with timers } := by
  cases i
  case setDelay | setSound => cases untimed
  all_goals rfl

/-- A step that does not use the timers hands them on as they are. -/
theorem stepSurroundings_timers (untimed : ∀ i, m.current? = some i → i.usesTimers = false)
    (s : Surroundings) (timers : Timers) :
    m.stepSurroundings { s with timers } = { m.stepSurroundings s with timers } := by
  unfold stepSurroundings
  rcases hi : m.current? with _ | i
  · rfl
  · exact behind_timers (untimed i hi) s timers

/-- A count passes a step that does not use the timers. -/
theorem step_countDown {s : Stepped} (h : m.step = .ok s) (untimed : (m.stepDeed s).usesTimers = false) :
    m.countDown.step = .ok { s with machine := s.machine.countDown } := by
  have huntimed : ∀ i, m.current? = some i → i.usesTimers = false :=
    (Option.any_eq_false _ _).mp untimed
  obtain ⟨s', hs', houtcome, hmachine⟩ := exists_step_amid
    (s := { m.surroundings with timers := m.timers.tick })
    (fun i hi => looksAlike_timers (huntimed i hi) _) h
  -- What the step makes of the surroundings it makes of them with the timers a count further on.
  have htimers : s.machine.timers = m.timers := by
    have hown := stepSurroundings_timers huntimed m.surroundings m.timers
    exact congrArg Surroundings.timers ((surroundings_of_step h).trans hown)
  have hcounted : s'.machine = s.machine.countDown := by
    rw [hmachine, stepSurroundings_timers huntimed, ← surroundings_of_step h, ← htimers]
    rfl
  have hevents : s'.events = s.events := by
    rw [events_of_step hs', events_of_step h, houtcome]
    rfl
  rw [← hcounted, ← hevents, ← houtcome]
  exact hs'

/-! ## §2. Schedules. -/

/-- A count passes steps in a row that do not use the timers. -/
theorem deedsAll_countDown (n : Nat) :
    ∀ {m : Machine} {ds : List Deed}, m.deedsAll (List.replicate n .step) = .ok ds →
      (∀ d ∈ ds, d.usesTimers = false) →
        m.countDown.deedsAll (List.replicate n .step) = .ok (ds.map (Deed.through countDown)) := by
  induction n with
  | zero =>
    intro m ds h _
    cases h
    rfl
  | succ n ih =>
    intro m ds h untimed
    rw [List.replicate_succ] at h ⊢
    obtain ⟨s, rest, hs, hrest, rfl⟩ := exists_step_of_deedsAll h
    obtain ⟨hfirst, hothers⟩ := List.forall_mem_cons.mp untimed
    rw [deedsAll_step (step_countDown hs hfirst), ih hrest hothers]
    rfl

/-- Steps among counts come to what the steps alone come to, and the counts behind them. -/
theorem exists_deedsAll_interleaved (rs : List Request) :
    ∀ {m : Machine} {n : Nat} {ds : List Deed}, (∀ r ∈ rs, r = .step ∨ r = .countDown) →
      rs.count .step = n → m.deedsAll (List.replicate n .step) = .ok ds →
      (∀ d ∈ ds, d.usesTimers = false) →
        ∃ ds', m.deedsAll rs = .ok ds' ∧ m.past ds' = countDown^[rs.count .countDown] (m.past ds) ∧
          outcomes ds' = outcomes ds ∧ told ds' = told ds := by
  -- The induction is on the schedule: its first step is the first of the steps alone, and its first count
  -- passes all of them.
  induction rs with
  | nil =>
    rintro m n ds _ rfl h _
    cases h
    exact ⟨[], rfl, rfl, rfl, rfl⟩
  | cons r rs ih =>
    rintro m n ds hrs rfl h untimed
    obtain ⟨hr, hothers⟩ := List.forall_mem_cons.mp hrs
    rcases hr with rfl | rfl
    · rw [List.count_cons_self, List.replicate_succ] at h
      obtain ⟨s, rest, hs, hrest, rfl⟩ := exists_step_of_deedsAll h
      obtain ⟨ds', hds', hpast, houtcomes, htold⟩ :=
        ih hothers rfl hrest fun d hd => untimed d (List.mem_cons_of_mem _ hd)
      refine ⟨m.stepDeed s :: ds', ?_, ?_, ?_, ?_⟩
      · rw [deedsAll_step hs, hds']
        rfl
      · rw [List.count_cons_of_ne (show Request.step ≠ .countDown by decide)]
        exact hpast
      · rw [outcomes_stepDeed, outcomes_stepDeed, houtcomes]
      · exact congrArg (s.events ++ ·) htold
    · rw [List.count_cons_of_ne (show Request.countDown ≠ .step by decide)] at h
      have hcounted := deedsAll_countDown _ h untimed
      obtain ⟨ds', hds', hpast, houtcomes, htold⟩ := ih hothers rfl hcounted fun d hd => by
        obtain ⟨d, hmem, rfl⟩ := List.mem_map.mp hd
        exact untimed d hmem
      rw [past_map_through] at hpast
      rw [outcomes_map_through] at houtcomes
      rw [told_map_through] at htold
      have hserve : m.serve .countDown = .ok ⟨.silence, [], m.countDown⟩ := rfl
      refine ⟨⟨m, .countDown, ⟨.silence, [], m.countDown⟩⟩ :: ds', ?_, ?_, houtcomes, htold⟩
      · rw [deedsAll_cons (show Request.countDown ≠ .tick by decide) hserve, hds']
        rfl
      · rw [List.count_cons_self, Function.iterate_succ_apply]
        exact hpast

/-- Counts of the timers commute with steps.  Let a well-shaped machine make any number of steps, none of
    which uses the timers; it may be refused something, wait for a key or be stopped on the way.  Then
    whatever schedule has as many steps, with any counts before them, behind them and between them, comes
    to the same outcomes, one for each step, tells the same and leaves the machine that the steps alone
    leave, counted down as often. -/
theorem counts_interleave (hm : m.WellShaped) (n : Nat) :
    ∃ served ds, m.Runs (List.replicate n .step) served ds ∧
      ((∀ d ∈ ds, d.usesTimers = false) →
        ∀ rs : List Request, (∀ r ∈ rs, r = .step ∨ r = .countDown) → rs.count .step = n →
          ∃ served' ds', m.Runs rs served' ds' ∧
            m.behind served' = countDown^[rs.count .countDown] (m.behind served) ∧
            outcomes ds' = outcomes ds ∧ told ds' = told ds) := by
  obtain ⟨served, ds, hruns⟩ := exists_runs (List.replicate n .step) hm
  refine ⟨served, ds, hruns, ?_⟩
  intro untimed rs hrs hn
  obtain ⟨ds', hds', hpast, houtcomes, htold⟩ :=
    exists_deedsAll_interleaved rs hrs hn hruns.deeds untimed
  obtain ⟨served', hruns'⟩ := exists_runs_of_deedsAll hds'
  rw [hruns.past, hruns'.past] at hpast
  exact ⟨served', ds', hruns', hpast, houtcomes, htold⟩

/-- A machine with both timers up sets a register, returns with no call open and is stopped from then on.
    Three counts scattered among its four steps take both timers down by three, the one to its end. -/
theorem counts_interleave_faulting :
    let m : Machine := { (new .standard).withImage [0x63, 0x07, 0x00, 0xEE] with
      timers := { delay := 2, sound := 5 } }
    let rs : List Request := [.countDown, .step, .step, .countDown, .step, .countDown, .step]
    m.WellShaped ∧ (∀ r ∈ rs, r = .step ∨ r = .countDown) ∧ rs.count .step = 4 ∧
      ∃ served ds, m.Runs (List.replicate 4 .step) served ds ∧ (∀ d ∈ ds, d.usesTimers = false) ∧
        (m.behind served).timers = { delay := 2, sound := 5 } ∧
        ∃ served' ds', m.Runs rs served' ds' ∧
          m.behind served' = countDown^[3] (m.behind served) ∧
          (m.behind served').timers = { delay := 0, sound := 2 } ∧
          outcomes ds' = outcomes ds ∧ (outcomes ds).getLast? = some (.fault .stackUnderflow) ∧
          told ds' = told ds ∧ told ds ≠ [] := by
  intro m rs
  have htimed : ∀ m : Machine, m.WellShaped → ∀ timers, { m with timers }.WellShaped :=
    fun m hm timers => hm.of_parts rfl hm.regular hm.depth_le
  have hm : m.WellShaped := htimed _ ((wellShaped_new .standard).withImage _) _
  have hrs : ∀ r ∈ rs, r = .step ∨ r = .countDown := by decide
  have hn : rs.count .step = 4 := by decide
  obtain ⟨served, ds, hruns, hall⟩ := counts_interleave hm 4
  have hrun : (m.deedsAll (List.replicate 4 .step)).map (fun ds =>
      (ds.all fun d => !d.usesTimers, (m.past ds).timers, (outcomes ds).getLast?, (told ds).isEmpty)) =
      .ok (true, { delay := 2, sound := 5 }, some (.fault .stackUnderflow), false) := by
    decide +kernel
  simp only [hruns.deeds, hruns.past, Except.map, Except.ok.injEq, Prod.mk.injEq, List.all_eq_true,
    Bool.not_eq_true'] at hrun
  obtain ⟨huntimed, htimers, hlast, htold⟩ := hrun
  obtain ⟨served', ds', hruns', hbehind, houtcomes, htold'⟩ := hall huntimed rs hrs hn
  have hcounted : (m.behind served').timers = (m.behind served).timers.tick.tick.tick := by
    rw [hbehind]
    rfl
  rw [htimers] at hcounted
  exact ⟨hm, hrs, hn, served, ds, hruns, huntimed, htimers, served', ds', hruns', hbehind, hcounted,
    houtcomes, hlast, htold', List.isEmpty_eq_false_iff.mp htold⟩

end Machine

end Chip8
