/-
  Chip8.Proofs.Tracing — a host that hears of every instruction gets the same machine as one that does not.

  Tracing is a choice of the host, and the machine looks at it in one place only: in front of an
  instruction, to tell that it begins.  So two runs that differ in that choice go side by side.  `untraced`
  turns what the traced one gives into what the other gives, and it commutes with an instruction, a step, a
  burst, a tick and a request, each because it does with the parts.  Where the beginnings stand in the
  traced run is then a statement about each step alone: `Heralded` says that its beginning comes first.

  Main statements: `step_untraced` and `serveAll_untraced` (the two runs), `Linked.heralded` (the beginnings
  in the traced one) and `tracing_observes` (all of it).
-/
import Chip8.Proofs.Chronicling
import Chip8.Proofs.Surroundings

namespace Chip8

/-! ## §1. Leaving the beginnings out. -/

/-- The choices with tracing on or off. -/
def Config.withTracing (c : Config) (on : Bool) : Config := { c with tracing := on }

/-- The machine with tracing on or off. -/
def Machine.withTracing (m : Machine) (on : Bool) : Machine := m.withConfig (m.config.withTracing on)

/-- What the step gives when nobody hears of beginnings. -/
def Stepped.untraced (s : Stepped) : Stepped :=
  { outcome := s.outcome, events := s.events.filter Event.isRemark, machine := s.machine.withTracing false }

/-- What the tick gives when nobody hears of beginnings. -/
def Ticked.untraced (t : Ticked) : Ticked :=
  { report := t.report, events := t.events.filter Event.isRemark, machine := t.machine.withTracing false }

/-- What is served when nobody hears of beginnings. -/
def Served.untraced (s : Served) : Served :=
  { answer := s.answer, events := s.events.filter Event.isRemark, machine := s.machine.withTracing false }

namespace Machine

variable {m : Machine}

theorem filter_startEvents (m : Machine) (word : Word) :
    (m.startEvents word).filter Event.isRemark = [] := by
  unfold startEvents
  split <;> rfl

theorem filter_waitEvents (m : Machine) : m.waitEvents.filter Event.isRemark = m.waitEvents := by
  unfold waitEvents
  split <;> rfl

/-- An instruction does the same whether or not anyone hears of its beginning. -/
theorem perform_withTracing (i : Instruction) :
    (m.withTracing false).perform i =
      { result := (m.perform i).result, machine := (m.perform i).machine.withTracing false } := by
  have same : (m.config.withTracing false).emptyReturn = m.config.emptyReturn := rfl
  have hkept : (m.perform i).machine.withTracing false =
      (m.perform i).machine.withConfig (m.config.withTracing false) := by
    rw [withTracing, (kept_perform m i).config]
  rw [hkept]
  exact perform_withConfig fun _ _ => same

/-- The end of an instruction that completes loses the beginning that stands in front of it. -/
theorem settle_untraced (m after : Machine) (i : Instruction) (flow : Flow) (word : Word) :
    (m.withTracing false).settle (after.withTracing false) i flow [] =
      (m.settle after i flow (m.startEvents word)).untraced := by
  unfold settle
  split
  all_goals simp only [Stepped.untraced, List.filter_append, filter_startEvents, filter_waitEvents]
  all_goals rfl

/-- So does the end of one that does not. -/
theorem stop_untraced (m : Machine) (pc : UInt16) (cause : Fault) {earlier : List Event}
    (h : earlier.filter Event.isRemark = []) :
    (m.withTracing false).stop pc cause [] = (m.stop pc cause earlier).untraced := by
  simp only [stop, Stepped.untraced, List.filter_append, h]
  rfl

theorem dispatch_untraced (word : Word) (i : Instruction) :
    (m.withTracing false).dispatch word i = (m.dispatch word i).map Stepped.untraced := by
  simp only [dispatch, perform_withTracing]
  split
  · exact congrArg _ (settle_untraced ..)
  · exact congrArg _ (stop_untraced _ _ _ (filter_startEvents m word))
  · rfl

/-- A step that nobody traces is the traced one without its beginning. -/
theorem step_untraced (m : Machine) : (m.withTracing false).step = m.step.map Stepped.untraced := by
  rcases hl : m.status.stoppedBy with _ | cause
  · rcases hw : Memory.readWord m.memory m.registers.pc with cause | w
    · rw [step_of_readWord_error hl hw]
      exact (step_of_readWord_error (m := m.withTracing false) hl hw).trans
        (congrArg _ (stop_untraced _ _ _ rfl))
    · rw [step_of_readWord hl hw]
      exact (step_of_readWord (m := m.withTracing false) hl hw).trans (dispatch_untraced ..)
  · have hs := stoppedBy_eq_some_iff.mp hl
    rw [step_of_stopped hs]
    exact step_of_stopped (m := m.withTracing false) hs

/-! ## §2. Runs with and without a trace. -/

/-- A burst that nobody traces is the traced one without the beginnings of its steps. -/
theorem burst_untraced (budget : Nat) :
    ∀ (m : Machine) (report : TickReport) (events : Array Event),
      burst report (events.filter Event.isRemark) (m.withTracing false) budget =
        (burst report events m budget).map fun (report, events, after) =>
          (report, events.filter Event.isRemark, after.withTracing false) := by
  -- The events that were told before have to lose their beginnings as well, so they are any.
  induction budget with
  | zero =>
    intro m report events
    rfl
  | succ budget ih =>
    intro m report events
    simp only [burst, step_untraced]
    rcases m.step with breach | s
    · rfl
    · have he : events.filter Event.isRemark ++ s.events.filter Event.isRemark =
          (events ++ s.events).filter Event.isRemark := by
        apply Array.toList_inj.mp
        simp only [Array.toList_appendList, Array.toList_filter, List.filter_append]
      simp only [Except.map, Stepped.untraced, he, ih]
      split <;> rfl

/-- A tick that nobody traces is the traced one without the beginnings of its steps. -/
theorem tick_untraced (m : Machine) : (m.withTracing false).tick = m.tick.map Ticked.untraced := by
  have hb : burst { steps := 0, finalStep := none } #[] (m.withTracing false)
      (m.withTracing false).config.stepsPerTick.toNat = _ :=
    burst_untraced m.config.stepsPerTick.toNat m { steps := 0, finalStep := none } #[]
  rw [tick, hb, tick]
  rcases burst { steps := 0, finalStep := none } #[] m m.config.stepsPerTick.toNat with
    breach | ⟨report, events, after⟩
  · rfl
  · simp only [Except.map, Ticked.untraced, Array.toList_filter]
    rfl

theorem load_withTracing (on : Bool) (image : List UInt8) :
    (m.withTracing on).load image = (m.load image).map (withTracing · on) := by
  simp only [load, withTracing, memory_withConfig]
  split
  · rfl
  · split <;> rfl

theorem reset_withTracing (on : Bool) : (m.withTracing on).reset = m.reset.map (withTracing · on) := by
  simp only [reset, withTracing, memory_withConfig]
  split <;> rfl

/-- A request that nobody traces gives what the traced one gives without the beginnings. -/
theorem serve_untraced (m : Machine) (r : Request) :
    (m.withTracing false).serve r = (m.serve r).map Served.untraced := by
  cases r with
  | step =>
    rw [serve, step_untraced, serve]
    rcases m.step with breach | s <;> rfl
  | tick =>
    rw [serve, tick_untraced, serve]
    rcases m.tick with breach | t <;> rfl
  | countDown | setKey key held => rfl
  | load image =>
    rw [serve, load_withTracing, serve]
    rcases m.load image with (breach | cause) | loaded <;> rfl
  | reset =>
    rw [serve, reset_withTracing, serve]
    rcases m.reset with breach | cleared <;> rfl
  | reload image =>
    rw [serve, reload, reset_withTracing, serve, reload]
    rcases m.reset with breach | cleared
    · rfl
    · simp only [Except.map, load_withTracing]
      rcases cleared.load image with (breach | cause) | loaded <;> rfl

/-- A run that nobody traces is the traced one without the beginnings. -/
theorem serveAll_untraced (rs : List Request) :
    ∀ m : Machine,
      (m.withTracing false).serveAll rs = (m.serveAll rs).map (List.map Served.untraced) := by
  induction rs with
  | nil =>
    intro m
    rfl
  | cons r rs ih =>
    intro m
    simp only [serveAll, serve_untraced]
    rcases m.serve r with breach | s
    · rfl
    · have hrest : s.untraced.machine.serveAll rs = _ := ih s.machine
      simp only [Except.map, hrest]
      rcases s.machine.serveAll rs with breach | rest <;> rfl

end Machine

/-! ## §3. Where the beginnings stand. -/

/-- The event of the instruction that a deed begins: there is one if the deed is a step of a machine that
    is not stopped and has a word to carry out. -/
def Deed.start? (d : Deed) : Option Event :=
  match d.request, d.before.status.stoppedBy, Memory.readWord d.before.memory d.before.registers.pc with
  | .step, none, .ok word => some (.began d.before.registers.pc word)
  | _, _, _ => none

namespace Deed

/-- A deed begins an instruction if it is a step of a machine that is not stopped and has a word to carry
    out, and no other deed does. -/
theorem start?_eq_some_iff {d : Deed} {e : Event} :
    d.start? = some e ↔ d.request = .step ∧ (∀ cause, d.before.status ≠ .stopped cause) ∧
      ∃ word, Memory.readWord d.before.memory d.before.registers.pc = .ok word ∧
        e = .began d.before.registers.pc word := by
  have hlive : (∀ cause, d.before.status ≠ .stopped cause) ↔ d.before.status.stoppedBy = none := by
    simp only [Option.eq_none_iff_forall_ne_some, ne_eq, Machine.stoppedBy_eq_some_iff]
  rw [hlive]
  unfold start?
  constructor
  · intro h
    split at h
    · rename_i word hr hs hw
      exact ⟨hr, hs, word, hw, (Option.some.inj h).symm⟩
    · cases h
  · rintro ⟨hr, hs, word, hw, rfl⟩
    simp only [hr, hs, hw]

theorem start?_of_ne {d : Deed} (h : d.request ≠ .step) : d.start? = none :=
  Option.eq_none_iff_forall_ne_some.mpr fun _ he => h (start?_eq_some_iff.mp he).1

theorem isRemark_of_start? {d : Deed} {e : Event} (h : d.start? = some e) : e.isRemark = false := by
  obtain ⟨_, _, word, _, rfl⟩ := start?_eq_some_iff.mp h
  rfl

/-- Says of a deed that it tells the beginning of its instruction, if it begins one, and right behind that
    one more event at most. -/
structure Heralded (d : Deed) : Prop where
  events : d.served.events = d.start?.toList ++ d.served.events.filter Event.isRemark
  length_le : (d.served.events.filter Event.isRemark).length ≤ 1

/-- The beginnings among what such a deed tells are the one of its instruction. -/
theorem Heralded.filter_events {d : Deed} (h : d.Heralded) :
    d.served.events.filter (!·.isRemark) = d.start?.toList := by
  have hstart : d.start?.toList.filter (!·.isRemark) = d.start?.toList := by
    refine List.filter_eq_self.mpr fun e he => ?_
    rw [isRemark_of_start? (Option.mem_toList.mp he)]
    rfl
  have hrest : (d.served.events.filter Event.isRemark).filter (!·.isRemark) = [] := by
    refine List.filter_eq_nil_iff.mpr fun e he => ?_
    rw [(List.mem_filter.mp he).2]
    exact Bool.false_ne_true
  rw [h.events, List.filter_append, hstart, hrest, List.append_nil]

end Deed

namespace Machine

variable {m : Machine}

/-- The beginning of a step that is traced is the event of the instruction that the deed begins. -/
theorem beginning_of_tracing (traced : m.config.tracing = true) (s : Stepped) :
    m.beginning = (m.stepDeed s).start?.toList := by
  unfold beginning Deed.start? startEvents stepDeed
  rw [traced]
  rcases m.status.stoppedBy with _ | cause
  · rcases Memory.readWord m.memory m.registers.pc with cause | w <;> rfl
  · rfl

theorem length_remarks_le (m : Machine) (outcome : Outcome) : (m.remarks outcome).length ≤ 1 := by
  rcases m.remarks_cases outcome with h | ⟨e, h⟩
  · rw [h]
    exact Nat.zero_le 1
  · rw [h]
    exact Nat.le_refl 1

/-- Whatever is done to a machine that traces is heralded. -/
theorem heralded_of_serve (traced : m.config.tracing = true) {r : Request} (single : r ≠ .tick)
    {s : Served} (h : m.serve r = .ok s) : (⟨m, r, s⟩ : Deed).Heralded := by
  rcases serve_cases single h with ⟨rfl, t, ht, rfl⟩ | ⟨other, still⟩
  · have hf := filter_events_of_step ht
    constructor
    · show t.events = (m.stepDeed t).start?.toList ++ t.events.filter Event.isRemark
      rw [hf, events_of_step ht, beginning_of_tracing traced]
    · show (t.events.filter Event.isRemark).length ≤ 1
      rw [hf]
      exact length_remarks_le m t.outcome
  · constructor
    · show s.events = _ ++ s.events.filter Event.isRemark
      rw [Deed.start?_of_ne other, still.events]
      rfl
    · show (s.events.filter Event.isRemark).length ≤ 1
      rw [still.events]
      exact Nat.zero_le 1

/-- Along deeds in a row the tracing goes on, restarts included. -/
theorem Linked.heralded {ds : List Deed} (hl : m.Linked ds) :
    m.config.tracing = true → ∀ d ∈ ds, d.Heralded := by
  induction hl with
  | nil m =>
    intro _ d hd
    cases hd
  | @cons m r s ds single serves rest ih =>
    intro traced d hd
    have hnext : s.machine.config.tracing = true := by
      rw [config_of_serve single serves, traced]
    rcases List.mem_cons.mp hd with rfl | hd
    · exact heralded_of_serve traced single serves
    · exact ih hnext d hd

/-- The beginnings among what heralded deeds tell are those of their instructions, in order. -/
theorem filter_told {ds : List Deed} (h : ∀ d ∈ ds, d.Heralded) :
    (told ds).filter (!·.isRemark) = ds.filterMap Deed.start? := by
  induction ds with
  | nil => rfl
  | cons d ds ih =>
    have hd := (h d List.mem_cons_self).filter_events
    have hds := ih fun d' hd' => h d' (List.mem_cons_of_mem _ hd')
    have hstarts : (d :: ds).filterMap Deed.start? = d.start?.toList ++ ds.filterMap Deed.start? := by
      simp only [List.filterMap_eq_flatMap_toList, List.flatMap_cons]
    rw [hstarts, ← hd, ← hds]
    exact List.filter_append ..

/-! ## §4. Tracing is pure observation. -/

/-- Tracing is pure observation.  Let two machines differ in nothing but the choice to trace, and let any
    requests be served on both.  Then they answer alike and are left alike, up to that choice, and the one
    that does not trace tells what the other does without the beginnings.  On the one that does, the
    beginnings are in order those of the steps that were not stopped and had a word to carry out, those
    inside ticks included, each with its program counter and the word there; every deed tells the beginning
    of its own step first, and one more event at most right behind it.  A machine of the right shape serves
    every request. -/
theorem tracing_observes (m : Machine) (rs : List Request) :
    (m.withTracing false).serveAll rs =
        ((m.withTracing true).serveAll rs).map (List.map Served.untraced) ∧
      (∀ served, (m.withTracing true).serveAll rs = .ok served →
        ∃ ds, (m.withTracing true).Runs rs served ds ∧
          (served.flatMap Served.events).filter (!·.isRemark) = ds.filterMap Deed.start? ∧
          ∀ d ∈ ds, d.Heralded) ∧
      (m.WellShaped → ∃ served, (m.withTracing true).serveAll rs = .ok served) := by
  refine ⟨serveAll_untraced rs (m.withTracing true), ?_, ?_⟩
  · intro served h
    obtain ⟨ds, hruns⟩ := exists_runs_of_serveAll rs h
    have hheralded := hruns.linked.heralded rfl
    refine ⟨ds, hruns, ?_, hheralded⟩
    rw [← hruns.told]
    exact filter_told hheralded
  · intro hm
    have hm' : (m.withTracing true).WellShaped := hm.of_parts rfl hm.regular hm.depth_le
    obtain ⟨served, h, _⟩ := exists_serveAll rs hm'
    exact ⟨served, h⟩

/-- A program passes over a word, waits for a key and returns with no call open, partly inside ticks and
    traced all along. -/
theorem tracing_observes_waited :
    let rs : List Request :=
      [.load [0x80, 0x08, 0xF0, 0x0A, 0x00, 0xEE], .step, .step, .step, .setKey 5 true, .tick, .step]
    ∃ served ds, ((new .standard).withTracing true).Runs rs served ds ∧
      ((new .standard).withTracing false).serveAll rs = .ok (served.map Served.untraced) ∧
      served.flatMap Served.events =
        [.began 0x200 0x8008, .skippedUnknown 0x200 0x8008, .began 0x202 0xF00A, .waiting 0x202,
          .began 0x202 0xF00A, .began 0x202 0xF00A, .began 0x204 0x00EE,
          .faulted .stackUnderflow 0x204] ∧
      (served.flatMap Served.events).filter (!·.isRemark) = ds.filterMap Deed.start? ∧
      ∀ d ∈ ds, d.Heralded := by
  intro rs
  obtain ⟨huntraced, htraced, hserves⟩ := tracing_observes (new .standard) rs
  obtain ⟨served, h⟩ := hserves (wellShaped_new .standard)
  obtain ⟨ds, hruns, hstarts, hheralded⟩ := htraced served h
  have hevents : (((new .standard).withTracing true).serveAll rs).map
      (List.flatMap Served.events) = .ok
        [.began 0x200 0x8008, .skippedUnknown 0x200 0x8008, .began 0x202 0xF00A, .waiting 0x202,
          .began 0x202 0xF00A, .began 0x202 0xF00A, .began 0x204 0x00EE,
          .faulted .stackUnderflow 0x204] := by
    decide +kernel
  rw [h] at huntraced hevents
  exact ⟨served, ds, hruns, huntraced, Except.ok.inj hevents, hstarts, hheralded⟩

end Machine

end Chip8
