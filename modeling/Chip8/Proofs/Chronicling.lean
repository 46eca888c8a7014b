/-
  Chip8.Proofs.Chronicling — the events of a run are a log of its outcomes.

  A step tells what is worth telling: a word that it passes over, a fault when it happens, a wait when it
  begins.  Whether a fault or a wait is new it takes from the status of the machine, not from what was told
  before.  Still a listener may read the events as a log.  They can be written down from the outcomes of
  the steps, the program counters in front of them and the places where the machine started over: `chronicle`
  does so, and it never looks at a machine.  The reason is that the status remembers of the outcomes just
  what the log needs, which `Recalls` says and every deed keeps.

  Main statements: `events_of_step` (what a step tells), `Linked.chronicled` (what deeds in a row tell),
  `Linked.eq_nil_of_told` (nothing is told behind a fault) and `log_faithful` (both, over runs).
-/
import Chip8.Proofs.Faults
import Chip8.Proofs.Stopping
import Chip8.Proofs.Unrolling

namespace Chip8

/-! ## §1. Chronicles. -/

namespace Event

/-- Says whether the event tells more than that an instruction begins. -/
def isRemark : Event → Bool
  | .began _ _ => false
  | _ => true

end Event

namespace Outcome

/-- Says whether the step waited for a key. -/
def isWaiting : Outcome → Bool
  | .waiting _ => true
  | _ => false

end Outcome

/-- What a chronicle knows of a deed. -/
inductive Entry where
  /-- A step, with the program counter in front of it. -/
  | stepped (pc : UInt16) (outcome : Outcome)
  /-- The machine started over. -/
  | restarted
  deriving Repr, DecidableEq

namespace Entry

/-- The remarks on a step, told by its outcome and by the outcomes since the machine started over, the
    latest of them first: a wait is told unless the step before waited, a fault unless there was one. -/
def remarks (earlier : List Outcome) (pc : UInt16) : Outcome → List Event
  | .retired _ => []
  | .skippedUnknown word => [.skippedUnknown pc word]
  | .waiting _ => if earlier.head?.any Outcome.isWaiting then [] else [.waiting pc]
  | .fault cause => if earlier.any Outcome.isFault then [] else [.faulted cause pc]

end Entry

/-- The remarks on entries in order. -/
def chronicle (earlier : List Outcome) : List Entry → List Event
  | [] => []
  | .stepped pc outcome :: entries =>
    Entry.remarks earlier pc outcome ++ chronicle (outcome :: earlier) entries
  | .restarted :: entries => chronicle [] entries

/-- The entry of a deed; a deed that is neither a step nor a restart has none. -/
def Deed.entry? (d : Deed) : Option Entry :=
  if d.request.startsOver then some .restarted
  else d.outcome?.map (.stepped d.before.registers.pc)

namespace Machine

variable {m : Machine}

/-! ## §2. What a step tells. -/

/-- The events of the beginning of a step: there are some only if the machine is not stopped and has a
    word to carry out. -/
def beginning (m : Machine) : List Event :=
  match m.status.stoppedBy, Memory.readWord m.memory m.registers.pc with
  | none, .ok word => m.startEvents word
  | _, _ => []

/-- The remarks on a step with a certain outcome, told by the status of the machine. -/
def remarks (m : Machine) : Outcome → List Event
  | .retired _ => []
  | .skippedUnknown word => [.skippedUnknown m.registers.pc word]
  | .waiting _ => m.waitEvents
  | .fault cause => if m.status.stoppedBy.isSome then [] else [.faulted cause m.registers.pc]

theorem remarks_fault_of_live (live : m.status.stoppedBy = none) (cause : Fault) :
    m.remarks (.fault cause) = [.faulted cause m.registers.pc] := by
  rw [remarks, live]
  rfl

/-- An instruction that completes is told of behind what was told before. -/
theorem events_settle (m after : Machine) (i : Instruction) (flow : Flow) (earlier : List Event) :
    (m.settle after i flow earlier).events = earlier ++ m.remarks (settledOutcome i flow) := by
  unfold settle
  split
  · rfl
  · rfl
  · rename_i hu ht
    rw [settledOutcome_eq_retired hu ht]
    exact (List.append_nil _).symm

/-- A step tells its beginning, and then what is to be remarked on its outcome. -/
theorem events_of_step {s : Stepped} (h : m.step = .ok s) :
    s.events = m.beginning ++ m.remarks s.outcome := by
  rcases step_cases h with ⟨cause, hs, rfl⟩ | ⟨live, cause, hw, rfl⟩ | ⟨live, w, hw, hd⟩
  · have hl := stoppedBy_eq_some_iff.mpr hs
    simp only [beginning, remarks, hl, Option.isSome_some, if_true, List.append_nil]
  · have hb : m.beginning = [] := by simp only [beginning, live, hw]
    rw [hb]
    exact (remarks_fault_of_live live cause).symm
  · have hb : m.beginning = m.startEvents w := by simp only [beginning, live, hw]
    rw [hb]
    rcases dispatch_cases hd with ⟨flow, _, rfl⟩ | ⟨cause, _, rfl⟩
    · rw [events_settle, outcome_settle]
    · show _ = m.startEvents w ++ m.remarks (.fault cause)
      rw [remarks_fault_of_live live]
      rfl

/-- The beginning of a step is no remark. -/
theorem isRemark_of_mem_beginning {e : Event} (h : e ∈ m.beginning) : e.isRemark = false := by
  unfold beginning at h
  split at h
  · unfold startEvents at h
    split at h
    · rw [List.mem_singleton.mp h]
      rfl
    · cases h
  · cases h

theorem isRemark_of_mem_remarks {outcome : Outcome} {e : Event} (h : e ∈ m.remarks outcome) :
    e.isRemark = true := by
  unfold remarks at h
  split at h
  · cases h
  · rw [List.mem_singleton.mp h]
    rfl
  · unfold waitEvents at h
    split at h
    · cases h
    · rw [List.mem_singleton.mp h]
      rfl
  · split at h
    · cases h
    · rw [List.mem_singleton.mp h]
      rfl

/-- Of what a step tells, its remarks remain when its beginning is left out. -/
theorem filter_events_of_step {s : Stepped} (h : m.step = .ok s) :
    s.events.filter Event.isRemark = m.remarks s.outcome := by
  have hb : m.beginning.filter Event.isRemark = [] :=
    List.filter_eq_nil_iff.mpr fun e he => Bool.eq_false_iff.mp (isRemark_of_mem_beginning he)
  have hr : (m.remarks s.outcome).filter Event.isRemark = m.remarks s.outcome :=
    List.filter_eq_self.mpr fun e he => isRemark_of_mem_remarks he
  rw [events_of_step h, List.filter_append, hb, hr, List.nil_append]

/-! ## §3. What the status remembers. -/

/-- Says that the status of a machine remembers of the outcomes since it started over, the latest of them
    first, whether the last step waited and whether any was a fault. -/
structure Recalls (m : Machine) (earlier : List Outcome) : Prop where
  waiting : m.status.isWaiting = earlier.head?.any Outcome.isWaiting
  stopped : m.status.stoppedBy.isSome = earlier.any Outcome.isFault

theorem recalls_of_running (h : m.status = .running) : m.Recalls [] where
  waiting := by
    rw [h]
    rfl
  stopped := by
    rw [h]
    rfl

/-- A machine that recalls the outcomes remarks on a step what a chronicle does. -/
theorem Recalls.remarks {earlier : List Outcome} (h : m.Recalls earlier) (outcome : Outcome) :
    m.remarks outcome = Entry.remarks earlier m.registers.pc outcome := by
  cases outcome with
  | retired i => rfl
  | skippedUnknown word => rfl
  | waiting x => rw [Machine.remarks, waitEvents, h.waiting, Entry.remarks]
  | fault cause => rw [Machine.remarks, h.stopped, Entry.remarks]

/-- A completed instruction that waits leaves a machine waiting, and no other does. -/
theorem isWaiting_settledStatus (i : Instruction) (flow : Flow) :
    (settledStatus i flow).isWaiting = (settledOutcome i flow).isWaiting := by
  unfold settledStatus
  split
  · rfl
  · rename_i ht
    unfold settledOutcome
    split
    · rfl
    · exact (ht _ rfl rfl).elim
    · rfl

theorem stoppedBy_settledStatus (i : Instruction) (flow : Flow) :
    (settledStatus i flow).stoppedBy = none := by
  unfold settledStatus
  split <;> rfl

/-- The machine behind a step recalls the outcome of the step as well. -/
theorem Recalls.step {earlier : List Outcome} (h : m.Recalls earlier) {s : Stepped}
    (hs : m.StepsTo s) : s.machine.Recalls (s.outcome :: earlier) := by
  cases hs with
  | stopped cause status =>
    constructor
    · show m.status.isWaiting = _
      rw [status]
      rfl
    · show m.status.stoppedBy.isSome = _
      rw [status]
      rfl
  | unfetched live outside => exact ⟨rfl, rfl⟩
  | refused live w d cause fetches demand refusal => exact ⟨rfl, rfl⟩
  | completed live w flow after fetches granted performs shaped kept =>
    -- There was no fault before this step, and it is none itself.
    have hno : earlier.any Outcome.isFault = false := by
      rw [← h.stopped, live]
      rfl
    rw [machine_settle, outcome_settle]
    constructor
    · exact isWaiting_settledStatus _ _
    · show (settledStatus _ _).stoppedBy.isSome = _
      rw [stoppedBy_settledStatus, List.any_cons, isFault_settledOutcome, hno]
      rfl

/-! ## §4. What deeds in a row tell. -/

/-- What deeds in a row tell, apart from beginnings, is their chronicle. -/
theorem Linked.chronicled {ds : List Deed} (hl : m.Linked ds) :
    ∀ {earlier : List Outcome}, m.WellShaped → m.Recalls earlier →
      (told ds).filter Event.isRemark = chronicle earlier (ds.filterMap Deed.entry?) := by
  -- Along the deeds the outcomes before them get more, and none remain behind a restart.
  induction hl with
  | nil m =>
    intro earlier _ _
    rfl
  | @cons m r s ds single serves rest ih =>
    intro earlier hm hr
    have hsm := (intact_of_serve hm serves).shaped
    cases gives_of_serve hm single serves with
    | @stepped t step =>
      have ht := stepsTo_of_step hm step
      show (t.events ++ told ds).filter Event.isRemark =
        Entry.remarks earlier m.registers.pc t.outcome ++
          chronicle (t.outcome :: earlier) (ds.filterMap Deed.entry?)
      rw [List.filter_append, filter_events_of_step step, hr.remarks, ih hsm (hr.step ht)]
    | countedDown | keySet key held | loaded fits | unloaded large =>
      exact ih hsm ⟨hr.waiting, hr.stopped⟩
    | reset | reloaded fits | unreloaded large => exact ih hsm (recalls_of_running rfl)

/-- A stopped machine tells nothing until it starts over. -/
theorem Linked.told_of_stopped {ds : List Deed} (hl : m.Linked ds) {cause : Fault} :
    m.WellShaped → m.status = .stopped cause → (∀ d ∈ ds, d.request.startsOver = false) →
      told ds = [] := by
  induction hl with
  | nil m =>
    intro _ _ _
    rfl
  | @cons m r s ds single serves rest ih =>
    intro hm hs hgoes
    have hr : r.startsOver = false := hgoes _ List.mem_cons_self
    have hsm := (intact_of_serve hm serves).shaped
    rw [serve_of_stopped hm hs hr, Except.ok.injEq] at serves
    subst serves
    have hrest := ih hsm ((rests_idled hr).status.trans hs)
      fun d hmem => hgoes d (List.mem_cons_of_mem _ hmem)
    exact hrest

/-- There is one remark on a step at most. -/
theorem remarks_cases (m : Machine) (outcome : Outcome) :
    m.remarks outcome = [] ∨ ∃ e, m.remarks outcome = [e] := by
  unfold remarks
  split
  · exact .inl rfl
  · exact .inr ⟨_, rfl⟩
  · unfold waitEvents
    split
    · exact .inl rfl
    · exact .inr ⟨_, rfl⟩
  · split
    · exact .inl rfl
    · exact .inr ⟨_, rfl⟩

/-- A fault is told of no other outcome. -/
theorem eq_fault_of_mem_remarks {outcome : Outcome} {cause : Fault} {pc : UInt16}
    (h : .faulted cause pc ∈ m.remarks outcome) : outcome = .fault cause := by
  cases outcome with
  | retired i => cases h
  | skippedUnknown word => cases List.mem_singleton.mp h
  | waiting x =>
    rw [remarks, waitEvents] at h
    split at h
    · cases h
    · cases List.mem_singleton.mp h
  | fault cause' =>
    rw [remarks] at h
    split at h
    · cases h
    · cases List.mem_singleton.mp h
      rfl

/-- A fault is the last thing that a step tells, and it leaves the machine stopped. -/
theorem eq_nil_of_events (hm : m.WellShaped) {s : Stepped} (h : m.step = .ok s) {xs ys : List Event}
    {cause : Fault} {pc : UInt16} (he : s.events = xs ++ .faulted cause pc :: ys) :
    ys = [] ∧ s.machine.status = .stopped cause := by
  have hmem : Event.faulted cause pc ∈ s.events := by
    rw [he]
    exact List.mem_append_right _ List.mem_cons_self
  have hout : ∀ zs, m.beginning ≠ xs ++ .faulted cause pc :: zs := by
    intro zs hb
    have hin : Event.faulted cause pc ∈ m.beginning := by
      rw [hb]
      exact List.mem_append_right _ List.mem_cons_self
    cases isRemark_of_mem_beginning hin
  rw [events_of_step h] at he hmem
  constructor
  · rcases m.remarks_cases s.outcome with hnone | ⟨e, hone⟩
    · rw [hnone, List.append_nil] at he
      exact absurd he (hout ys)
    · rcases List.eq_nil_or_concat ys with hys | ⟨zs, z, rfl⟩
      · exact hys
      -- Were there anything behind the fault, the fault would belong to the beginning.
      · rw [hone, List.concat_eq_append, ← List.cons_append, ← List.append_assoc] at he
        exact absurd (List.append_singleton_inj.mp he).1 (hout zs)
  · rcases List.mem_append.mp hmem with hin | hin
    · cases isRemark_of_mem_beginning hin
    · rw [machine_of_fault (stepsTo_of_step hm h) (eq_fault_of_mem_remarks hin)]

/-- Nothing is told behind a fault until the machine starts over. -/
theorem Linked.eq_nil_of_told {ds : List Deed} (hl : m.Linked ds) {cause : Fault} {pc : UInt16} :
    ∀ {xs ys : List Event}, m.WellShaped → (∀ d ∈ ds, d.request.startsOver = false) →
      told ds = xs ++ .faulted cause pc :: ys → ys = [] := by
  induction hl with
  | nil m =>
    intro xs ys _ _ he
    exact absurd he.symm (List.append_ne_nil_of_right_ne_nil _ (List.cons_ne_nil _ _))
  | @cons m r s ds single serves rest ih =>
    intro xs ys hm hgoes he
    have hsm := (intact_of_serve hm serves).shaped
    have hgoes' : ∀ d ∈ ds, d.request.startsOver = false :=
      fun d hmem => hgoes d (List.mem_cons_of_mem _ hmem)
    have he' : s.events ++ told ds = xs ++ .faulted cause pc :: ys := he
    -- The fault is told by a later deed, or by this one.
    rcases List.append_eq_append_iff.mp he' with ⟨zs, _, htold⟩ | ⟨zs, hevents, htold⟩
    · exact ih hsm hgoes' htold
    · cases zs with
      | nil =>
        have htold' : told ds = [] ++ .faulted cause pc :: ys := htold.symm
        exact ih hsm hgoes' htold'
      | cons z zs =>
        rw [List.cons_append, List.cons.injEq] at htold
        obtain ⟨rfl, rfl⟩ := htold
        cases gives_of_serve hm single serves with
        | stepped step =>
          obtain ⟨rfl, hstop⟩ := eq_nil_of_events hm step hevents
          exact rest.told_of_stopped hsm hstop hgoes'
        -- The other deeds tell nothing.
        | _ => exact absurd hevents.symm (List.append_ne_nil_of_right_ne_nil _ (List.cons_ne_nil _ _))

/-! ## §5. The log. -/

/-- The events of a run are a faithful log of its outcomes.  From a fresh machine, with or without an
    image, which is as good as an image that the first request loads, let any requests be served.  What is
    told then, apart from instructions that begin, is the chronicle of the deeds that the requests come to:
    the pairs of program counter and outcome of all steps in order, those inside ticks included, and the
    places where the machine started over.  And however one picks deeds in a row none of which starts over,
    nothing at all is told behind a fault, so that there is one fault at most and it is the last event. -/
theorem log_faithful (config : Config) (rs : List Request) :
    ∃ served ds, (new config).Runs rs served ds ∧
      (served.flatMap Served.events).filter Event.isRemark =
        chronicle [] (ds.filterMap Deed.entry?) ∧
      ∀ before between after, ds = before ++ between ++ after →
        (∀ d ∈ between, d.request.startsOver = false) →
          ∀ xs cause pc ys, told between = xs ++ .faulted cause pc :: ys → ys = [] := by
  have hn := wellShaped_new config
  obtain ⟨served, ds, hruns⟩ := exists_runs rs hn
  refine ⟨served, ds, hruns, ?_, ?_⟩
  · rw [← hruns.told]
    exact hruns.linked.chronicled hn (recalls_of_running rfl)
  · intro before between after hparts hgoes xs cause pc ys he
    have hl := hruns.linked
    rw [hparts, List.append_assoc] at hl
    obtain ⟨hbefore, hrest⟩ := hl.of_append
    exact hrest.of_append.1.eq_nil_of_told (hbefore.intact hn).shaped hgoes he

/-- A program waits for a key, in vain at first, passes over a word and returns with no call open, the last
    two inside a tick; behind that it is stepped once more and reset. -/
theorem log_faithful_waited :
    let rs : List Request :=
      [.load [0xF0, 0x0A, 0x80, 0x08, 0x00, 0xEE], .step, .step, .setKey 5 true, .step, .tick, .step,
        .reset, .step]
    ∃ served ds, (new .standard).Runs rs served ds ∧
      (served.flatMap Served.events).filter Event.isRemark =
        chronicle [] (ds.filterMap Deed.entry?) ∧
      (∀ d ∈ ds.take 9, d.request.startsOver = false) ∧
      ∃ ys, told (ds.take 9) =
          [.waiting 0x200, .skippedUnknown 0x202 0x8008] ++ .faulted .stackUnderflow 0x204 :: ys ∧
        ys = [] := by
  intro rs
  obtain ⟨served, ds, hruns, hlog, hlast⟩ := log_faithful .standard rs
  have hrun : ((new .standard).deedsAll rs).map (fun ds =>
      ((ds.take 9).all (!·.request.startsOver), told (ds.take 9))) =
        .ok (true, [.waiting 0x200, .skippedUnknown 0x202 0x8008,
          .faulted .stackUnderflow 0x204]) := by
    decide +kernel
  simp only [hruns.deeds, Except.map, Except.ok.injEq, Prod.mk.injEq, List.all_eq_true,
    Bool.not_eq_true'] at hrun
  obtain ⟨hgoes, htold⟩ := hrun
  have hparts : ds = [] ++ ds.take 9 ++ ds.drop 9 := (List.take_append_drop 9 ds).symm
  exact ⟨served, ds, hruns, hlog, hgoes, [], htold,
    hlast _ _ _ hparts hgoes [.waiting 0x200, .skippedUnknown 0x202 0x8008] _ _ _ htold⟩

end Machine

end Chip8
