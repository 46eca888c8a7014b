/-
  Chip8.Proofs.Unrolling — what happens on requests, one thing after the other.

  A tick is many things at once: steps until one of them is a fault or the budget is used up, and then a
  count of the timers.  A statement about every step of a run has to speak of those inside ticks too, with
  the machine from which each of them starts, and neither the report of a tick nor its events show that.
  `deeds` unrolls a request into the single things that happen on it, `Linked` says that each of them is
  made to the machine that the one before it left, and a run of requests is what its deeds are in a row.

  Main statements: `gives_of_serve` (what single requests give to a well-shaped machine), and of machines
  of any shape `serve_cases` (steps and other requests), `exists_deeds_of_serve` (a request is its deeds),
  `exists_runs_of_serveAll` and `exists_runs_of_deedsAll` (a run is its deeds).
-/
import Chip8.Proofs.Restarting

namespace Chip8

/-! ## §1. Deeds. -/

/-- One thing that happens: a request other than a tick, the machine that it is made to and what it
    gives. -/
structure Deed where
  before : Machine
  request : Request
  served : Served

namespace Deed

/-- The outcome, if the deed is a step. -/
def outcome? (d : Deed) : Option Outcome :=
  match d.served.answer with
  | .outcome outcome => some outcome
  | _ => none

/-- The instruction that the deed carries out, if it is a step and there is one. -/
def instruction? (d : Deed) : Option Instruction :=
  match d.request with
  | .step => d.before.current?
  | _ => none

/-- The deed with other machines in the place of its own. -/
def through (f : Machine → Machine) (d : Deed) : Deed :=
  { before := f d.before, request := d.request
    served := { d.served with machine := f d.served.machine } }

end Deed

namespace TickReport

/-- A report counted on by the outcomes of more steps, the last of which is the final one. -/
def counting (report : TickReport) (outcomes : List Outcome) : TickReport :=
  { steps := report.steps + outcomes.length
    finalStep := outcomes.getLast?.or report.finalStep }

theorem counting_cons (report : TickReport) (outcome : Outcome) (outcomes : List Outcome) :
    report.counting (outcome :: outcomes) =
      ({ steps := report.steps + 1, finalStep := some outcome } : TickReport).counting outcomes := by
  have hcount : report.steps + (outcomes.length + 1) = report.steps + 1 + outcomes.length := by
    omega
  simp only [counting, List.length_cons, hcount, List.getLast?_cons]
  cases outcomes.getLast? <;> rfl

end TickReport

namespace Machine

variable {m : Machine}

/-- The machine that is left when certain deeds were done. -/
def past (m : Machine) (ds : List Deed) : Machine := m.behind (ds.map Deed.served)

/-- The deed of a step. -/
def stepDeed (m : Machine) (s : Stepped) : Deed :=
  { before := m, request := .step, served := ⟨.outcome s.outcome, s.events, s.machine⟩ }

/-- The steps of a burst. -/
def burstDeeds (m : Machine) : Nat → Except Breach (List Deed)
  | 0 => .ok []
  | budget + 1 =>
    match m.step with
    | .error breach => .error breach
    | .ok s =>
      if s.outcome.isFault then .ok [m.stepDeed s]
      else (s.machine.burstDeeds budget).map (m.stepDeed s :: ·)

/-- What happens on a request: on a tick its steps and then a count of the timers, on any other request
    nothing but the request itself. -/
def deeds (m : Machine) : Request → Except Breach (List Deed)
  | .tick => (m.burstDeeds m.config.stepsPerTick.toNat).map fun ds =>
      ds ++ [⟨m.past ds, .countDown, ⟨.silence, [], (m.past ds).countDown⟩⟩]
  | r => (m.serve r).map fun s => [⟨m, r, s⟩]

/-- What happens on requests in order. -/
def deedsAll (m : Machine) : List Request → Except Breach (List Deed)
  | [] => .ok []
  | r :: rs =>
    match m.deeds r with
    | .error breach => .error breach
    | .ok ds => ((m.past ds).deedsAll rs).map (ds ++ ·)

/-! ## §2. Deeds in a row. -/

/-- Says of deeds that each is what its request gives on the machine that the one before it left, and that
    none of the requests is a tick. -/
inductive Linked : Machine → List Deed → Prop where
  | nil (m : Machine) : Linked m []
  | cons {m : Machine} {r : Request} {s : Served} {ds : List Deed} (single : r ≠ .tick)
    (serves : m.serve r = .ok s) (rest : Linked s.machine ds) : Linked m (⟨m, r, s⟩ :: ds)

theorem past_cons (m : Machine) (d : Deed) (ds : List Deed) :
    m.past (d :: ds) = d.served.machine.past ds := rfl

theorem past_append (ds ds' : List Deed) : ∀ m : Machine, m.past (ds ++ ds') = (m.past ds).past ds' := by
  induction ds with
  | nil =>
    intro m
    rfl
  | cons d ds ih =>
    intro m
    rw [List.cons_append, past_cons, past_cons, ih]

/-- Deeds behind others start from the machine that is left. -/
theorem Linked.append {ds ds' : List Deed} (h : m.Linked ds) (h' : (m.past ds).Linked ds') :
    m.Linked (ds ++ ds') := by
  induction h with
  | nil m => exact h'
  | cons single serves rest ih => exact .cons single serves (ih h')

/-- Deeds in a row can be parted anywhere. -/
theorem Linked.of_append {ds ds' : List Deed} :
    ∀ {m : Machine}, m.Linked (ds ++ ds') → m.Linked ds ∧ (m.past ds).Linked ds' := by
  induction ds with
  | nil =>
    intro m h
    exact ⟨.nil m, h⟩
  | cons d ds ih =>
    intro m h
    cases h with
    | cons single serves rest =>
      obtain ⟨hds, hds'⟩ := ih rest
      exact ⟨.cons single serves hds, hds'⟩

theorem Linked.take {ds : List Deed} (h : m.Linked ds) (n : Nat) : m.Linked (ds.take n) := by
  rw [← List.take_append_drop n ds] at h
  exact h.of_append.1

/-- Deeds do no harm. -/
theorem Linked.intact {ds : List Deed} (h : m.Linked ds) (hm : m.WellShaped) :
    m.Intact (m.past ds) := by
  induction h with
  | nil m => exact hm.intact
  | cons single serves rest ih =>
    have hi := intact_of_serve hm serves
    exact hi.trans (ih hi.shaped)

/-- What a step gives is what the request for it gives. -/
theorem serve_step {s : Stepped} (h : m.step = .ok s) :
    m.serve .step = .ok (m.stepDeed s).served := by
  rw [serve, h]
  rfl

/-- A step in front of deeds. -/
theorem Linked.step {s : Stepped} {ds : List Deed} (h : m.step = .ok s) (rest : s.machine.Linked ds) :
    m.Linked (m.stepDeed s :: ds) :=
  .cons nofun (serve_step h) rest

/-- A count of the timers on its own. -/
theorem linked_countDown (m : Machine) :
    m.Linked [⟨m, .countDown, ⟨.silence, [], m.countDown⟩⟩] :=
  .cons nofun rfl (.nil _)

/-! ## §3. What single requests give. -/

/-- What came from a success came from one. -/
theorem exists_of_map_eq_ok {ε α β : Type} {x : Except ε α} {f : α → β} {b : β}
    (h : x.map f = .ok b) : ∃ a, x = .ok a ∧ f a = b := by
  cases x with
  | error e => cases h
  | ok a => exact ⟨a, rfl, Except.ok.inj h⟩

/-- What a request other than a tick gives on a machine of the right shape. -/
inductive Gives (m : Machine) : Request → Served → Prop where
  | stepped {s : Stepped} (step : m.step = .ok s) :
    Gives m .step ⟨.outcome s.outcome, s.events, s.machine⟩
  | countedDown : Gives m .countDown ⟨.silence, [], m.countDown⟩
  | keySet (key : UInt8) (held : Bool) :
    Gives m (.setKey key held) ⟨.silence, [], m.setKey key held⟩
  | loaded {image : List UInt8} (fits : image.length ≤ Memory.maxImageSize) :
    Gives m (.load image) ⟨.refusal none, [], m.withImage image⟩
  | unloaded {image : List UInt8} (large : Memory.maxImageSize < image.length) :
    Gives m (.load image) ⟨.refusal (some .imageTooLarge), [], m⟩
  | reset : Gives m .reset ⟨.silence, [], new m.config⟩
  | reloaded {image : List UInt8} (fits : image.length ≤ Memory.maxImageSize) :
    Gives m (.reload image) ⟨.refusal none, [], (new m.config).withImage image⟩
  | unreloaded {image : List UInt8} (large : Memory.maxImageSize < image.length) :
    Gives m (.reload image) ⟨.refusal (some .imageTooLarge), [], new m.config⟩

/-- What is served on a request other than a tick is what such a request gives. -/
theorem gives_of_serve (hm : m.WellShaped) {r : Request} (single : r ≠ .tick) {s : Served}
    (h : m.serve r = .ok s) : m.Gives r s := by
  have full := hm.size_memory
  cases r with
  | tick => exact absurd rfl single
  | step =>
    obtain ⟨t, ht, _⟩ := exists_step hm
    rw [serve, ht] at h
    cases h
    exact .stepped ht
  | countDown =>
    cases h
    exact .countedDown
  | setKey key held =>
    cases h
    exact .keySet key held
  | load image =>
    rcases Nat.lt_or_ge Memory.maxImageSize image.length with hlt | hle
    · simp only [serve, load_of_lt hlt, Except.ok.injEq] at h
      exact h ▸ .unloaded hlt
    · simp only [serve, load_of_le full hle, Except.ok.injEq] at h
      exact h ▸ .loaded hle
  | reset =>
    rw [serve, reset_eq_new full] at h
    cases h
    exact .reset
  | reload image =>
    rcases Nat.lt_or_ge Memory.maxImageSize image.length with hlt | hle
    · rw [serve, reload_of_lt full hlt] at h
      cases h
      exact .unreloaded hlt
    · rw [serve, reload_of_le full hle] at h
      cases h
      exact .reloaded hle

/-- Says of what is served that no step was made for it: nothing is told, nothing is reported, and the
    choices of the host stay. -/
structure Still (m : Machine) (s : Served) : Prop where
  events : s.events = []
  answer : s.answer = .silence ∨ ∃ cause, s.answer = .refusal cause
  config : s.machine.config = m.config

/-- No step is made for a request that is neither a step nor a tick. -/
theorem still_of_serve {r : Request} (single : r ≠ .tick) (other : r ≠ .step) {s : Served}
    (h : m.serve r = .ok s) : m.Still s := by
  cases r with
  | tick => exact absurd rfl single
  | step => exact absurd rfl other
  | countDown | setKey key held =>
    cases h
    exact ⟨rfl, .inl rfl, rfl⟩
  | load image =>
    rw [serve] at h
    split at h
    · rename_i loaded hl
      cases h
      exact ⟨rfl, .inr ⟨none, rfl⟩, config_of_load hl⟩
    · rename_i cause hl
      cases h
      exact ⟨rfl, .inr ⟨some cause, rfl⟩, rfl⟩
    · cases h
  | reset =>
    obtain ⟨cleared, hc, rfl⟩ := exists_of_map_eq_ok h
    exact ⟨rfl, .inl rfl, config_of_reset hc⟩
  | reload image =>
    obtain ⟨after, hr, rfl⟩ := exists_of_map_eq_ok h
    exact ⟨rfl, .inr ⟨after.1, rfl⟩, config_of_reload hr⟩

/-- A request other than a tick is a step, or none is made for it. -/
theorem serve_cases {r : Request} (single : r ≠ .tick) {s : Served} (h : m.serve r = .ok s) :
    (r = .step ∧ ∃ t, m.step = .ok t ∧ s = ⟨.outcome t.outcome, t.events, t.machine⟩) ∨
      (r ≠ .step ∧ m.Still s) := by
  by_cases hr : r = .step
  · subst hr
    obtain ⟨t, ht, rfl⟩ := exists_of_map_eq_ok h
    exact .inl ⟨rfl, t, ht, rfl⟩
  · exact .inr ⟨hr, still_of_serve single hr h⟩

/-- Only a tick is answered with a report. -/
theorem answer_ne_report {r : Request} (single : r ≠ .tick) {s : Served} (h : m.serve r = .ok s)
    (report : TickReport) : s.answer ≠ .report report := by
  rcases serve_cases single h with ⟨_, t, _, rfl⟩ | ⟨_, still⟩
  · exact nofun
  · rcases still.answer with ha | ⟨cause, ha⟩
    · rw [ha]
      exact nofun
    · rw [ha]
      exact nofun

/-- A request other than a tick keeps the choices of the host. -/
theorem config_of_serve {r : Request} (single : r ≠ .tick) {s : Served} (h : m.serve r = .ok s) :
    s.machine.config = m.config := by
  rcases serve_cases single h with ⟨_, t, ht, rfl⟩ | ⟨_, still⟩
  · exact config_step ht
  · exact still.config

/-! ## §4. A burst is its steps. -/

/-- The outcomes of the steps among deeds. -/
def outcomes (ds : List Deed) : List Outcome := ds.filterMap Deed.outcome?

theorem outcomes_append (ds ds' : List Deed) : outcomes (ds ++ ds') = outcomes ds ++ outcomes ds' :=
  List.filterMap_append

theorem outcomes_stepDeed (m : Machine) (s : Stepped) (ds : List Deed) :
    outcomes (m.stepDeed s :: ds) = s.outcome :: outcomes ds := rfl

/-- What was told on deeds, in order. -/
def told (ds : List Deed) : List Event := ds.flatMap (·.served.events)

/-- What a deed in front tells comes first. -/
theorem append_told_cons (events : Array Event) (d : Deed) (ds : List Deed) :
    events ++ told (d :: ds) = events ++ d.served.events ++ told ds := by
  apply Array.toList_inj.mp
  simp only [Array.toList_appendList, told, List.flatMap_cons, List.append_assoc]

/-- Deeds that do the same to other machines leave the other machine. -/
theorem past_map_through (f : Machine → Machine) (ds : List Deed) :
    ∀ m : Machine, (f m).past (ds.map (Deed.through f)) = f (m.past ds) := by
  induction ds with
  | nil =>
    intro m
    rfl
  | cons d ds ih =>
    intro m
    exact ih d.served.machine

theorem outcomes_map_through (f : Machine → Machine) (ds : List Deed) :
    outcomes (ds.map (Deed.through f)) = outcomes ds := by
  rw [outcomes, List.filterMap_map]
  rfl

theorem told_map_through (f : Machine → Machine) (ds : List Deed) :
    told (ds.map (Deed.through f)) = told ds := by
  rw [told, List.flatMap_map]
  rfl

/-- A burst counts its steps, keeps the outcome of the last and hands their events on in order. -/
theorem burst_eq (budget : Nat) :
    ∀ (m : Machine) (report : TickReport) (events : Array Event),
      burst report events m budget = (m.burstDeeds budget).map fun ds =>
        (report.counting (outcomes ds), events ++ told ds, m.past ds) := by
  -- The report and the events grow along the way, so the induction is on any of them.
  induction budget with
  | zero =>
    intro m report events
    have he : events ++ told [] = events := Array.appendList_nil
    simp only [burst, burstDeeds, Except.map, he]
    rfl
  | succ budget ih =>
    intro m report events
    rcases hs : m.step with breach | s
    · simp only [burst, burstDeeds, hs, Except.map]
    · have he : ∀ ds, events ++ told (m.stepDeed s :: ds) = events ++ s.events ++ told ds :=
        fun ds => append_told_cons events (m.stepDeed s) ds
      have hr : ∀ ds, report.counting (outcomes (m.stepDeed s :: ds)) = _ :=
        fun ds => report.counting_cons s.outcome (outcomes ds)
      simp only [burst, burstDeeds, hs]
      by_cases hf : s.outcome.isFault
      · simp only [if_pos hf, Except.map, he, hr]
        rw [show told [] = [] from rfl, Array.appendList_nil]
        rfl
      · simp only [if_neg hf, ih]
        rcases s.machine.burstDeeds budget with breach | ds
        · rfl
        · simp only [Except.map, he, hr]
          rfl

/-- The steps of a burst are made one behind the other. -/
theorem linked_burstDeeds {budget : Nat} :
    ∀ {m : Machine} {ds : List Deed}, m.burstDeeds budget = .ok ds → m.Linked ds := by
  induction budget with
  | zero =>
    intro m ds h
    cases h
    exact .nil m
  | succ budget ih =>
    intro m ds h
    rw [burstDeeds] at h
    split at h
    · cases h
    · rename_i s hs
      split at h
      · cases h
        exact .step hs (.nil _)
      · obtain ⟨rest, hrest, rfl⟩ := exists_of_map_eq_ok h
        exact .step hs (ih hrest)

theorem request_of_mem_burstDeeds {budget : Nat} :
    ∀ {m : Machine} {ds : List Deed}, m.burstDeeds budget = .ok ds → ∀ d ∈ ds, d.request = .step := by
  induction budget with
  | zero =>
    intro m ds h d hd
    cases h
    cases hd
  | succ budget ih =>
    intro m ds h d hd
    rw [burstDeeds] at h
    split at h
    · cases h
    · split at h
      · cases h
        rw [List.mem_singleton.mp hd]
        rfl
      · obtain ⟨rest, hrest, rfl⟩ := exists_of_map_eq_ok h
        rcases List.mem_cons.mp hd with rfl | hd
        · rfl
        · exact ih hrest d hd

theorem deeds_single {r : Request} (single : r ≠ .tick) :
    m.deeds r = (m.serve r).map fun s => [⟨m, r, s⟩] := by
  cases r with
  | tick => exact absurd rfl single
  | _ => rfl

/-- The deeds of a request start over if it does. -/
theorem startsOver_of_mem_deeds {r : Request} {ds : List Deed} (h : m.deeds r = .ok ds) {d : Deed}
    (hd : d ∈ ds) : d.request.startsOver = r.startsOver := by
  by_cases hr : r = .tick
  · subst hr
    obtain ⟨steps, hsteps, rfl⟩ := exists_of_map_eq_ok h
    rcases List.mem_append.mp hd with hd | hd
    · rw [request_of_mem_burstDeeds hsteps d hd]
      rfl
    · rw [List.mem_singleton.mp hd]
      rfl
  · rw [deeds_single hr] at h
    obtain ⟨s, _, rfl⟩ := exists_of_map_eq_ok h
    rw [List.mem_singleton.mp hd]

/-! ## §5. A request is its deeds, and a run is. -/

/-- Says of deeds that they are what happens on a request: they come to the same machine, they tell the
    same events, and a report is that of their steps. -/
structure Unrolls (m : Machine) (ds : List Deed) (s : Served) : Prop where
  linked : m.Linked ds
  machine : m.past ds = s.machine
  events : told ds = s.events
  report : ∀ report, s.answer = .report report →
    report = { steps := (outcomes ds).length, finalStep := (outcomes ds).getLast? }

/-- A request other than a tick is its own only deed. -/
theorem unrolls_single {r : Request} (single : r ≠ .tick) {s : Served} (h : m.serve r = .ok s) :
    m.deeds r = .ok [⟨m, r, s⟩] ∧ m.Unrolls [⟨m, r, s⟩] s := by
  constructor
  · rw [deeds_single single, h]
    rfl
  · exact
      { linked := .cons single h (.nil _)
        machine := rfl
        events := List.append_nil _
        report := fun report hr => absurd hr (answer_ne_report single h report) }

/-- A tick is its steps and a count of the timers. -/
theorem exists_deeds_of_tick {s : Served} (h : m.serve .tick = .ok s) :
    ∃ ds, m.deeds .tick = .ok ds ∧ m.Unrolls ds s := by
  obtain ⟨t, ht, rfl⟩ := exists_of_map_eq_ok h
  rw [tick, burst_eq] at ht
  rcases hds : m.burstDeeds m.config.stepsPerTick.toNat with breach | ds
  · simp only [hds, Except.map, reduceCtorEq] at ht
  simp only [hds, Except.map, Except.ok.injEq] at ht
  subst ht
  let last : Deed := ⟨m.past ds, .countDown, ⟨.silence, [], (m.past ds).countDown⟩⟩
  -- The count of the timers is no step and tells nothing.
  have hsteps : outcomes (ds ++ [last]) = outcomes ds := by
    rw [outcomes_append]
    exact List.append_nil _
  have htold : told (ds ++ [last]) = told ds := by
    rw [told, List.flatMap_append]
    exact List.append_nil _
  refine ⟨ds ++ [last], ?_, ?_⟩
  · rw [deeds, hds]
    rfl
  · constructor
    case linked => exact (linked_burstDeeds hds).append (linked_countDown _)
    case machine => rw [past_append]; rfl
    case events =>
      rw [htold, Array.toList_appendList]
      rfl
    case report =>
      intro report hr
      cases hr
      rw [hsteps, TickReport.counting, Nat.zero_add, Option.or_none]

/-- A request that is served is what its deeds are in a row. -/
theorem exists_deeds_of_serve {r : Request} {s : Served} (h : m.serve r = .ok s) :
    ∃ ds, m.deeds r = .ok ds ∧ m.Unrolls ds s := by
  by_cases hr : r = .tick
  · subst hr
    exact exists_deeds_of_tick h
  · exact ⟨_, unrolls_single hr h⟩

/-- A request other than a tick in front of others adds itself to their deeds. -/
theorem deedsAll_cons {r : Request} (single : r ≠ .tick) {s : Served} (h : m.serve r = .ok s)
    (rs : List Request) : m.deedsAll (r :: rs) = (s.machine.deedsAll rs).map (⟨m, r, s⟩ :: ·) := by
  simp only [deedsAll, (unrolls_single single h).1]
  rfl

/-- So does a step. -/
theorem deedsAll_step {s : Stepped} (h : m.step = .ok s) (rs : List Request) :
    m.deedsAll (.step :: rs) = (s.machine.deedsAll rs).map (m.stepDeed s :: ·) :=
  deedsAll_cons (by exact nofun) (serve_step h) rs

/-- Requests with a step in front come to what the step does and what the others do behind it. -/
theorem exists_step_of_deedsAll {rs : List Request} {ds : List Deed}
    (h : m.deedsAll (.step :: rs) = .ok ds) :
    ∃ s rest, m.step = .ok s ∧ s.machine.deedsAll rs = .ok rest ∧ ds = m.stepDeed s :: rest := by
  rcases hs : m.step with breach | s
  · simp only [deedsAll, deeds, serve, hs, Except.map, reduceCtorEq] at h
  · rw [deedsAll_step hs] at h
    obtain ⟨rest, hrest, rfl⟩ := exists_of_map_eq_ok h
    exact ⟨s, rest, rfl, hrest, rfl⟩

/-- Requests behind others come to the deeds of both. -/
theorem deedsAll_append {rs rs' : List Request} {ds' : List Deed} :
    ∀ {m : Machine} {ds : List Deed}, m.deedsAll rs = .ok ds → (m.past ds).deedsAll rs' = .ok ds' →
      m.deedsAll (rs ++ rs') = .ok (ds ++ ds') := by
  induction rs with
  | nil =>
    intro m ds h h'
    cases h
    exact h'
  | cons r rs ih =>
    intro m ds h h'
    rw [deedsAll] at h
    split at h
    · cases h
    · rename_i first hfirst
      obtain ⟨rest, hrest, rfl⟩ := exists_of_map_eq_ok h
      rw [past_append] at h'
      simp only [List.cons_append, deedsAll, hfirst, ih hrest h', Except.map, List.append_assoc]

/-- Says of a run what is served in it and what deeds it comes to. -/
structure Runs (m : Machine) (rs : List Request) (served : List Served) (ds : List Deed) : Prop where
  serves : m.serveAll rs = .ok served
  deeds : m.deedsAll rs = .ok ds
  linked : m.Linked ds
  past : m.past ds = m.behind served
  told : told ds = served.flatMap Served.events

/-- A run that is served is what its deeds are in a row. -/
theorem exists_runs_of_serveAll (rs : List Request) :
    ∀ {m : Machine} {served : List Served}, m.serveAll rs = .ok served →
      ∃ ds, m.Runs rs served ds := by
  induction rs with
  | nil =>
    intro m served h
    cases h
    exact ⟨[], rfl, rfl, .nil m, rfl, rfl⟩
  | cons r rs ih =>
    intro m served h
    have hall := h
    rw [serveAll] at h
    split at h
    · cases h
    · rename_i s hs
      obtain ⟨rest, hrest, rfl⟩ := exists_of_map_eq_ok h
      obtain ⟨ds, hd, hu⟩ := exists_deeds_of_serve hs
      -- The deeds of the later requests start from the machine that those of the first leave.
      rw [← hu.machine] at hrest
      obtain ⟨later, hlater⟩ := ih hrest
      refine ⟨ds ++ later, hall, ?_, hu.linked.append hlater.linked, ?_, ?_⟩
      · simp only [deedsAll, hd, hlater.deeds, Except.map]
      · rw [past_append, hlater.past, hu.machine]
        rfl
      · rw [Machine.told, List.flatMap_append]
        show Machine.told ds ++ Machine.told later = s.events ++ rest.flatMap Served.events
        rw [hu.events, hlater.told]

/-- A request whose deeds are done is served. -/
theorem exists_serve_of_deeds {r : Request} {ds : List Deed} (h : m.deeds r = .ok ds) :
    ∃ s, m.serve r = .ok s := by
  by_cases hr : r = .tick
  · subst hr
    obtain ⟨steps, hsteps, _⟩ := exists_of_map_eq_ok h
    simp only [serve, tick, burst_eq, hsteps, Except.map]
    exact ⟨_, rfl⟩
  · rw [deeds_single hr] at h
    obtain ⟨s, hs, _⟩ := exists_of_map_eq_ok h
    exact ⟨s, hs⟩

/-- The deeds of a request are made one behind the other. -/
theorem linked_of_deeds {r : Request} {ds : List Deed} (h : m.deeds r = .ok ds) : m.Linked ds := by
  obtain ⟨s, hs⟩ := exists_serve_of_deeds h
  obtain ⟨_, hd, hu⟩ := exists_deeds_of_serve hs
  obtain rfl := Except.ok.inj (h.symm.trans hd)
  exact hu.linked

/-- Requests whose deeds are done are served. -/
theorem exists_serveAll_of_deedsAll (rs : List Request) :
    ∀ {m : Machine} {ds : List Deed}, m.deedsAll rs = .ok ds → ∃ served, m.serveAll rs = .ok served := by
  induction rs with
  | nil =>
    intro m ds _
    exact ⟨[], rfl⟩
  | cons r rs ih =>
    intro m ds h
    rw [deedsAll] at h
    split at h
    · cases h
    · rename_i first hfirst
      obtain ⟨s, hs⟩ := exists_serve_of_deeds hfirst
      obtain ⟨_, hd, hu⟩ := exists_deeds_of_serve hs
      obtain rfl := Except.ok.inj (hfirst.symm.trans hd)
      obtain ⟨rest, hrest, _⟩ := exists_of_map_eq_ok h
      rw [hu.machine] at hrest
      obtain ⟨served, hserved⟩ := ih hrest
      exact ⟨s :: served, by simp only [serveAll, hs, hserved, Except.map]⟩

/-- Requests whose deeds are done are a run with these deeds. -/
theorem exists_runs_of_deedsAll {rs : List Request} {ds : List Deed} (h : m.deedsAll rs = .ok ds) :
    ∃ served, m.Runs rs served ds := by
  obtain ⟨served, hserved⟩ := exists_serveAll_of_deedsAll rs h
  obtain ⟨_, hruns⟩ := exists_runs_of_serveAll rs hserved
  obtain rfl := Except.ok.inj (h.symm.trans hruns.deeds)
  exact ⟨served, hruns⟩

/-- A run of a well-shaped machine is what its deeds are in a row. -/
theorem exists_runs (rs : List Request) (hm : m.WellShaped) : ∃ served ds, m.Runs rs served ds := by
  obtain ⟨served, h, _⟩ := exists_serveAll rs hm
  exact ⟨served, exists_runs_of_serveAll rs h⟩

end Machine

end Chip8
