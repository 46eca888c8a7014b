/-
  Chip8.Proofs.Choosing — what the choice about an empty return comes to.

  The host chooses what a return does with no call open: it is a fault, or it goes on behind the start of
  the program.  A machine on which it is a fault is strict here, and the same machine with the other choice
  is lenient.  Driven alike, the two go side by side until the strict one underflows: the choice is looked
  at in that place only.  There they part, since the strict machine stops and the lenient one returns.  The
  lenient machine itself never underflows.

  Main statements: `step_lenient` (steps), `alongside_of_deeds` (requests), `alongside_of_deedsAll` and
  `serveAll_lenient` (the two runs), `Linked.calm` (the lenient one) and `parts_at_underflow` (all of it).
-/
import Chip8.Proofs.Chronicling
import Chip8.Proofs.Status
import Chip8.Proofs.Surroundings

namespace Chip8

/-! ## §1. The other choice. -/

/-- The machine on which a return with no call open goes on behind the start of the program. -/
def Machine.lenient (m : Machine) : Machine :=
  m.withConfig { m.config with emptyReturn := .toProgramStart }

/-- What the step gives, on the lenient machine. -/
def Stepped.lenient (s : Stepped) : Stepped := { s with machine := s.machine.lenient }

/-- What is served, by the lenient machine. -/
def Served.lenient (s : Served) : Served := { s with machine := s.machine.lenient }

namespace Deed

/-- The deed, done to the lenient machine. -/
def lenient (d : Deed) : Deed := ⟨d.before.lenient, d.request, d.served.lenient⟩

/-- Says that the deed is a step that ends in an underflow of the call stack. -/
def Underflows (d : Deed) : Prop := d.outcome? = some (.fault .stackUnderflow)

instance (d : Deed) : Decidable d.Underflows := inferInstanceAs (Decidable (_ = _))

/-- Says that the deed underflows where the other one returns to behind the start of the program. -/
structure Parts (d d' : Deed) : Prop where
  underflows : d.Underflows
  before : d'.before = d.before.lenient
  outcome : d'.outcome? = some (.retired .returnFromCall)
  machine : d'.served.machine =
    { d'.before with registers := { d'.before.registers with pc := 0x202 }, status := .running }

end Deed

namespace Machine

variable {m : Machine}

/-- Says that a machine may underflow but is not stopped by that. -/
structure Strict (m : Machine) : Prop where
  shaped : m.WellShaped
  choice : m.config.emptyReturn = .fault
  status : m.status ≠ .stopped .stackUnderflow

theorem new_lenient (m : Machine) : new m.lenient.config = (new m.config).lenient := by
  simp only [new, lenient, withConfig]

theorem withImage_lenient (m : Machine) (image : List UInt8) :
    m.lenient.withImage image = (m.withImage image).lenient := rfl

theorem WellShaped.lenient (hm : m.WellShaped) : m.lenient.WellShaped :=
  hm.of_parts rfl hm.regular hm.depth_le

/-! ## §2. Steps. -/

/-- A step of a strict machine at a return with no call open underflows. -/
theorem outcome_of_emptyReturn (choice : m.config.emptyReturn = .fault)
    (hc : m.current? = some .returnFromCall) (hd : m.stack.depth = 0) {s : Stepped}
    (h : m.step = .ok s) : s.outcome = .fault .stackUnderflow := by
  rcases step_cases h with ⟨cause, hs, rfl⟩ | ⟨live, cause, hw, rfl⟩ | ⟨live, w, hw, ht⟩
  · rw [current?_of_stopped hs] at hc
    cases hc
  · rw [current?_of_readWord_error hw] at hc
    cases hc
  · rw [current?_of_readWord live hw, Option.some.injEq] at hc
    have hp : m.perform .returnFromCall = m.giveUp (.fault .stackUnderflow) :=
      returnFromCall_of_fault hd choice
    rw [hc, dispatch, hp] at ht
    cases ht
    rfl

/-- A step that does not underflow comes to the same on the lenient machine. -/
theorem step_lenient_of_calm (choice : m.config.emptyReturn = .fault) {s : Stepped}
    (h : m.step = .ok s) (calm : s.outcome ≠ .fault .stackUnderflow) :
    m.lenient.step = .ok s.lenient := by
  have same : m.current? = some .returnFromCall → m.stack.depth = 0 →
      EmptyReturn.toProgramStart = m.config.emptyReturn :=
    fun hc hd => absurd (outcome_of_emptyReturn choice hc hd h) calm
  obtain ⟨s', hs, ho, hmachine⟩ : ∃ s', m.lenient.step = .ok s' ∧ s'.outcome = s.outcome ∧
      s'.machine = s.machine.withConfig { m.config with emptyReturn := .toProgramStart } :=
    exists_step_withConfig same h
  have he : s'.events = s.events := by
    rw [events_of_step hs, events_of_step h, ho]
    rfl
  have hl : s.machine.lenient = s'.machine := by
    rw [hmachine, lenient, config_step h]
  rw [hs, Stepped.lenient, hl, ← he, ← ho]

/-- Where a step of a strict machine underflows, the lenient one returns to behind the start of the
    program. -/
theorem exists_step_lenient (hm : m.Strict) {s : Stepped} (h : m.step = .ok s)
    (under : s.outcome = .fault .stackUnderflow) :
    ∃ s', m.lenient.step = .ok s' ∧ s'.outcome = .retired .returnFromCall ∧
      s'.machine = { m.lenient with
        registers := { m.lenient.registers with pc := 0x202 }, status := .running } := by
  rcases hl : m.status.stoppedBy with _ | cause
  · obtain ⟨hf, hd, _⟩ := (outcome_eq_fault_iff hl (stepsTo_of_step hm.shaped h) _).mp under
    have hf' : m.lenient.Fetches 0x00EE := hf.of_parts rfl rfl
    have hi : Instruction.decode 0x00EE = .returnFromCall := rfl
    have hp : m.lenient.perform (Instruction.decode 0x00EE) =
        m.lenient.done (.jump (Memory.programStart + 2)) :=
      returnFromCall_of_toProgramStart hd rfl
    refine ⟨_, step_of_done (m := m.lenient) hl hf' hp, ?_, ?_⟩
    · rw [outcome_settle, hi]
      rfl
    · rw [machine_settle, hi]
      rfl
  -- A machine that is stopped answers with what stopped it, and that was no underflow.
  · have hs := stoppedBy_eq_some_iff.mp hl
    rw [step_of_stopped hs, Except.ok.injEq] at h
    rw [← h] at under
    cases under
    exact absurd hs hm.status

/-- No step of a lenient machine underflows, unless it was stopped by an underflow before. -/
theorem outcome_ne_underflow (hm : m.WellShaped) (choice : m.config.emptyReturn = .toProgramStart)
    (hs : m.status ≠ .stopped .stackUnderflow) {s : Stepped} (h : m.step = .ok s) :
    s.outcome ≠ .fault .stackUnderflow := by
  intro under
  rcases hl : m.status.stoppedBy with _ | cause
  · obtain ⟨_, _, hfault⟩ := (outcome_eq_fault_iff hl (stepsTo_of_step hm h) _).mp under
    rw [choice] at hfault
    cases hfault
  · have hstopped := stoppedBy_eq_some_iff.mp hl
    rw [step_of_stopped hstopped, Except.ok.injEq] at h
    rw [← h] at under
    cases under
    exact absurd hstopped hs

/-! ## §3. Deeds side by side. -/

/-- Says of the deeds of a strict machine and of the lenient one that they are alike, or that they are
    alike up to a step where the strict machine underflows and the lenient one returns. -/
inductive Alongside : List Deed → List Deed → Prop where
  | alike {ds : List Deed} (calm : ∀ d ∈ ds, ¬d.Underflows) : Alongside ds (ds.map Deed.lenient)
  | parted {earlier : List Deed} {d d' : Deed} (calm : ∀ d ∈ earlier, ¬d.Underflows) (parts : d.Parts d')
    (later later' : List Deed) :
    Alongside (earlier ++ d :: later) (earlier.map Deed.lenient ++ d' :: later')

theorem Alongside.nil : Alongside [] [] := .alike fun _ hd => nomatch hd

theorem Alongside.of_parts {d d' : Deed} (parts : d.Parts d') (later later' : List Deed) :
    Alongside (d :: later) (d' :: later') :=
  @parted [] d d' (fun _ hd => nomatch hd) parts later later'

/-- What is alongside stays so behind deeds that are alike. -/
theorem Alongside.behind {front ds ds' : List Deed} (calm : ∀ d ∈ front, ¬d.Underflows)
    (h : Alongside ds ds') : Alongside (front ++ ds) (front.map Deed.lenient ++ ds') := by
  cases h with
  | alike calm' =>
    rw [← List.map_append]
    exact .alike fun d hd => (List.mem_append.mp hd).elim (calm d) (calm' d)
  | @parted earlier d d' calm' parts later later' =>
    rw [← List.append_assoc, ← List.append_assoc, ← List.map_append]
    exact .parted (fun d hd => (List.mem_append.mp hd).elim (calm d) (calm' d)) parts later later'

/-- Behind a parting it does not matter what follows. -/
theorem Alongside.append {ds ds' rest rest' : List Deed} (h : Alongside ds ds')
    (hrest : (∀ d ∈ ds, ¬d.Underflows) → Alongside rest rest') :
    Alongside (ds ++ rest) (ds' ++ rest') := by
  cases h with
  | alike calm => exact (hrest calm).behind calm
  | parted calm parts later later' =>
    rw [List.append_assoc, List.append_assoc]
    exact .parted calm parts (later ++ rest) (later' ++ rest')

/-- Where nothing underflows, the deeds are alike. -/
theorem Alongside.eq_map {ds ds' : List Deed} (h : Alongside ds ds') (calm : ∀ d ∈ ds, ¬d.Underflows) :
    ds' = ds.map Deed.lenient := by
  cases h with
  | alike _ => rfl
  | parted _ parts later later' =>
    exact absurd parts.underflows (calm _ (List.mem_append_right _ List.mem_cons_self))

/-- Deeds that are alike leave machines that are alike. -/
theorem past_map_lenient (ds : List Deed) :
    ∀ m : Machine, m.lenient.past (ds.map Deed.lenient) = (m.past ds).lenient :=
  past_map_through Machine.lenient ds

theorem outcomes_map_lenient (ds : List Deed) : outcomes (ds.map Deed.lenient) = outcomes ds :=
  outcomes_map_through Machine.lenient ds

theorem told_map_lenient (ds : List Deed) : told (ds.map Deed.lenient) = told ds :=
  told_map_through Machine.lenient ds

/-- Only a step underflows. -/
theorem not_underflows {r : Request} (single : r ≠ .tick) (other : r ≠ .step) {s : Served}
    (h : m.serve r = .ok s) : ¬(Deed.mk m r s).Underflows := by
  have still := still_of_serve single other h
  unfold Deed.Underflows Deed.outcome?
  rcases still.answer with ha | ⟨cause, ha⟩
  · rw [ha]
    exact nofun
  · rw [ha]
    exact nofun

/-- A single request that does not underflow leaves a machine that is not stopped by an underflow, if it
    finds one. -/
theorem status_of_serve (hm : m.WellShaped) (hs : m.status ≠ .stopped .stackUnderflow) {r : Request}
    (single : r ≠ .tick) {s : Served} (h : m.serve r = .ok s) (calm : ¬(Deed.mk m r s).Underflows) :
    s.machine.status ≠ .stopped .stackUnderflow := by
  cases gives_of_serve hm single h with
  | stepped step =>
    intro hstopped
    exact calm (congrArg some ((outcome_eq_fault_iff_status step).mpr hstopped))
  | countedDown | keySet key held | loaded fits | unloaded large => exact hs
  | reset | reloaded fits | unreloaded large => exact nofun

/-- Deeds that do not underflow keep a machine strict. -/
theorem Linked.strict {ds : List Deed} (h : m.Linked ds) :
    m.Strict → (∀ d ∈ ds, ¬d.Underflows) → (m.past ds).Strict := by
  induction h with
  | nil m => exact fun hm _ => hm
  | cons single serves rest ih =>
    intro hm calm
    have hi := intact_of_serve hm.shaped serves
    refine ih ⟨hi.shaped, ?_, ?_⟩ fun d hd => calm d (List.mem_cons_of_mem _ hd)
    · rw [hi.config]
      exact hm.choice
    · exact status_of_serve hm.shaped hm.status single serves (calm _ List.mem_cons_self)

/-- A lenient machine never underflows. -/
theorem Linked.calm {ds : List Deed} (h : m.Linked ds) :
    m.WellShaped → m.config.emptyReturn = .toProgramStart → m.status ≠ .stopped .stackUnderflow →
      ∀ d ∈ ds, ¬d.Underflows := by
  induction h with
  | nil m => exact fun _ _ _ _ hd => nomatch hd
  | @cons m r s ds single serves rest ih =>
    intro hm choice hs
    have hi := intact_of_serve hm serves
    have hcalm : ¬(Deed.mk m r s).Underflows := by
      rcases serve_cases single serves with ⟨rfl, t, ht, rfl⟩ | ⟨other, _⟩
      · exact fun under => outcome_ne_underflow hm choice hs ht (Option.some.inj under)
      · exact not_underflows single other serves
    have hrest := ih hi.shaped ((congrArg Config.emptyReturn hi.config).trans choice)
      (status_of_serve hm hs single serves hcalm)
    intro d hd
    rcases List.mem_cons.mp hd with rfl | hd
    · exact hcalm
    · exact hrest d hd

/-! ## §4. Requests side by side. -/

/-- A step of a strict machine parts from that of the lenient one, or it comes to the same. -/
theorem parts_or_alike (hm : m.Strict) {s s' : Stepped} (h : m.step = .ok s)
    (h' : m.lenient.step = .ok s') :
    (m.stepDeed s).Parts (m.lenient.stepDeed s') ∨ ¬(m.stepDeed s).Underflows ∧ s' = s.lenient := by
  by_cases under : s.outcome = .fault .stackUnderflow
  · obtain ⟨t, ht, ho, hmachine⟩ := exists_step_lenient hm h under
    obtain rfl := Except.ok.inj (ht.symm.trans h')
    exact .inl ⟨congrArg some under, rfl, congrArg some ho, hmachine⟩
  · have ht := step_lenient_of_calm hm.choice h under
    exact .inr ⟨fun hu => under (Option.some.inj hu), Except.ok.inj (h'.symm.trans ht)⟩

/-- The steps of a burst. -/
theorem alongside_of_burstDeeds (budget : Nat) :
    ∀ {m : Machine} {ds ds' : List Deed}, m.Strict → m.burstDeeds budget = .ok ds →
      m.lenient.burstDeeds budget = .ok ds' → Alongside ds ds' := by
  induction budget with
  | zero =>
    intro m ds ds' _ h h'
    cases h
    cases h'
    exact .nil
  | succ budget ih =>
    intro m ds ds' hm h h'
    rcases hs : m.step with breach | s
    · simp only [burstDeeds, hs, reduceCtorEq] at h
    rcases hs' : m.lenient.step with breach | s'
    · simp only [burstDeeds, hs', reduceCtorEq] at h'
    simp only [burstDeeds, hs] at h
    simp only [burstDeeds, hs'] at h'
    rcases parts_or_alike hm hs hs' with parts | ⟨hcalm, rfl⟩
    -- The strict machine ends its burst with this step; what the lenient one still does is its own affair.
    · have ho : s.outcome = .fault .stackUnderflow := Option.some.inj parts.underflows
      have ho' : s'.outcome = .retired .returnFromCall := Option.some.inj parts.outcome
      simp only [ho, Outcome.isFault, if_true, Except.ok.injEq] at h
      simp only [ho', Outcome.isFault, Bool.false_eq_true, if_false] at h'
      obtain ⟨rest', _, rfl⟩ := exists_of_map_eq_ok h'
      rw [← h]
      exact .of_parts parts [] rest'
    · have calm : ∀ d ∈ [m.stepDeed s], ¬d.Underflows := fun d hd => List.mem_singleton.mp hd ▸ hcalm
      have hsame : s.lenient.outcome = s.outcome := rfl
      rw [hsame] at h'
      by_cases hf : s.outcome.isFault
      · rw [if_pos hf, Except.ok.injEq] at h h'
        rw [← h, ← h']
        exact .alike calm
      · rw [if_neg hf] at h h'
        obtain ⟨rest, hrest, rfl⟩ := exists_of_map_eq_ok h
        obtain ⟨rest', hrest', rfl⟩ := exists_of_map_eq_ok h'
        have hstrict : s.machine.Strict := (Linked.step hs (.nil _)).strict hm calm
        exact (ih hstrict hrest hrest').behind calm

/-- A request that is neither a step nor a tick comes to the same on the lenient machine. -/
theorem serve_lenient_of_still (hm : m.WellShaped) {r : Request} (single : r ≠ .tick)
    (other : r ≠ .step) {s : Served} (h : m.serve r = .ok s) : m.lenient.serve r = .ok s.lenient := by
  have full := hm.size_memory
  have full' : m.lenient.memory.size = Memory.capacity := full
  cases gives_of_serve hm single h with
  | stepped step => exact absurd rfl other
  | countedDown | keySet key held => rfl
  | loaded fits => simp only [serve, load_of_le full' fits, withImage_lenient, Served.lenient]
  | unloaded large => simp only [serve, load_of_lt large, Served.lenient]
  | reset => simp only [serve, reset_eq_new full', Except.map, new_lenient, Served.lenient]
  | reloaded fits =>
    simp only [serve, reload_of_le full' fits, Except.map, new_lenient, withImage_lenient, Served.lenient]
  | unreloaded large =>
    simp only [serve, reload_of_lt full' large, Except.map, new_lenient, Served.lenient]

/-- A single request. -/
theorem alongside_of_serve (hm : m.Strict) {r : Request} (single : r ≠ .tick) {s s' : Served}
    (h : m.serve r = .ok s) (h' : m.lenient.serve r = .ok s') :
    Alongside [⟨m, r, s⟩] [⟨m.lenient, r, s'⟩] := by
  rcases serve_cases single h with ⟨rfl, t, ht, rfl⟩ | ⟨other, _⟩
  · obtain ⟨t', ht', rfl⟩ := exists_of_map_eq_ok h'
    rcases parts_or_alike hm ht ht' with parts | ⟨hcalm, rfl⟩
    · exact .of_parts parts [] []
    · exact .alike fun d hd => List.mem_singleton.mp hd ▸ hcalm
  · have hcalm := not_underflows single other h
    obtain rfl := Except.ok.inj ((serve_lenient_of_still hm.shaped single other h).symm.trans h')
    exact .alike fun d hd => List.mem_singleton.mp hd ▸ hcalm

/-- Requests that come to deeds. -/
theorem alongside_of_deeds (hm : m.Strict) {r : Request} {ds ds' : List Deed} (h : m.deeds r = .ok ds)
    (h' : m.lenient.deeds r = .ok ds') : Alongside ds ds' := by
  by_cases hr : r = .tick
  · subst hr
    obtain ⟨steps, hsteps, rfl⟩ := exists_of_map_eq_ok h
    obtain ⟨steps', hsteps', rfl⟩ := exists_of_map_eq_ok h'
    have halong := alongside_of_burstDeeds _ hm hsteps hsteps'
    refine halong.append fun calm => ?_
    -- The count behind steps that are alike is alike.
    rw [halong.eq_map calm, past_map_lenient]
    refine .alike ?_
    intro d hd
    rw [List.mem_singleton.mp hd]
    exact nofun
  · rw [deeds_single hr] at h h'
    obtain ⟨s, hs, rfl⟩ := exists_of_map_eq_ok h
    obtain ⟨s', hs', rfl⟩ := exists_of_map_eq_ok h'
    exact alongside_of_serve hm hr hs hs'

/-- What is served on a tick is told by its deeds. -/
theorem served_of_tick {s : Served} (h : m.serve .tick = .ok s) {ds : List Deed} (hu : m.Unrolls ds s) :
    s = { answer := .report { steps := (outcomes ds).length, finalStep := (outcomes ds).getLast? }
          events := told ds, machine := m.past ds } := by
  obtain ⟨t, _, rfl⟩ := exists_of_map_eq_ok h
  rw [← hu.report _ rfl, hu.events, hu.machine]

/-- A request that comes to deeds none of which underflows is served alike. -/
theorem serve_lenient_of_calm (hm : m.Strict) {r : Request} {s : Served} (h : m.serve r = .ok s)
    {ds : List Deed} (hd : m.deeds r = .ok ds) (calm : ∀ d ∈ ds, ¬d.Underflows) :
    m.lenient.serve r = .ok s.lenient := by
  obtain ⟨s', h', _⟩ := exists_serve hm.shaped.lenient r
  by_cases hr : r = .tick
  · subst hr
    obtain ⟨_, hd₀, hu⟩ := exists_deeds_of_serve h
    obtain rfl := Except.ok.inj (hd.symm.trans hd₀)
    obtain ⟨ds', hd', hu'⟩ := exists_deeds_of_serve h'
    obtain rfl := (alongside_of_deeds hm hd hd').eq_map calm
    rw [h', served_of_tick h' hu', served_of_tick h hu, outcomes_map_lenient, told_map_lenient,
      past_map_lenient]
    rfl
  · rw [(unrolls_single hr h).1, Except.ok.injEq] at hd
    have halike := (alongside_of_serve hm hr h h').eq_map fun d hmem => calm d (hd ▸ hmem)
    rw [h', (Deed.mk.inj (List.cons.inj halike).1).2.2]

/-! ## §5. Runs side by side. -/

theorem alongside_of_deedsAll (rs : List Request) :
    ∀ {m : Machine} {ds ds' : List Deed}, m.Strict → m.deedsAll rs = .ok ds →
      m.lenient.deedsAll rs = .ok ds' → Alongside ds ds' := by
  induction rs with
  | nil =>
    intro m ds ds' _ h h'
    cases h
    cases h'
    exact .nil
  | cons r rs ih =>
    intro m ds ds' hm h h'
    rw [deedsAll] at h h'
    split at h
    · cases h
    split at h'
    · cases h'
    rename_i first hfirst _ first' hfirst'
    obtain ⟨rest, hrest, rfl⟩ := exists_of_map_eq_ok h
    obtain ⟨rest', hrest', rfl⟩ := exists_of_map_eq_ok h'
    have halong := alongside_of_deeds hm hfirst hfirst'
    refine halong.append fun calm => ?_
    rw [halong.eq_map calm, past_map_lenient] at hrest'
    exact ih ((linked_of_deeds hfirst).strict hm calm) hrest hrest'

/-- Requests that come to deeds none of which underflows are served alike. -/
theorem serveAll_lenient (rs : List Request) :
    ∀ {m : Machine} {served : List Served} {ds : List Deed}, m.Strict → m.serveAll rs = .ok served →
      m.deedsAll rs = .ok ds → (∀ d ∈ ds, ¬d.Underflows) →
        m.lenient.serveAll rs = .ok (served.map Served.lenient) := by
  induction rs with
  | nil =>
    intro m served ds _ h _ _
    cases h
    rfl
  | cons r rs ih =>
    intro m served ds hm h hd calm
    rw [serveAll] at h
    split at h
    · cases h
    rename_i s hs
    obtain ⟨later, hlater, rfl⟩ := exists_of_map_eq_ok h
    obtain ⟨first, hfirst, hu⟩ := exists_deeds_of_serve hs
    simp only [deedsAll, hfirst, hu.machine] at hd
    obtain ⟨rest, hrest, rfl⟩ := exists_of_map_eq_ok hd
    have hcalm : ∀ d ∈ first, ¬d.Underflows := fun d hmem => calm d (List.mem_append_left _ hmem)
    have hstrict : s.machine.Strict := hu.machine ▸ hu.linked.strict hm hcalm
    have hrun := ih hstrict hlater hrest fun d hmem => calm d (List.mem_append_right _ hmem)
    have hsame : s.lenient.machine = s.machine.lenient := rfl
    simp only [serveAll, serve_lenient_of_calm hm hs hfirst hcalm, hsame, hrun, Except.map, List.map_cons]

/-- The choice about an empty return matters at an underflow and nowhere else.  Take a well-shaped machine
    on which an empty return is a fault and that is not stopped by one, and the same machine with the other
    choice, and let the same requests be served to both.  If nothing underflows on the first, the two come
    to the same: all answers, all events and, but for the choice, all machines, those in front of and behind
    every step included.  Else they do so up to the first step that underflows; there the second machine
    returns to behind the start of the program, and nothing else of it changes but that it runs.  Nothing
    ever underflows on the second. -/
theorem parts_at_underflow (hm : m.WellShaped) (choice : m.config.emptyReturn = .fault)
    (status : m.status ≠ .stopped .stackUnderflow) (rs : List Request) :
    ∃ served ds served' ds', m.Runs rs served ds ∧ m.lenient.Runs rs served' ds' ∧
      Alongside ds ds' ∧
      ((∀ d ∈ ds, ¬d.Underflows) → served' = served.map Served.lenient) ∧
      ∀ d ∈ ds', ¬d.Underflows := by
  have hstrict : m.Strict := ⟨hm, choice, status⟩
  obtain ⟨served, ds, hruns⟩ := exists_runs rs hm
  obtain ⟨served', ds', hruns'⟩ := exists_runs rs hm.lenient
  refine ⟨served, ds, served', ds', hruns, hruns', ?_, ?_, ?_⟩
  · exact alongside_of_deedsAll rs hstrict hruns.deeds hruns'.deeds
  · intro calm
    have hrun := serveAll_lenient rs hstrict hruns.serves hruns.deeds calm
    exact Except.ok.inj (hruns'.serves.symm.trans hrun)
  · exact hruns'.linked.calm hm.lenient rfl status

/-- A program calls and returns and, inside a tick, returns once more. -/
theorem parts_at_underflow_called :
    let m : Machine := (new .standard).withImage [0x22, 0x04, 0x00, 0xEE, 0x00, 0xEE]
    let rs : List Request := [.step, .tick, .setKey 3 true, .step]
    m.WellShaped ∧ m.config.emptyReturn = .fault ∧ m.status ≠ .stopped .stackUnderflow ∧
      ∃ served ds served' ds', m.Runs rs served ds ∧ m.lenient.Runs rs served' ds' ∧
        Alongside ds ds' ∧
        outcomes ds = [.retired (.call 0x204), .retired .returnFromCall, .fault .stackUnderflow,
          .fault .stackUnderflow] ∧
        (outcomes ds').take 3 =
          [.retired (.call 0x204), .retired .returnFromCall, .retired .returnFromCall] ∧
        ∀ d ∈ ds', ¬d.Underflows := by
  intro m rs
  have hm : m.WellShaped := (wellShaped_new .standard).withImage _
  have hstatus : m.status ≠ .stopped .stackUnderflow := nofun
  obtain ⟨served, ds, served', ds', hruns, hruns', halong, _, hcalm⟩ :=
    parts_at_underflow hm rfl hstatus rs
  have hstrict : (m.deedsAll rs).map outcomes =
      .ok [.retired (.call 0x204), .retired .returnFromCall, .fault .stackUnderflow,
        .fault .stackUnderflow] := by
    decide +kernel
  have hlenient : (m.lenient.deedsAll rs).map (fun ds => (outcomes ds).take 3) =
      .ok [.retired (.call 0x204), .retired .returnFromCall, .retired .returnFromCall] := by
    decide +kernel
  rw [hruns.deeds] at hstrict
  rw [hruns'.deeds] at hlenient
  exact ⟨hm, rfl, hstatus, served, ds, served', ds', hruns, hruns', halong, Except.ok.inj hstrict,
    Except.ok.inj hlenient, hcalm⟩

end Machine

end Chip8
