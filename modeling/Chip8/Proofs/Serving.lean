/-
  Chip8.Proofs.Serving — what a host may do to a machine, and that none of it does harm.

  A host drives a machine by REQUESTS: steps, ticks, keys, images and resets.  Code that holds a machine
  in its hands may also work on its parts: run a single instruction that never stood in memory, write
  registers, use the call stack, draw.  `operate` carries out either kind.  Every machine that a host can
  make is well-shaped, and from a well-shaped machine every operation succeeds, on a machine that is
  well-shaped again and still has the choices of the host.

  Main statements: `exists_tick`, `exists_serve` and `exists_operate` (a tick, a request, an operation
  succeeds and does no harm), `operations_harmless` (any number of operations in a row does none).
-/
import Chip8.Machine.Tick
import Chip8.Proofs.Loading

namespace Chip8

/-! ## §1. Requests. -/

/-- What a host asks of a machine.  A step with a trace and one without are the same request: the events
    come with either, and a host that wants no trace does not look at them. -/
inductive Request where
  | step
  | tick
  /-- To count the timers down without a step. -/
  | countDown
  | setKey (key : UInt8) (held : Bool)
  /-- To write an image into the machine as it is. -/
  | load (image : List UInt8)
  | reset
  /-- To start over with an image. -/
  | reload (image : List UInt8)
  deriving Repr, DecidableEq

/-- What a host is told. -/
inductive Answer where
  | silence
  | outcome (outcome : Outcome)
  | report (report : TickReport)
  /-- Why an image was refused, if it was. -/
  | refusal (cause : Option Fault)
  deriving Repr, DecidableEq

/-- What a request gives: an answer, the events in order and the machine afterwards. -/
structure Served where
  answer : Answer
  events : List Event
  machine : Machine

namespace Machine

/-- Carries out a request. -/
def serve (m : Machine) : Request → Except Breach Served
  | .step => m.step.map fun s => ⟨.outcome s.outcome, s.events, s.machine⟩
  | .tick => m.tick.map fun t => ⟨.report t.report, t.events, t.machine⟩
  | .countDown => .ok ⟨.silence, [], m.countDown⟩
  | .setKey key held => .ok ⟨.silence, [], m.setKey key held⟩
  | .load image =>
    match m.load image with
    | .ok loaded => .ok ⟨.refusal none, [], loaded⟩
    -- A refused image leaves the machine as it was.
    | .error (.fault cause) => .ok ⟨.refusal (some cause), [], m⟩
    | .error (.breach breach) => .error breach
  | .reset => m.reset.map fun cleared => ⟨.silence, [], cleared⟩
  | .reload image => (m.reload image).map fun (cause, after) => ⟨.refusal cause, [], after⟩

end Machine

/-! ## §2. Operations. -/

/-- What code that holds a machine may do to it. -/
inductive Operation where
  | request (request : Request)
  /-- To perform an instruction where the machine stands, whether or not a word spells it. -/
  | perform (instruction : Instruction)
  | setV (register : Register) (value : UInt8)
  | setI (value : UInt16)
  | setPc (value : UInt16)
  | push (address : UInt16)
  | pop
  | peek
  | clearStack
  | clearScreen
  /-- To ask whether the screen was written to, and to forget that it was. -/
  | takeChanged
  | draw (x y : Nat) (rows : List UInt8)
  deriving Repr, DecidableEq

/-- Says that an operation is one that a host can ask for: coordinates far from the end of a word, and
    no more rows than a slice of the host has room for. -/
def Operation.Admissible : Operation → Prop
  | .draw x y rows => x ≤ 2 ^ 40 ∧ y ≤ 2 ^ 40 ∧ rows.length < 2 ^ 63
  | _ => True

namespace Machine

/-- Carries out an operation.  One that ends in a fault leaves behind what it left behind; only a breach
    is no machine at all. -/
def operate (m : Machine) : Operation → Except Breach Machine
  | .request r => (m.serve r).map Served.machine
  | .perform i =>
    match (m.perform i).result with
    | .error (.breach breach) => .error breach
    | _ => .ok (m.perform i).machine
  | .setV x value => .ok (m.setV x value)
  | .setI value => .ok (m.setI value)
  | .setPc value => .ok { m with registers := { m.registers with pc := value } }
  -- A stack that refuses leaves itself as it was, so the machine is.
  | .push address =>
    match m.stack.push address with
    | .ok stack => .ok { m with stack }
    | .error _ => .ok m
  | .pop =>
    match m.stack.pop with
    | .ok (_, stack) => .ok { m with stack }
    | .error (.fault _) => .ok m
    | .error (.breach breach) => .error breach
  | .peek => m.stack.peek.map fun _ => m
  | .clearStack => .ok { m with stack := m.stack.clear }
  | .clearScreen => .ok { m with framebuffer := m.framebuffer.clear }
  | .takeChanged => .ok { m with framebuffer := m.framebuffer.takeChanged.2 }
  | .draw x y rows =>
    (m.framebuffer.draw x y rows).map fun (_, framebuffer) => { m with framebuffer }

/-- Carries out operations in order. -/
def operateAll (m : Machine) : List Operation → Except Breach Machine
  | [] => .ok m
  | o :: os =>
    match m.operate o with
    | .error breach => .error breach
    | .ok after => after.operateAll os

/-! ## §3. Machines that came to no harm. -/

variable {m : Machine}

/-- Says that a machine is well-shaped and has the choices of the host that the earlier one had. -/
structure Intact (m after : Machine) : Prop where
  shaped : after.WellShaped
  config : after.config = m.config

theorem WellShaped.intact (hm : m.WellShaped) : m.Intact m := ⟨hm, rfl⟩

theorem Intact.trans {after later : Machine} (h : m.Intact after) (h' : after.Intact later) :
    m.Intact later :=
  ⟨h'.shaped, h'.config.trans h.config⟩

/-- A change to anything but memory does no harm if it leaves a regular grid and a stack that is not
    overfull. -/
theorem WellShaped.intact_of_parts (hm : m.WellShaped) {after : Machine}
    (memory : after.memory = m.memory) (pixels : Framebuffer.Regular after.framebuffer.pixels)
    (depth : after.stack.depth ≤ CallStack.capacity) (config : after.config = m.config) :
    m.Intact after :=
  ⟨hm.of_parts (congrArg Array.size memory) pixels depth, config⟩

theorem intact_step (hm : m.WellShaped) {s : Stepped} (h : m.step = .ok s) : m.Intact s.machine :=
  ⟨hm.step h, config_step h⟩

/-- An instruction gives up with the machine as it found it, or completes on a machine that came to no
    harm. -/
theorem exists_perform (hm : m.WellShaped) (i : Instruction) :
    (∃ cause, m.perform i = m.giveUp (.fault cause)) ∨
      ∃ flow after, m.perform i = after.done flow ∧ m.Intact after := by
  rcases refused_or_granted m i with ⟨d, cause, hd, hc⟩ | hg
  · exact .inl ⟨cause, perform_of_refusal? hd hc⟩
  · obtain ⟨flow, after, hp, hs⟩ := perform_of_granted hm hg
    have hk := kept_perform m i
    rw [hp] at hk
    exact .inr ⟨flow, after, hp, hs, hk.config⟩

/-! ## §4. Ticks. -/

/-- What every step keeps, a burst of steps keeps. -/
theorem burst_preserves {P : Machine → Prop}
    (hstep : ∀ m s, P m → step m = .ok s → P s.machine) (budget : Nat) :
    ∀ {m after : Machine} {report report' : TickReport} {events events' : Array Event},
      P m → burst report events m budget = .ok (report', events', after) → P after := by
  -- The report and the events only grow along the way; the induction is on the budget that is left.
  induction budget with
  | zero =>
    intro m after report report' events events' hm h
    cases h
    exact hm
  | succ budget ih =>
    intro m after report report' events events' hm h
    rw [burst] at h
    split at h
    · cases h
    · rename_i s hs
      split at h
      · cases h
        exact hstep m s hm hs
      · exact ih (hstep m s hm hs) h

/-- A burst of steps succeeds, and counts no more steps than it was allowed. -/
theorem exists_burst (budget : Nat) :
    ∀ {m : Machine} (report : TickReport) (events : Array Event), m.WellShaped →
      ∃ report' events' after, burst report events m budget = .ok (report', events', after) ∧
        report'.steps ≤ report.steps + budget := by
  induction budget with
  | zero =>
    intro m report events hm
    exact ⟨report, events, m, rfl, Nat.le_refl _⟩
  | succ budget ih =>
    intro m report events hm
    obtain ⟨s, hs, _⟩ := exists_step hm
    rw [burst, hs]
    by_cases hf : s.outcome.isFault
    -- A fault ends the burst, any other outcome leaves the rest of the budget to the next steps.
    · refine ⟨_, _, _, if_pos hf, ?_⟩
      show report.steps + 1 ≤ report.steps + (budget + 1)
      omega
    · obtain ⟨report', events', after, h, hle⟩ := ih
        { steps := report.steps + 1, finalStep := some s.outcome } (events ++ s.events) (hm.step hs)
      refine ⟨report', events', after, (if_neg hf).trans h, ?_⟩
      have hle' : report'.steps ≤ report.steps + 1 + budget := hle
      omega

/-- What every step and every count of the timers keeps, a tick keeps. -/
theorem tick_preserves {P : Machine → Prop}
    (hstep : ∀ m s, P m → step m = .ok s → P s.machine) (hcount : ∀ m, P m → P (countDown m))
    {t : Ticked} (hm : P m) (h : m.tick = .ok t) : P t.machine := by
  rw [tick] at h
  split at h
  · cases h
  · rename_i hb
    cases h
    exact hcount _ (burst_preserves hstep _ hm hb)

/-- A tick succeeds, counts no more steps than its budget and does no harm. -/
theorem exists_tick (hm : m.WellShaped) :
    ∃ t, m.tick = .ok t ∧ t.report.steps ≤ m.config.stepsPerTick.toNat ∧ m.Intact t.machine := by
  obtain ⟨report, events, after, hb, hle⟩ :=
    exists_burst m.config.stepsPerTick.toNat { steps := 0, finalStep := none } #[] hm
  have ht : m.tick = .ok ⟨report, events.toList, after.countDown⟩ := by
    simp only [tick, hb]
  rw [Nat.zero_add] at hle
  -- To be intact is kept by steps and by counts of the timers, hence by the tick.
  refine ⟨_, ht, hle, tick_preserves (P := m.Intact) ?_ ?_ hm.intact ht⟩
  · intro m' s h hs
    exact h.trans (intact_step h.shaped hs)
  · intro m' h
    exact h.trans (h.shaped.intact_of_parts rfl h.shaped.regular h.shaped.depth_le rfl)

/-! ## §5. Requests do no harm. -/

/-- A request to a well-shaped machine succeeds and does no harm. -/
theorem exists_serve (hm : m.WellShaped) (r : Request) :
    ∃ s, m.serve r = .ok s ∧ m.Intact s.machine := by
  have hn := wellShaped_new m.config
  cases r with
  | step =>
    obtain ⟨s, hs, _⟩ := exists_step hm
    exact ⟨_, congrArg (Except.map _) hs, intact_step hm hs⟩
  | tick =>
    obtain ⟨t, ht, _, hi⟩ := exists_tick hm
    exact ⟨_, congrArg (Except.map _) ht, hi⟩
  | countDown => exact ⟨_, rfl, hm.intact_of_parts rfl hm.regular hm.depth_le rfl⟩
  | setKey key held => exact ⟨_, rfl, hm.intact_of_parts rfl hm.regular hm.depth_le rfl⟩
  | load image =>
    rcases Nat.lt_or_ge Memory.maxImageSize image.length with hlt | hle
    · exact ⟨⟨.refusal (some .imageTooLarge), [], m⟩, by simp only [serve, load_of_lt hlt], hm.intact⟩
    · exact ⟨⟨.refusal none, [], m.withImage image⟩,
        by simp only [serve, load_of_le hm.size_memory hle], hm.withImage image, rfl⟩
  | reset => exact ⟨_, congrArg (Except.map _) (reset_eq_new hm.size_memory), hn, rfl⟩
  | reload image =>
    rcases Nat.lt_or_ge Memory.maxImageSize image.length with hlt | hle
    · exact ⟨_, congrArg (Except.map _) (reload_of_lt hm.size_memory hlt), hn, rfl⟩
    · exact ⟨_, congrArg (Except.map _) (reload_of_le hm.size_memory hle), hn.withImage image, rfl⟩

/-! ## §6. Operations do no harm. -/

/-- A stack that is not overfull takes an address or refuses it. -/
theorem depth_push {s t : CallStack} {address : UInt16} (h : s.push address = .ok t) :
    t.depth ≤ CallStack.capacity := by
  unfold CallStack.push at h
  split at h
  · rename_i hd
    cases h
    exact hd
  · cases h

/-- A stack that is not overfull gives an address or has none. -/
theorem exists_pop {s : CallStack} (h : s.depth ≤ CallStack.capacity) :
    (∃ address t, s.pop = .ok (address, t) ∧ t.depth ≤ CallStack.capacity) ∨
      ∃ cause, s.pop = .error (.fault cause) := by
  obtain ⟨slots, depth⟩ := s
  cases depth with
  | zero => exact .inr ⟨.stackUnderflow, rfl⟩
  | succ depth =>
    have hd : depth < 16 := h
    exact .inl ⟨_, { slots, depth }, dif_pos hd, Nat.le_of_lt hd⟩

/-- A sprite that a host can ask for is drawn. -/
theorem exists_draw_of_admissible (hm : m.WellShaped) {x y : Nat} {rows : List UInt8}
    (h : (Operation.draw x y rows).Admissible) :
    ∃ collision framebuffer, m.framebuffer.draw x y rows = .ok (collision, framebuffer) ∧
      Framebuffer.Regular framebuffer.pixels := by
  obtain ⟨hx, hy, hr⟩ := h
  obtain ⟨hx', hy'⟩ := Framebuffer.corner_fits hx hy hr
  obtain ⟨collision, pixels, _, hd, hp⟩ := Framebuffer.exists_draw hm.regular hx' hy'
  exact ⟨collision, _, hd, hp⟩

/-- An operation on a well-shaped machine succeeds and does no harm. -/
theorem exists_operate (hm : m.WellShaped) {o : Operation} (ho : o.Admissible) :
    ∃ after, m.operate o = .ok after ∧ m.Intact after := by
  cases o with
  | request r =>
    obtain ⟨s, hs, hi⟩ := exists_serve hm r
    exact ⟨_, congrArg (Except.map _) hs, hi⟩
  | perform i =>
    rcases exists_perform hm i with ⟨cause, hp⟩ | ⟨flow, after, hp, hi⟩
    · exact ⟨m, by simp only [operate, hp, giveUp], hm.intact⟩
    · exact ⟨after, by simp only [operate, hp, done], hi⟩
  | setV x value => exact ⟨_, rfl, hm.withRegisters _, rfl⟩
  | setI value => exact ⟨_, rfl, hm.withRegisters _, rfl⟩
  | setPc value => exact ⟨_, rfl, hm.withRegisters _, rfl⟩
  | push address =>
    rcases hp : m.stack.push address with cause | stack
    · exact ⟨m, by simp only [operate, hp], hm.intact⟩
    · exact ⟨{ m with stack }, by simp only [operate, hp],
        hm.intact_of_parts rfl hm.regular (depth_push hp) rfl⟩
  | pop =>
    rcases exists_pop hm.depth_le with ⟨address, stack, hp, hd⟩ | ⟨cause, hp⟩
    · exact ⟨{ m with stack }, by simp only [operate, hp], hm.intact_of_parts rfl hm.regular hd rfl⟩
    · exact ⟨m, by simp only [operate, hp], hm.intact⟩
  | peek =>
    have hp : m.stack.peek = .ok m.stack.frames.getLast? := if_pos hm.depth_le
    exact ⟨m, congrArg (Except.map _) hp, hm.intact⟩
  | clearStack => exact ⟨_, rfl, hm.intact_of_parts rfl hm.regular (Nat.zero_le _) rfl⟩
  | clearScreen => exact ⟨_, rfl, hm.intact_of_parts rfl hm.regular.clear hm.depth_le rfl⟩
  | takeChanged => exact ⟨_, rfl, hm.intact_of_parts rfl hm.regular hm.depth_le rfl⟩
  | draw x y rows =>
    obtain ⟨collision, framebuffer, hd, hr⟩ := exists_draw_of_admissible hm ho
    exact ⟨{ m with framebuffer }, congrArg (Except.map _) hd,
      hm.intact_of_parts rfl hr hm.depth_le rfl⟩

/-- Operations in a row succeed and do no harm. -/
theorem exists_operateAll {os : List Operation} :
    ∀ {m : Machine}, m.WellShaped → (∀ o ∈ os, o.Admissible) →
      ∃ after, m.operateAll os = .ok after ∧ m.Intact after := by
  -- An operation hands a well-shaped machine on to the next.
  induction os with
  | nil =>
    intro m hm _
    exact ⟨m, rfl, hm.intact⟩
  | cons o os ih =>
    intro m hm ho
    obtain ⟨next, hn, hi⟩ := exists_operate hm (ho o List.mem_cons_self)
    obtain ⟨after, ha, hi'⟩ := ih hi.shaped fun o' h => ho o' (List.mem_cons_of_mem _ h)
    exact ⟨after, by simp only [operateAll, hn, ha], hi.trans hi'⟩

/-- A machine with an image is made unless the image is too large. -/
theorem ofImage_cases (config : Config) (image : List UInt8) :
    ofImage config image = .ok ((new config).withImage image) ∨
      ofImage config image = .error (.fault .imageTooLarge) := by
  rcases Nat.lt_or_ge Memory.maxImageSize image.length with hlt | hle
  · exact .inr (ofImage_of_lt config hlt)
  · exact .inl (ofImage_of_le config hle)

/-- No host can break a machine.  Those that it can make are well-shaped; and from a well-shaped machine,
    whatever is in its registers and whether or not it is stopped, every operation and hence any number of
    them in a row succeeds on a machine that is well-shaped again, has the same choices of the host, and
    counts no more steps in a tick than the budget of it. -/
theorem operations_harmless :
    (∀ config, (new config).WellShaped ∧ (new config).config = config ∧
      (new config).reset = .ok (new config)) ∧
    (∀ config image,
      (∃ m, ofImage config image = .ok m ∧ m.WellShaped ∧ m.config = config) ∨
        ofImage config image = .error (.fault .imageTooLarge)) ∧
    ∀ m : Machine, m.WellShaped →
      (∃ t, m.tick = .ok t ∧ t.report.steps ≤ m.config.stepsPerTick.toNat) ∧
      ∀ os : List Operation, (∀ o ∈ os, o.Admissible) →
        ∃ after, m.operateAll os = .ok after ∧ after.WellShaped ∧ after.config = m.config := by
  refine ⟨?_, ?_, ?_⟩
  · intro config
    have hn := wellShaped_new config
    exact ⟨hn, rfl, reset_eq_new hn.size_memory⟩
  · intro config image
    rcases ofImage_cases config image with h | h
    · exact .inl ⟨_, h, (wellShaped_new config).withImage image, rfl⟩
    · exact .inr h
  · intro m hm
    constructor
    · obtain ⟨t, ht, hle, _⟩ := exists_tick hm
      exact ⟨t, ht, hle⟩
    · intro os ho
      obtain ⟨after, ha, hi⟩ := exists_operateAll hm ho
      exact ⟨after, ha, hi.shaped, hi.config⟩

/-- An instruction that no word spells and a sprite far outside and taller than the screen do no harm. -/
theorem operations_harmless_oversized :
    let os : List Operation := [.perform (.draw 0 1 255), .draw (2 ^ 40) 3 (List.replicate 100 0xFF)]
    (new .standard).WellShaped ∧ (∀ o ∈ os, o.Admissible) ∧
      ∃ after, (new .standard).operateAll os = .ok after ∧ after.WellShaped ∧
        after.config = .standard := by
  intro os
  have hn := wellShaped_new .standard
  have ho : ∀ o ∈ os, o.Admissible := by
    intro o hmem
    simp only [os, List.mem_cons, List.not_mem_nil, or_false] at hmem
    rcases hmem with rfl | rfl
    · trivial
    · exact ⟨by decide, by decide, by simp⟩
  exact ⟨hn, ho, (operations_harmless.2.2 _ hn).2 os ho⟩

end Machine

end Chip8
