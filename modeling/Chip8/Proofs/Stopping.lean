/-
  Chip8.Proofs.Stopping — a stopped machine stays stopped.

  A fault is told once and then kept: every later step answers with it again, does nothing and tells
  nothing.  The host goes on all the same, since it need not look at the answers: its timers count down, its
  keys are set, it may even write a new image into the memory.  None of that starts the machine again; only
  a request to start over does.

  Main statements: `serve_of_stopped` (what a request gives on a stopped machine), `Rests.trans` (what is
  left behind requests in a row) and `stop_absorbs` (both, over runs).
-/
import Chip8.Proofs.Restarting

namespace Chip8

namespace Request

/-- Says whether a request counts the timers down. -/
def countsDown : Request → Bool
  | .tick | .countDown => true
  | _ => false

/-- The keys behind a request that starts nothing over. -/
def keysBehind (keypad : Keypad) : Request → Keypad
  | .setKey key held => keypad.set key held
  | _ => keypad

end Request

namespace Machine

variable {m : Machine}

/-! ## §1. Single requests. -/

/-- The answer that a machine stopped by a fault gives to a request that starts nothing over. -/
def stoppedAnswer (config : Config) (cause : Fault) : Request → Answer
  | .step => .outcome (.fault cause)
  | .tick =>
    .report (if config.stepsPerTick = 0 then { steps := 0, finalStep := none }
      else { steps := 1, finalStep := some (.fault cause) })
  | .load image =>
    .refusal (if image.length ≤ Memory.maxImageSize then none else some .imageTooLarge)
  | _ => .silence

/-- What a request that starts nothing over makes of a machine that does not step. -/
def idled (m : Machine) : Request → Machine
  | .tick | .countDown => m.countDown
  | .setKey key held => m.setKey key held
  | .load image => if image.length ≤ Memory.maxImageSize then m.withImage image else m
  | _ => m

/-- A tick of a stopped machine makes one step at most. -/
theorem serve_tick_of_stopped {cause : Fault} (hs : m.status = .stopped cause) :
    m.serve .tick = .ok ⟨stoppedAnswer m.config cause .tick, [], m.countDown⟩ := by
  by_cases h0 : m.config.stepsPerTick = 0
  · have hn : m.config.stepsPerTick.toNat = 0 := congrArg UInt32.toNat h0
    simp only [serve, tick, hn, burst, stoppedAnswer, if_pos h0, Except.map]
  · obtain ⟨budget, hn⟩ : ∃ budget, m.config.stepsPerTick.toNat = budget + 1 := by
      have hne : m.config.stepsPerTick.toNat ≠ 0 := fun h => h0 (UInt32.toNat_inj.mp h)
      exact ⟨m.config.stepsPerTick.toNat - 1, by omega⟩
    -- The first step is a fault, so the burst ends with it.
    simp only [serve, tick, hn, burst, step_of_stopped hs, Outcome.isFault, if_pos,
      stoppedAnswer, if_neg h0, Except.map]
    rfl

/-- A request that starts nothing over is answered by a stopped machine, which tells nothing. -/
theorem serve_of_stopped (hm : m.WellShaped) {cause : Fault} (hs : m.status = .stopped cause)
    {r : Request} (hr : r.startsOver = false) :
    m.serve r = .ok ⟨stoppedAnswer m.config cause r, [], m.idled r⟩ := by
  cases r with
  | step =>
    rw [serve, step_of_stopped hs]
    rfl
  | tick => exact serve_tick_of_stopped hs
  | countDown | setKey key held => rfl
  | load image =>
    rcases Nat.lt_or_ge Memory.maxImageSize image.length with hlt | hle
    · have hn : ¬image.length ≤ Memory.maxImageSize := Nat.not_le.mpr hlt
      simp only [serve, load_of_lt hlt, stoppedAnswer, idled, if_neg hn]
    · simp only [serve, load_of_le hm.size_memory hle, stoppedAnswer, idled, if_pos hle]
  | reset | reload image => cases hr

/-! ## §2. What is left. -/

/-- Says what requests that start nothing over leave of a machine that does not step: all of it, but the
    timers count down, the keys are set and an image changes bytes from the program's place on. -/
structure Rests (m : Machine) (rs : List Request) (after : Machine) : Prop where
  config : after.config = m.config
  status : after.status = m.status
  registers : after.registers = m.registers
  stack : after.stack = m.stack
  framebuffer : after.framebuffer = m.framebuffer
  random : after.random = m.random
  delay : after.timers.delay.toNat = m.timers.delay.toNat - rs.countP Request.countsDown
  sound : after.timers.sound.toNat = m.timers.sound.toNat - rs.countP Request.countsDown
  keypad : after.keypad = rs.foldl Request.keysBehind m.keypad
  size_memory : after.memory.size = m.memory.size
  below : ∀ a < Memory.programStart.toNat, after.memory[a]? = m.memory[a]?
  memory : (∀ image, .load image ∉ rs) → after.memory = m.memory

/-- Where the memory is left alone, only the timers and the keys have to be looked at. -/
theorem rests_of_memory {rs : List Request} {timers : Timers} {keypad : Keypad}
    (delay : timers.delay.toNat = m.timers.delay.toNat - rs.countP Request.countsDown)
    (sound : timers.sound.toNat = m.timers.sound.toNat - rs.countP Request.countsDown)
    (keys : keypad = rs.foldl Request.keysBehind m.keypad) : m.Rests rs { m with timers, keypad } where
  config := rfl
  status := rfl
  registers := rfl
  stack := rfl
  framebuffer := rfl
  random := rfl
  delay := delay
  sound := sound
  keypad := keys
  size_memory := rfl
  below := fun _ _ => rfl
  memory := fun _ => rfl

theorem Rests.nil (m : Machine) : m.Rests [] m := rests_of_memory rfl rfl rfl

/-- What is left of what is left. -/
theorem Rests.trans {rs rs' : List Request} {after later : Machine} (h : m.Rests rs after)
    (h' : after.Rests rs' later) : m.Rests (rs ++ rs') later where
  config := h'.config.trans h.config
  status := h'.status.trans h.status
  registers := h'.registers.trans h.registers
  stack := h'.stack.trans h.stack
  framebuffer := h'.framebuffer.trans h.framebuffer
  random := h'.random.trans h.random
  delay := by
    rw [h'.delay, h.delay, List.countP_append]
    omega
  sound := by
    rw [h'.sound, h.sound, List.countP_append]
    omega
  keypad := by rw [h'.keypad, h.keypad, List.foldl_append]
  size_memory := h'.size_memory.trans h.size_memory
  below := fun a ha => (h'.below a ha).trans (h.below a ha)
  memory := by
    intro hno
    have hno1 : ∀ image, .load image ∉ rs := fun image hmem => hno image (List.mem_append_left _ hmem)
    have hno2 : ∀ image, .load image ∉ rs' :=
      fun image hmem => hno image (List.mem_append_right _ hmem)
    exact (h'.memory hno2).trans (h.memory hno1)

/-- A count of the timers leaves everything else. -/
theorem rests_countDown {r : Request} (hr : r.countsDown = true) : m.Rests [r] m.countDown := by
  have hone : [r].countP Request.countsDown = 1 := by rw [List.countP_singleton, if_pos hr]
  apply rests_of_memory
  · rw [hone]
    exact Timers.toNat_countDown _
  · rw [hone]
    exact Timers.toNat_countDown _
  · show m.keypad = r.keysBehind m.keypad
    cases r <;> first | rfl | cases hr

theorem rests_setKey (m : Machine) (key : UInt8) (held : Bool) :
    m.Rests [.setKey key held] (m.setKey key held) := rests_of_memory rfl rfl rfl

/-- An image changes no byte below its place. -/
theorem rests_withImage (m : Machine) (image : List UInt8) :
    m.Rests [.load image] (m.withImage image) where
  config := rfl
  status := rfl
  registers := rfl
  stack := rfl
  framebuffer := rfl
  random := rfl
  delay := rfl
  sound := rfl
  keypad := rfl
  size_memory := Memory.size_overlay ..
  below := by
    intro a ha
    have hout : ¬(Memory.programStart.toNat ≤ a ∧ a < Memory.programStart.toNat + image.length ∧
        a < m.memory.size) := by omega
    rw [getElem?_withImage, if_neg hout]
  memory := fun hno => absurd List.mem_cons_self (hno image)

/-- A request that does nothing leaves everything. -/
theorem rests_same {r : Request} (count : r.countsDown = false)
    (keys : ∀ keypad, r.keysBehind keypad = keypad) : m.Rests [r] m := by
  have hnone : [r].countP Request.countsDown = 0 := by
    rw [List.countP_singleton, count]
    rfl
  refine rests_of_memory ?_ ?_ (keys _).symm
  · rw [hnone, Nat.sub_zero]
  · rw [hnone, Nat.sub_zero]

theorem rests_idled {r : Request} (hr : r.startsOver = false) : m.Rests [r] (m.idled r) := by
  cases r with
  | step => exact rests_same rfl fun _ => rfl
  | tick | countDown => exact rests_countDown rfl
  | setKey key held => exact rests_setKey m key held
  | load image =>
    by_cases hle : image.length ≤ Memory.maxImageSize
    · rw [idled, if_pos hle]
      exact rests_withImage m image
    · rw [idled, if_neg hle]
      exact rests_same rfl fun _ => rfl
  | reset | reload image => cases hr

/-! ## §3. Runs. -/

/-- Requests that start nothing over are all answered by a stopped machine, tell nothing and leave it at
    rest. -/
theorem exists_serveAll_of_stopped {cause : Fault} (rs : List Request) :
    ∀ {m : Machine}, m.WellShaped → m.status = .stopped cause →
      (∀ r ∈ rs, r.startsOver = false) →
        ∃ served, m.serveAll rs = .ok served ∧
          served.map Served.answer = rs.map (stoppedAnswer m.config cause) ∧
          (∀ s ∈ served, s.events = []) ∧ m.Rests rs (m.behind served) := by
  induction rs with
  | nil =>
    intro m hm hs hr
    refine ⟨[], rfl, rfl, ?_, .nil m⟩
    intro s hmem
    cases hmem
  | cons r rs ih =>
    intro m hm hs hr
    have hr1 := hr r List.mem_cons_self
    have hserve := serve_of_stopped hm hs hr1
    have hrest : m.Rests [r] (m.idled r) := rests_idled hr1
    -- The machine is as well-shaped and as stopped for the requests that follow.
    have hm' := (intact_of_serve hm hserve).shaped
    obtain ⟨served, hserved, ha, he, hrests⟩ := ih hm' (hrest.status.trans hs)
      fun r' hmem => hr r' (List.mem_cons_of_mem _ hmem)
    rw [hrest.config] at ha
    refine ⟨⟨stoppedAnswer m.config cause r, [], m.idled r⟩ :: served, ?_, ?_, ?_, ?_⟩
    · simp only [serveAll, hserve, hserved, Except.map]
    · rw [List.map_cons, List.map_cons, ha]
    · intro s hmem
      rcases List.mem_cons.mp hmem with rfl | hmem
      · rfl
      · exact he s hmem
    · exact hrest.trans hrests

/-- A request to start over sets a well-shaped machine running. -/
theorem exists_serve_startsOver (hm : m.WellShaped) {r : Request} (hr : r.startsOver = true) :
    ∃ s, m.serve r = .ok s ∧ s.machine.status = .running := by
  have full := hm.size_memory
  cases r with
  | reset =>
    refine ⟨_, congrArg (Except.map _) (reset_eq_new full), ?_⟩
    rfl
  | reload image =>
    rcases Nat.lt_or_ge Memory.maxImageSize image.length with hlt | hle
    · refine ⟨_, congrArg (Except.map _) (reload_of_lt full hlt), ?_⟩
      rfl
    · refine ⟨_, congrArg (Except.map _) (reload_of_le full hle), ?_⟩
      rfl
  | _ => cases hr

/-- A fault absorbs whatever follows it.  Let a well-shaped machine be stopped, and let requests follow
    none of which starts over.  Each step answers with the same fault, each tick reports one such step, or
    none if its budget is empty, and nothing is told.  The machine that is left is stopped as before and
    the same in all its parts, except that each timer is lower by one for each count and each tick, not
    below zero, that the keys are those that were set, and that images changed bytes from the program's
    place on; it runs again behind a request to start over, and behind no other. -/
theorem stop_absorbs (hm : m.WellShaped) {cause : Fault} (hs : m.status = .stopped cause)
    {rs : List Request} (hr : ∀ r ∈ rs, r.startsOver = false) :
    ∃ served, m.serveAll rs = .ok served ∧
      served.map Served.answer = rs.map (stoppedAnswer m.config cause) ∧
      (∀ s ∈ served, s.events = []) ∧
      m.Rests rs (m.behind served) ∧
      ∀ r, ∃ s, (m.behind served).serve r = .ok s ∧
        s.machine.status = if r.startsOver then .running else .stopped cause := by
  obtain ⟨served, hserved, ha, he, hrests⟩ := exists_serveAll_of_stopped rs hm hs hr
  refine ⟨served, hserved, ha, he, hrests, ?_⟩
  intro r
  have hshaped : (m.behind served).WellShaped := by
    obtain ⟨served', hserved', hi⟩ := exists_serveAll rs hm
    rw [hserved, Except.ok.injEq] at hserved'
    rw [hserved']
    exact hi.shaped
  by_cases hover : r.startsOver
  · rw [if_pos hover]
    exact exists_serve_startsOver hshaped hover
  · rw [if_neg hover]
    have hgoes : r.startsOver = false := Bool.eq_false_iff.mpr hover
    have hstatus := hrests.status.trans hs
    exact ⟨_, serve_of_stopped hshaped hstatus hgoes, (rests_idled hgoes).status.trans hstatus⟩

/-- A machine that is stopped with its timers up goes through steps, a tick, counts, a key and an image. -/
theorem stop_absorbs_busy :
    let m : Machine := { new .standard with
      status := .stopped .stackOverflow, timers := { delay := 2, sound := 5 } }
    let rs : List Request :=
      [.step, .tick, .setKey 3 true, .countDown, .load [0x12, 0x00], .countDown, .step]
    m.WellShaped ∧ (∀ r ∈ rs, r.startsOver = false) ∧
      ∃ served, m.serveAll rs = .ok served ∧
        served.map Served.answer =
          [.outcome (.fault .stackOverflow),
            .report { steps := 1, finalStep := some (.fault .stackOverflow) }, .silence, .silence,
            .refusal none, .silence, .outcome (.fault .stackOverflow)] ∧
        (m.behind served).status = .stopped .stackOverflow ∧
        (m.behind served).timers.delay.toNat = 0 ∧ (m.behind served).timers.sound.toNat = 2 ∧
        (m.behind served).keypad.isHeld 3 = true := by
  intro m rs
  have hstop : ∀ {n : Machine} (status : Status) (timers : Timers), n.WellShaped →
      { n with status, timers }.WellShaped :=
    fun _ _ hn => hn.of_parts rfl hn.regular hn.depth_le
  have hm : m.WellShaped := hstop _ _ (wellShaped_new .standard)
  have hr : ∀ r ∈ rs, r.startsOver = false := by decide
  obtain ⟨served, hserved, ha, _, hrests, _⟩ := stop_absorbs hm rfl hr
  have hanswers : rs.map (stoppedAnswer m.config .stackOverflow) =
      [.outcome (.fault .stackOverflow),
        .report { steps := 1, finalStep := some (.fault .stackOverflow) }, .silence, .silence,
        .refusal none, .silence, .outcome (.fault .stackOverflow)] := by
    decide
  refine ⟨hm, hr, served, hserved, ha.trans hanswers, ?_, ?_, ?_, ?_⟩
  · exact hrests.status
  · exact hrests.delay
  · exact hrests.sound
  · rw [hrests.keypad]
    rfl

end Machine

end Chip8
