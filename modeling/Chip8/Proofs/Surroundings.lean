/-
  Chip8.Proofs.Surroundings — what a program does amid other surroundings.

  Around a program there are parts of the machine that it did not make: the choices of the host, the
  timers, the keys and the random bytes.  Few instructions look at one of them, none at more than one, and
  only three write to them.  So a statement about two machines that differ in such a part need not go
  through the instructions again.  `LooksAlike` says that other surroundings look to an instruction as the
  machine's own do, and `Surroundings.behind` says what it makes of them; an instruction to which they look
  alike does amid the others what it does amid its own.

  Main statements: `perform_amid` (instructions), `exists_step_amid` (steps) and `surroundings_of_step`
  (what a step makes of the machine's own surroundings).
-/
import Chip8.Proofs.Stepping

namespace Chip8

/-! ## §1. Surroundings. -/

/-- The parts of a machine that a program did not make. -/
structure Surroundings where
  config : Config
  timers : Timers
  keypad : Keypad
  random : Random.Source

namespace Machine

/-- The surroundings of a machine. -/
def surroundings (m : Machine) : Surroundings :=
  { config := m.config, timers := m.timers, keypad := m.keypad, random := m.random }

/-- The machine amid other surroundings. -/
def amid (m : Machine) (s : Surroundings) : Machine :=
  { m with config := s.config, timers := s.timers, keypad := s.keypad, random := s.random }

/-- The effect on the machine amid other surroundings. -/
def Effect.amid (e : Effect) (s : Surroundings) : Effect := { e with machine := e.machine.amid s }

/-- Says that other surroundings look to an instruction as those of the machine do.  A return looks at the
    choice of the host only if no call is open. -/
def LooksAlike (m : Machine) (s : Surroundings) : Instruction → Prop
  | .returnFromCall => m.stack.depth = 0 → s.config.emptyReturn = m.config.emptyReturn
  | .random _ _ => s.random.next.1 = m.random.next.1
  | .skipHeld x | .skipNotHeld x => s.keypad.isHeld (m.v x) = m.keypad.isHeld (m.v x)
  | .getDelay _ => s.timers.delay = m.timers.delay
  | .takeKey _ => s.keypad.firstHeld = m.keypad.firstHeld
  | _ => True

end Machine

/-- What an instruction on a machine makes of surroundings. -/
def Surroundings.behind (s : Surroundings) (m : Machine) : Instruction → Surroundings
  | .setDelay x => { s with timers := { s.timers with delay := m.v x } }
  | .setSound x => { s with timers := { s.timers with sound := m.v x } }
  | .random _ _ => { s with random := s.random.next.2 }
  | _ => s

namespace Machine

variable {m : Machine} {s : Surroundings}

@[simp] theorem config_amid : (m.amid s).config = s.config := rfl

@[simp] theorem registers_amid : (m.amid s).registers = m.registers := rfl

@[simp] theorem memory_amid : (m.amid s).memory = m.memory := rfl

@[simp] theorem stack_amid : (m.amid s).stack = m.stack := rfl

@[simp] theorem keypad_amid : (m.amid s).keypad = s.keypad := rfl

@[simp] theorem framebuffer_amid : (m.amid s).framebuffer = m.framebuffer := rfl

@[simp] theorem v_amid (x : Register) : (m.amid s).v x = m.v x := rfl

@[simp] theorem fetchBytes_amid (count : Nat) : (m.amid s).fetchBytes count = m.fetchBytes count := rfl

@[simp] theorem surroundings_amid : (m.amid s).surroundings = s := rfl

/-- A machine stands amid its own surroundings. -/
@[simp] theorem amid_surroundings (m : Machine) : m.amid m.surroundings = m := rfl

theorem looksAlike_surroundings (m : Machine) (i : Instruction) : m.LooksAlike m.surroundings i := by
  cases i
  case returnFromCall => exact fun _ => rfl
  case random | skipHeld | skipNotHeld | getDelay | takeKey => rfl
  all_goals trivial

/-! ## §2. Instructions. -/

-- What these do lies in the program's own parts; only a return and a key have to look around.

theorem storeBytes_amid (bytes : List UInt8) :
    (m.amid s).storeBytes bytes = (m.storeBytes bytes).amid s := by
  simp only [storeBytes, memory_amid, registers_amid]
  split
  · rfl
  · split <;> rfl

theorem restoreRegisters_amid (x : Register) :
    (m.amid s).restoreRegisters x = (m.restoreRegisters x).amid s := by
  simp only [restoreRegisters, fetchBytes_amid]
  split <;> rfl

theorem openCall_amid (target : UInt16) :
    (m.amid s).openCall target = (m.openCall target).amid s := by
  simp only [openCall, stack_amid, registers_amid]
  split <;> rfl

theorem combine_amid (op : ByteOp) (x y : Register) :
    (m.amid s).combine op x y = (m.combine op x y).amid s := by
  simp only [combine, v_amid]
  split <;> rfl

theorem drawRows_amid (x y : Register) (height : UInt8) :
    (m.amid s).drawRows x y height = (m.drawRows x y height).amid s := by
  simp only [drawRows, fetchBytes_amid, v_amid, framebuffer_amid]
  split
  · rfl
  · split <;> rfl

theorem returnFromCall_amid (alike : m.LooksAlike s .returnFromCall) :
    (m.amid s).returnFromCall = m.returnFromCall.amid s := by
  simp only [returnFromCall, stack_amid, config_amid]
  split
  · rfl
  · rename_i hp
    rw [alike (CallStack.depth_of_pop_fault hp)]
    split <;> rfl
  · rfl

theorem takeKey_amid {x : Register} (alike : m.LooksAlike s (.takeKey x)) :
    (m.amid s).takeKey x = (m.takeKey x).amid s := by
  have hk : s.keypad.firstHeld = m.keypad.firstHeld := alike
  simp only [takeKey, keypad_amid, hk]
  split <;> rfl

/-- An instruction does amid other surroundings, if they look alike to it, what it does amid the machine's
    own. -/
theorem perform_amid {i : Instruction} (alike : m.LooksAlike s i) :
    (m.amid s).perform i = (m.perform i).amid (s.behind m i) := by
  cases i
  case returnFromCall => exact returnFromCall_amid alike
  case call nnn => exact openCall_amid nnn
  case combine op x y => exact congrArg (done · .advance) (combine_amid op x y)
  case random x nn =>
    have hbyte : s.random.next.1 = m.random.next.1 := alike
    show done { m.amid s with random := s.random.next.2,
                              registers := m.registers.set x (s.random.next.1 &&& nn) } .advance = _
    rw [hbyte]
    rfl
  case draw x y n => exact drawRows_amid x y n
  case skipHeld x =>
    have hk : s.keypad.isHeld (m.v x) = m.keypad.isHeld (m.v x) := alike
    show (m.amid s).done (.skipWhen (s.keypad.isHeld (m.v x))) = _
    rw [hk]
    rfl
  case skipNotHeld x =>
    have hk : s.keypad.isHeld (m.v x) = m.keypad.isHeld (m.v x) := alike
    show (m.amid s).done (.skipWhen (!s.keypad.isHeld (m.v x))) = _
    rw [hk]
    rfl
  case getDelay x =>
    have hd : s.timers.delay = m.timers.delay := alike
    show ((m.amid s).setV x s.timers.delay).done .advance = _
    rw [hd]
    rfl
  case takeKey x => exact takeKey_amid alike
  case storeDecimal x => exact storeBytes_amid _
  case saveRegisters x => exact storeBytes_amid _
  case restoreRegisters x => exact restoreRegisters_amid x
  -- The others look at nothing around them.
  all_goals rfl

/-- What an instruction makes of the machine's own surroundings, whether or not it completes. -/
theorem surroundings_perform (m : Machine) (i : Instruction) :
    (m.perform i).machine.surroundings = m.surroundings.behind m i :=
  congrArg (·.machine.surroundings) (perform_amid (m.looksAlike_surroundings i))

/-! ## §3. Steps. -/

/-- What the next step of a machine makes of surroundings. -/
def stepSurroundings (m : Machine) (s : Surroundings) : Surroundings :=
  m.current?.elim s (s.behind m)

/-- An instruction that is carried out amid other surroundings, if they look alike to it, comes to the same
    and leaves them as it leaves them. -/
theorem exists_dispatch_amid {w : Word} {i : Instruction} (alike : m.LooksAlike s i) {t : Stepped}
    (h : m.dispatch w i = .ok t) :
    ∃ t', (m.amid s).dispatch w i = .ok t' ∧ t'.outcome = t.outcome ∧
      t'.machine = t.machine.amid (s.behind m i) := by
  have hp := perform_amid alike
  rcases dispatch_cases h with ⟨flow, hr, rfl⟩ | ⟨cause, hr, rfl⟩
  · refine ⟨(m.amid s).settle ((m.perform i).machine.amid (s.behind m i)) i flow
      ((m.amid s).startEvents w), ?_, ?_, ?_⟩
    · simp only [dispatch, hp, Effect.amid, hr]
    · rw [outcome_settle, outcome_settle]
    · rw [machine_settle, machine_settle]
      rfl
  · refine ⟨((m.perform i).machine.amid (s.behind m i)).stop m.registers.pc cause
      ((m.amid s).startEvents w), ?_, rfl, rfl⟩
    simp only [dispatch, hp, Effect.amid, hr, registers_amid]

/-- A step amid other surroundings comes to the same as amid the machine's own, if they look alike to the
    instruction that it carries out. -/
theorem exists_step_amid (alike : ∀ i, m.current? = some i → m.LooksAlike s i) {t : Stepped}
    (h : m.step = .ok t) :
    ∃ t', (m.amid s).step = .ok t' ∧ t'.outcome = t.outcome ∧
      t'.machine = t.machine.amid (m.stepSurroundings s) := by
  rcases step_cases h with ⟨cause, hs, rfl⟩ | ⟨live, cause, hw, rfl⟩ | ⟨live, w, hw, hd⟩
  · rw [stepSurroundings, current?_of_stopped hs]
    exact ⟨_, step_of_stopped (m := m.amid s) hs, rfl, rfl⟩
  · rw [stepSurroundings, current?_of_readWord_error hw]
    exact ⟨_, step_of_readWord_error (m := m.amid s) live hw, rfl, rfl⟩
  · have hc := current?_of_readWord live hw
    obtain ⟨t', ht', ho, hm⟩ := exists_dispatch_amid (alike _ hc) hd
    rw [stepSurroundings, hc]
    exact ⟨t', (step_of_readWord (m := m.amid s) live hw).trans ht', ho, hm⟩

/-- What a step makes of the machine's own surroundings. -/
theorem surroundings_of_step {t : Stepped} (h : m.step = .ok t) :
    t.machine.surroundings = m.stepSurroundings m.surroundings := by
  obtain ⟨t', ht', _, hm⟩ := exists_step_amid (fun i _ => m.looksAlike_surroundings i) h
  rw [amid_surroundings, h, Except.ok.injEq] at ht'
  rw [ht', hm, surroundings_amid]

/-! ## §4. Other choices of the host. -/

/-- The machine with other choices of the host. -/
def withConfig (m : Machine) (config : Config) : Machine := { m with config }

/-- The effect on the machine with other choices of the host. -/
def Effect.withConfig (e : Effect) (config : Config) : Effect :=
  { e with machine := e.machine.withConfig config }

variable {config : Config}

@[simp] theorem memory_withConfig : (m.withConfig config).memory = m.memory := rfl

theorem withConfig_eq_amid (m : Machine) (config : Config) :
    m.withConfig config = m.amid { m.surroundings with config } := rfl

/-- Of the choices of the host an instruction looks at none but what a return does with no call open. -/
theorem looksAlike_withConfig {i : Instruction}
    (same : i = .returnFromCall → m.stack.depth = 0 → config.emptyReturn = m.config.emptyReturn) :
    m.LooksAlike { m.surroundings with config } i := by
  cases i
  case returnFromCall => exact same rfl
  case random | skipHeld | skipNotHeld | getDelay | takeKey => rfl
  all_goals trivial

/-- No instruction writes to the choices of the host. -/
theorem behind_withConfig (s : Surroundings) (m : Machine) (config : Config) (i : Instruction) :
    ({ s with config } : Surroundings).behind m i = { s.behind m i with config } := by
  cases i <;> rfl

/-- An instruction does the same under other choices of the host, as far as it looks at them. -/
theorem perform_withConfig {i : Instruction}
    (same : i = .returnFromCall → m.stack.depth = 0 → config.emptyReturn = m.config.emptyReturn) :
    (m.withConfig config).perform i = (m.perform i).withConfig config := by
  have h := perform_amid (looksAlike_withConfig same)
  rw [behind_withConfig, ← surroundings_perform] at h
  exact h

/-- So does a step. -/
theorem exists_step_withConfig
    (same : m.current? = some .returnFromCall → m.stack.depth = 0 →
      config.emptyReturn = m.config.emptyReturn) {t : Stepped} (h : m.step = .ok t) :
    ∃ t', (m.withConfig config).step = .ok t' ∧ t'.outcome = t.outcome ∧
      t'.machine = t.machine.withConfig config := by
  obtain ⟨t', ht', ho, hm⟩ := exists_step_amid (s := { m.surroundings with config })
    (fun i hi => looksAlike_withConfig fun hr => same (hr ▸ hi)) h
  have hs : m.stepSurroundings { m.surroundings with config } = { t.machine.surroundings with config } := by
    rw [surroundings_of_step h, stepSurroundings, stepSurroundings]
    rcases m.current? with _ | i
    · rfl
    · exact behind_withConfig m.surroundings m config i
  exact ⟨t', ht', ho, by rw [hm, hs, withConfig_eq_amid]⟩

end Machine

end Chip8
