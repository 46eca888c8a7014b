/-
  Chip8.Proofs.Overlooking — a program that does not look around is not influenced from around.

  Five kinds of instructions look at the timers, at the keys or at the random bytes.  A run that carries
  out none of them comes to the same whatever these are, and whatever the host does to the timers and the
  keys between the steps.  So two runs need not even be told the same: it is enough that they make equally
  many steps.  `Alike` says of two machines that they agree in everything that the program makes itself; a
  step keeps it, made on both, and anything else that happens between steps keeps it, done to one of them.

  Main statements: `Alike.exists_step` (steps), `exists_deedsAll_alike` (runs) and
  `surroundings_overlooked`.
-/
import Chip8.Proofs.Surroundings
import Chip8.Proofs.Unrolling

namespace Chip8

/-- Says whether an instruction looks at the timers, the keys or the random bytes. -/
def Instruction.looksAround : Instruction → Bool
  | .random _ _ | .skipHeld _ | .skipNotHeld _ | .getDelay _ | .takeKey _ => true
  | _ => false

/-- Says whether a request is a step, or else a count of the timers or a key. -/
def Request.isPlain : Request → Bool
  | .step | .countDown | .setKey _ _ => true
  | _ => false

namespace Machine

variable {m m' : Machine}

/-! ## §1. Machines that are alike. -/

/-- Says that two machines agree in everything that a program makes itself, and in what a return does with
    no call open. -/
structure Alike (m m' : Machine) : Prop where
  registers : m'.registers = m.registers
  memory : m'.memory = m.memory
  stack : m'.stack = m.stack
  framebuffer : m'.framebuffer = m.framebuffer
  status : m'.status = m.status
  emptyReturn : m'.config.emptyReturn = m.config.emptyReturn

theorem Alike.refl (m : Machine) : m.Alike m := ⟨rfl, rfl, rfl, rfl, rfl, rfl⟩

theorem Alike.symm (h : m.Alike m') : m'.Alike m where
  registers := h.registers.symm
  memory := h.memory.symm
  stack := h.stack.symm
  framebuffer := h.framebuffer.symm
  status := h.status.symm
  emptyReturn := h.emptyReturn.symm

theorem Alike.trans {m'' : Machine} (h : m.Alike m') (h' : m'.Alike m'') : m.Alike m'' where
  registers := h'.registers.trans h.registers
  memory := h'.memory.trans h.memory
  stack := h'.stack.trans h.stack
  framebuffer := h'.framebuffer.trans h.framebuffer
  status := h'.status.trans h.status
  emptyReturn := h'.emptyReturn.trans h.emptyReturn

/-- Machines that are alike differ in their surroundings at most. -/
theorem Alike.eq_amid (h : m.Alike m') : m' = m.amid m'.surroundings := by
  obtain ⟨hr, hm, hs, hf, ht, _⟩ := h
  rw [amid, ← hr, ← hm, ← hs, ← hf, ← ht]
  rfl

theorem alike_amid {s : Surroundings} (h : s.config.emptyReturn = m.config.emptyReturn) :
    m.Alike (m.amid s) := ⟨rfl, rfl, rfl, rfl, rfl, h⟩

/-! ## §2. Steps and what is done between them. -/

/-- An instruction that does not look around finds all surroundings alike that agree in what a return does
    with no call open. -/
theorem looksAlike_of_not_looksAround {i : Instruction} (blind : i.looksAround = false)
    {s : Surroundings} (h : s.config.emptyReturn = m.config.emptyReturn) : m.LooksAlike s i := by
  cases i
  case returnFromCall => exact fun _ => h
  case random | skipHeld | skipNotHeld | getDelay | takeKey => cases blind
  all_goals trivial

theorem config_stepSurroundings (m : Machine) (s : Surroundings) :
    (m.stepSurroundings s).config = s.config := by
  rw [stepSurroundings]
  rcases m.current? with _ | i
  · rfl
  · cases i <;> rfl

/-- A step that does not look around comes to the same on machines that are alike, and leaves them alike. -/
theorem Alike.exists_step (h : m.Alike m') (blind : ∀ i, m.current? = some i → i.looksAround = false)
    {t : Stepped} (ht : m.step = .ok t) :
    ∃ t', m'.step = .ok t' ∧ t'.outcome = t.outcome ∧ t.machine.Alike t'.machine := by
  have alike : ∀ i, m.current? = some i → m.LooksAlike m'.surroundings i :=
    fun i hi => looksAlike_of_not_looksAround (blind i hi) h.emptyReturn
  obtain ⟨t', ht', ho, hm⟩ := exists_step_amid alike ht
  rw [← h.eq_amid] at ht'
  refine ⟨t', ht', ho, ?_⟩
  rw [hm]
  apply alike_amid
  rw [config_stepSurroundings, config_step ht]
  exact h.emptyReturn

/-- What is done between steps leaves a machine that is alike. -/
theorem exists_serve_aside {r : Request} (plain : r.isPlain = true) (aside : r ≠ .step) :
    ∃ s, m.serve r = .ok s ∧ (Deed.mk m r s).outcome? = none ∧ m.Alike s.machine := by
  cases r with
  | step => exact absurd rfl aside
  | countDown | setKey key held => exact ⟨_, rfl, rfl, rfl, rfl, rfl, rfl, rfl, rfl⟩
  | _ => cases plain

theorem ne_tick_of_isPlain {r : Request} (plain : r.isPlain = true) : r ≠ .tick := by
  rintro rfl
  cases plain

/-- So does all that is done until the next step. -/
theorem exists_deedsAll_aside (rs : List Request) :
    ∀ {m : Machine}, (∀ r ∈ rs, r.isPlain = true) → .step ∉ rs →
      ∃ ds, m.deedsAll rs = .ok ds ∧ outcomes ds = [] ∧ m.Alike (m.past ds) := by
  induction rs with
  | nil =>
    intro m _ _
    exact ⟨[], rfl, rfl, .refl m⟩
  | cons r rs ih =>
    intro m plain hno
    obtain ⟨hr, hrs⟩ := List.ne_and_not_mem_of_not_mem_cons hno
    have hp := plain r List.mem_cons_self
    obtain ⟨s, hs, hnone, halike⟩ := exists_serve_aside (m := m) hp hr.symm
    obtain ⟨ds, hds, ho, halike'⟩ := ih (m := s.machine)
      (fun r' hmem => plain r' (List.mem_cons_of_mem _ hmem)) hrs
    refine ⟨⟨m, r, s⟩ :: ds, ?_, ?_, halike.trans halike'⟩
    · rw [deedsAll_cons (ne_tick_of_isPlain hp) hs, hds]
      rfl
    · rw [outcomes, List.filterMap_cons_none hnone]
      exact ho

/-- Requests with a step among them come to the first one on a machine that is alike. -/
theorem exists_aside_of_mem {rs : List Request} (plain : ∀ r ∈ rs, r.isPlain = true)
    (hmem : .step ∈ rs) (m : Machine) :
    ∃ front back ds, rs = front ++ .step :: back ∧ rs.count .step = back.count .step + 1 ∧
      m.deedsAll front = .ok ds ∧ outcomes ds = [] ∧ m.Alike (m.past ds) := by
  obtain ⟨front, back, rfl, hno⟩ := List.eq_append_cons_of_mem hmem
  obtain ⟨ds, hds, ho, halike⟩ := exists_deedsAll_aside front (m := m)
    (fun r hr => plain r (List.mem_append_left _ hr)) hno
  refine ⟨front, back, ds, rfl, ?_, hds, ho, halike⟩
  rw [List.count_append, List.count_eq_zero.mpr hno, List.count_cons_self, Nat.zero_add]

/-! ## §3. Runs. -/

/-- A run whose steps do not look around comes to the same on a machine that is alike, and leaves it alike,
    if equally many steps are made there. -/
theorem exists_deedsAll_alike (rs : List Request) :
    ∀ {rs' : List Request} {m m' : Machine} {ds : List Deed}, (∀ r ∈ rs, r.isPlain = true) →
      (∀ r ∈ rs', r.isPlain = true) → rs'.count .step = rs.count .step → m.Alike m' →
      m.deedsAll rs = .ok ds → (∀ d ∈ ds, ∀ i, d.instruction? = some i → i.looksAround = false) →
        ∃ ds', m'.deedsAll rs' = .ok ds' ∧ outcomes ds' = outcomes ds ∧
          (m.past ds).Alike (m'.past ds') := by
  -- The induction is on the first run.  What is done between its steps changes the machine there alone; at
  -- a step the second run catches up.
  induction rs with
  | nil =>
    intro rs' m m' ds _ plain' same alike h _
    cases h
    obtain ⟨ds', hds', ho, halike⟩ :=
      exists_deedsAll_aside rs' (m := m') plain' (List.count_eq_zero.mp same)
    exact ⟨ds', hds', ho, alike.trans halike⟩
  | cons r rs ih =>
    intro rs' m m' ds plain plain' same alike h blind
    have hp := plain r List.mem_cons_self
    have hplain : ∀ r' ∈ rs, r'.isPlain = true := fun r' hmem => plain r' (List.mem_cons_of_mem _ hmem)
    by_cases hr : r = .step
    · subst hr
      obtain ⟨t, rest, ht, hrest, rfl⟩ := exists_step_of_deedsAll h
      rw [List.count_cons_self] at same
      have hmem : .step ∈ rs' := List.count_pos_iff.mp (same ▸ Nat.succ_pos _)
      obtain ⟨front, back, ds₁, rfl, hcount, hds₁, ho₁, halike₁⟩ := exists_aside_of_mem plain' hmem m'
      obtain ⟨t', ht', ho, halike⟩ :=
        (alike.trans halike₁).exists_step (blind _ List.mem_cons_self) ht
      obtain ⟨ds₂, hds₂, ho₂, halike₂⟩ := ih hplain
        (fun r' hr => plain' r' (List.mem_append_right _ (List.mem_cons_of_mem _ hr)))
        (Nat.succ.inj (hcount.symm.trans same)) halike hrest
        fun d hd => blind d (List.mem_cons_of_mem _ hd)
      refine ⟨ds₁ ++ (m'.past ds₁).stepDeed t' :: ds₂, deedsAll_append hds₁ ?_, ?_, ?_⟩
      · rw [deedsAll_step ht']
        rw [hds₂]
        rfl
      · rw [outcomes_append, outcomes_stepDeed, outcomes_stepDeed, ho₁, ho₂, ho,
          List.nil_append]
      · rw [past_append]
        exact halike₂
    · obtain ⟨s, hs, hnone, halike⟩ := exists_serve_aside (m := m) hp hr
      rw [deedsAll_cons (ne_tick_of_isPlain hp) hs] at h
      obtain ⟨rest, hrest, rfl⟩ := exists_of_map_eq_ok h
      rw [List.count_cons_of_ne hr] at same
      obtain ⟨ds', hds', ho, halike'⟩ := ih hplain plain' same (halike.symm.trans alike) hrest
        fun d hd => blind d (List.mem_cons_of_mem _ hd)
      refine ⟨ds', hds', ?_, halike'⟩
      rw [ho, outcomes, outcomes, List.filterMap_cons_none hnone]

/-- A program that does not look around does not notice what is around it.  Take two machines that agree
    in their registers, memory, call stack, screen and status and in what a return does with no call open,
    whatever their timers, keys and random bytes are.  Let the one make steps, with counts of the timers and
    keys in between, none of which looks at the timers, the keys or the random bytes.  Then the other, given
    as many steps and any counts and keys of its own in between, comes to the same outcomes, and the two
    agree again in all of these parts.  A machine of the right shape makes any such run. -/
theorem surroundings_overlooked (alike : m.Alike m') {rs rs' : List Request}
    (plain : ∀ r ∈ rs, r.isPlain = true) (plain' : ∀ r ∈ rs', r.isPlain = true)
    (same : rs'.count .step = rs.count .step) :
    (m.WellShaped → ∃ served ds, m.Runs rs served ds) ∧
      ∀ served ds, m.Runs rs served ds →
        (∀ d ∈ ds, ∀ i, d.instruction? = some i → i.looksAround = false) →
          ∃ served' ds', m'.Runs rs' served' ds' ∧ outcomes ds' = outcomes ds ∧
            (m.behind served).Alike (m'.behind served') := by
  refine ⟨exists_runs rs, ?_⟩
  intro served ds hruns blind
  obtain ⟨ds', hds', ho, halike⟩ := exists_deedsAll_alike rs plain plain' same alike hruns.deeds blind
  obtain ⟨served', hruns'⟩ := exists_runs_of_deedsAll hds'
  rw [hruns.past, hruns'.past] at halike
  exact ⟨served', ds', hruns', ho, halike⟩

/-- A program draws a digit, sets both timers and stops at a return with no call open.  It does so too
    where the timers are up, a key is held and the seed is another, and where the host counts and presses at
    other times. -/
theorem surroundings_overlooked_elsewhere :
    let m : Machine := (new .standard).withImage
      [0x63, 0x07, 0xF3, 0x15, 0xF3, 0x18, 0xF3, 0x29, 0xD0, 0x05, 0x00, 0xEE]
    let m' : Machine := m.amid { m.surroundings with
      timers := { delay := 9, sound := 200 }, keypad := Keypad.released.set 4 true
      random := Random.Source.ofSeed 7 }
    let rs : List Request :=
      [.step, .step, .countDown, .step, .step, .setKey 3 true, .step, .step, .step]
    let rs' : List Request :=
      [.countDown, .step, .setKey 4 false, .step, .step, .step, .step, .step, .countDown, .step,
        .setKey 5 true]
    m.Alike m' ∧ (∀ r ∈ rs, r.isPlain = true) ∧ (∀ r ∈ rs', r.isPlain = true) ∧
      rs'.count .step = rs.count .step ∧
      ∃ served ds, m.Runs rs served ds ∧
        (∀ d ∈ ds, ∀ i, d.instruction? = some i → i.looksAround = false) ∧
        ∃ served' ds', m'.Runs rs' served' ds' ∧ outcomes ds' = outcomes ds ∧
          (outcomes ds).getLast? = some (.fault .stackUnderflow) ∧
          (m.behind served).Alike (m'.behind served') := by
  intro m m' rs rs'
  have halike : m.Alike m' := alike_amid rfl
  have hplain : ∀ r ∈ rs, r.isPlain = true := by decide
  have hplain' : ∀ r ∈ rs', r.isPlain = true := by decide
  have hsame : rs'.count .step = rs.count .step := by decide
  have hm : m.WellShaped := (wellShaped_new .standard).withImage _
  obtain ⟨hruns, hall⟩ := surroundings_overlooked halike hplain hplain' hsame
  obtain ⟨served, ds, hr⟩ := hruns hm
  have hrun : (m.deedsAll rs).map (fun ds =>
      (ds.all fun d => d.instruction?.all (!·.looksAround), (outcomes ds).getLast?)) =
      .ok (true, some (.fault .stackUnderflow)) := by
    decide +kernel
  simp only [hr.deeds, Except.map, Except.ok.injEq, Prod.mk.injEq, List.all_eq_true, Option.all_eq_true,
    Bool.not_eq_true'] at hrun
  obtain ⟨hblind, hlast⟩ := hrun
  obtain ⟨served', ds', hr', ho, halike'⟩ := hall served ds hr hblind
  exact ⟨halike, hplain, hplain', hsame, served, ds, hr, hblind, served', ds', hr', ho, hlast, halike'⟩

end Machine

end Chip8
