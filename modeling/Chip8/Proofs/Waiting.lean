/-
  Chip8.Proofs.Waiting — a machine that waits for a key stays as it is, and takes the lowest one.

  The instruction that takes a key runs again and again until a key is held.  So a wait is not a state that
  the machine is in, but one that each step finds anew: the word at the program counter asks for a key and
  none is held.  Neither a step nor a count of the timers nor a key that is let go changes that, so a wait
  lasts as long as the host likes.  All that it leaves is the status, and the status is what keeps the
  second step from telling of the wait again.

  Main statements: `Lingers.exists_step` (a step of a wait), `Lingers.exists_served` (a whole wait),
  `Paused.exists_step_of_holds` (its end) and `wait_transparent`.
-/
import Chip8.Proofs.Advancing
import Chip8.Proofs.Chronicling
import Chip8.Proofs.Spelling

namespace Chip8

open Instruction

namespace Request

/-- Says of a request that no key is held behind it if none was before and that it lets the program be: it
    is a step, a count of the timers, or it lets a key go or holds one that there is not. -/
def Idle : Request → Prop
  | .step | .countDown => True
  | .setKey key held => held = false ∨ 15 < key.toNat
  | _ => False

instance decidableIdle : DecidablePred Idle
  | .step | .countDown => isTrue trivial
  | .setKey key held => inferInstanceAs (Decidable (held = false ∨ 15 < key.toNat))
  | .tick | .load _ | .reset | .reload _ => isFalse id

end Request

/-! ## §1. Keys. -/

namespace Keypad

variable {k : Keypad}

/-- The first held key is held, and no lower one is. -/
theorem holds_of_firstHeld {key : UInt8} (h : k.firstHeld = some key) :
    k.Holds key ∧ ∀ other, k.Holds other → key ≤ other := by
  obtain ⟨first, hhead, rfl⟩ := Option.map_eq_some_iff.mp h
  have hfirst : (UInt8.ofNat first.val).toNat = first.val :=
    UInt8.toNat_ofNat_of_lt' (Nat.lt_trans first.isLt (by decide))
  have hmem : ∀ {key : Fin 16}, key ∈ k.held ↔ k.keys.get key = true := by
    intro key
    rw [held, List.mem_filter]
    exact and_iff_right (List.mem_finRange key)
  obtain ⟨rest, hheld⟩ := List.head?_eq_some_iff.mp hhead
  constructor
  · refine ⟨hfirst.trans_lt first.isLt, ?_⟩
    simp only [hfirst]
    exact hmem.mp (hheld ▸ List.mem_cons_self)
  · intro other hother
    obtain ⟨hlt, hget⟩ := hother
    rw [UInt8.le_iff_toNat_le, hfirst]
    -- The held keys are in ascending order, so the other one is the first or comes behind it.
    have hsorted : k.held.Pairwise (· < ·) := (List.pairwise_lt_finRange 16).filter _
    have hin := hmem.mpr hget
    rw [hheld] at hsorted hin
    rcases List.mem_cons.mp hin with heq | hbehind
    · exact (congrArg Fin.val heq).ge
    · exact Nat.le_of_lt ((List.pairwise_cons.mp hsorted).1 _ hbehind)

/-- To let a key go, or to hold one that there is not, holds none. -/
theorem not_holds_set {key : UInt8} {held : Bool} (free : ∀ key, ¬k.Holds key)
    (idle : held = false ∨ 15 < key.toNat) (other : UInt8) : ¬(k.set key held).Holds other := by
  rw [← isHeld_eq_true_iff, isHeld_set]
  split
  · rename_i h
    rcases idle with rfl | hout
    · exact Bool.false_ne_true
    · omega
  · rw [isHeld_eq_true_iff]
    exact free other

end Keypad

namespace Machine

variable {m : Machine} {x : Register}

/-! ## §2. One request during a wait. -/

/-- Says that a machine that no fault has stopped is about to find that no key is held: it stands at the
    word that asks for one. -/
structure Lingers (m : Machine) (x : Register) : Prop where
  live : ∀ cause, m.status ≠ .stopped cause
  fetches : m.Fetches (.ofXNN 0xF x 0x0A)
  free : ∀ key, ¬m.keypad.Holds key

/-- Says that a machine is another one but for the timers, the keys and the status, which is given. -/
def Paused (m : Machine) (status : Status) (after : Machine) : Prop :=
  ∃ timers keypad, after = { m with timers, keypad, status }

theorem Paused.trans {status status' : Status} {after later : Machine} (h : m.Paused status after)
    (h' : after.Paused status' later) : m.Paused status' later := by
  obtain ⟨_, _, rfl⟩ := h
  obtain ⟨timers, keypad, rfl⟩ := h'
  exact ⟨timers, keypad, rfl⟩

theorem decode_takeKey (x : Register) : decode (.ofXNN 0xF x 0x0A) = .takeKey x :=
  (decode_encode_iff (i := .takeKey x)).mpr trivial

/-- A step of a wait answers that it waits, changes nothing but the status and tells that the wait begins,
    if the status does not know yet. -/
theorem Lingers.exists_step (h : m.Lingers x) :
    ∃ s, m.step = .ok s ∧ s.outcome = .waiting x ∧ s.machine = { m with status := .waiting x } ∧
      s.events.filter Event.isRemark = m.waitEvents := by
  have hnone : m.keypad.firstHeld = none := Keypad.firstHeld_eq_none_iff.mpr h.free
  have hperform : m.perform (decode (.ofXNN 0xF x 0x0A)) = m.done .hold := by
    rw [decode_takeKey]
    rcases m.takeKey_cases x with ⟨key, hsome, _⟩ | ⟨_, hp⟩
    · cases hnone.symm.trans hsome
    · exact hp
  have hstep := step_of_done (stoppedBy_eq_none_iff.mpr h.live) h.fetches hperform
  refine ⟨_, hstep, ?_, ?_, ?_⟩
  · rw [outcome_settle, decode_takeKey]
    rfl
  · rw [machine_settle, decode_takeKey]
    rfl
  · rw [filter_events_of_step hstep, outcome_settle, decode_takeKey]
    rfl

/-- A request of a wait that is no step changes the timers or the keys, and still none is held. -/
theorem Lingers.exists_aside (h : m.Lingers x) {r : Request} (idle : r.Idle) (aside : r ≠ .step) :
    ∃ s, m.serve r = .ok s ∧ s.events = [] ∧ m.Paused m.status s.machine ∧
      ∀ key, ¬s.machine.keypad.Holds key := by
  cases r with
  | step => exact absurd rfl aside
  | countDown => exact ⟨_, rfl, rfl, ⟨_, _, rfl⟩, h.free⟩
  | setKey key held => exact ⟨_, rfl, rfl, ⟨_, _, rfl⟩, Keypad.not_holds_set h.free idle⟩
  | _ => exact idle.elim

/-- What makes a wait is left alone by one that differs as little. -/
theorem Lingers.of_paused (h : m.Lingers x) {status : Status} {after : Machine}
    (paused : m.Paused status after) (live : ∀ cause, status ≠ .stopped cause)
    (free : ∀ key, ¬after.keypad.Holds key) : after.Lingers x := by
  obtain ⟨timers, keypad, rfl⟩ := paused
  exact ⟨live, h.fetches.of_parts rfl rfl, free⟩

/-! ## §3. A whole wait. -/

/-- Says what idle requests come to on a machine that waits. -/
structure Lingered (m : Machine) (x : Register) (rs : List Request) (served : List Served) : Prop where
  serves : m.serveAll rs = .ok served
  steps : List.Forall₂ (fun r s => r = .step →
    s.answer = .outcome (.waiting x) ∧ m.Paused (.waiting x) s.machine) rs served
  lingers : (m.behind served).Lingers x
  paused : m.Paused (if .step ∈ rs then .waiting x else m.status) (m.behind served)
  remarks : (served.flatMap Served.events).filter Event.isRemark =
    if .step ∈ rs then m.waitEvents else []

/-- A step in front of idle requests: behind it the wait is known, so no more is told. -/
theorem Lingered.step {s : Stepped} {rs : List Request} {served : List Served} (step : m.step = .ok s)
    (outcome : s.outcome = .waiting x) (machine : s.machine = { m with status := .waiting x })
    (events : s.events.filter Event.isRemark = m.waitEvents) (rest : s.machine.Lingered x rs served) :
    m.Lingered x (.step :: rs) (⟨.outcome s.outcome, s.events, s.machine⟩ :: served) := by
  have hpaused : m.Paused (.waiting x) s.machine := ⟨m.timers, m.keypad, machine⟩
  constructor
  case serves => simp only [serveAll, serve, step, Except.map, rest.serves]
  case steps =>
    refine .cons (fun _ => ⟨congrArg _ outcome, hpaused⟩) ?_
    exact rest.steps.imp fun r s h hr => ⟨(h hr).1, hpaused.trans (h hr).2⟩
  case lingers => exact rest.lingers
  case paused =>
    rw [if_pos List.mem_cons_self]
    have hlater := rest.paused
    rw [machine, ite_self] at hlater
    exact hpaused.trans (machine ▸ hlater)
  case remarks =>
    have hnone : s.machine.waitEvents = [] := by
      rw [machine]
      rfl
    rw [if_pos List.mem_cons_self, List.flatMap_cons, List.filter_append, rest.remarks, hnone, ite_self,
      List.append_nil]
    exact events

/-- Any other idle request in front of idle requests. -/
theorem Lingered.aside {r : Request} {s : Served} {rs : List Request} {served : List Served}
    (aside : r ≠ .step) (serves : m.serve r = .ok s) (silent : s.events = [])
    (paused : m.Paused m.status s.machine) (rest : s.machine.Lingered x rs served) :
    m.Lingered x (r :: rs) (s :: served) := by
  have hmem : .step ∈ r :: rs ↔ .step ∈ rs := by
    rw [List.mem_cons]
    exact or_iff_right (Ne.symm aside)
  have hkept : s.machine.status = m.status ∧ s.machine.waitEvents = m.waitEvents := by
    obtain ⟨timers, keypad, hs⟩ := paused
    rw [hs]
    exact ⟨rfl, rfl⟩
  constructor
  case serves => simp only [serveAll, serves, Except.map, rest.serves]
  case steps =>
    refine .cons (fun hr => absurd hr aside) ?_
    exact rest.steps.imp fun r s h hr => ⟨(h hr).1, paused.trans (h hr).2⟩
  case lingers => exact rest.lingers
  case paused =>
    have hlater := rest.paused
    rw [hkept.1] at hlater
    simp only [hmem]
    exact paused.trans hlater
  case remarks =>
    rw [List.flatMap_cons, silent, List.nil_append, rest.remarks, hkept.2]
    simp only [hmem]

/-- A wait lasts as long as the requests are idle. -/
theorem Lingers.exists_served (rs : List Request) :
    ∀ {m : Machine}, m.Lingers x → (∀ r ∈ rs, r.Idle) → ∃ served, m.Lingered x rs served := by
  -- Behind every one of the requests the machine waits again, or still.
  induction rs with
  | nil =>
    intro m h _
    exact ⟨[], rfl, .nil, h, ⟨m.timers, m.keypad, rfl⟩, rfl⟩
  | cons r rs ih =>
    intro m h idle
    obtain ⟨hr, hrs⟩ := List.forall_mem_cons.mp idle
    by_cases hstep : r = .step
    · subst hstep
      obtain ⟨s, hs, houtcome, hmachine, hevents⟩ := h.exists_step
      have hlingers : s.machine.Lingers x := by
        rw [hmachine]
        exact h.of_paused ⟨m.timers, m.keypad, rfl⟩ nofun h.free
      obtain ⟨served, hrest⟩ := ih hlingers hrs
      exact ⟨_, hrest.step hs houtcome hmachine hevents⟩
    · obtain ⟨s, hs, hsilent, hpaused, hfree⟩ := h.exists_aside hr hstep
      obtain ⟨served, hrest⟩ := ih (h.of_paused hpaused h.live hfree) hrs
      exact ⟨_, hrest.aside hstep hs hsilent hpaused⟩

/-! ## §4. The end of a wait. -/

/-- Keys that are set one after the other change nothing but the keys. -/
theorem foldl_setKey (keys : List (UInt8 × Bool)) :
    ∀ m : Machine, ∃ keypad,
      keys.foldl (fun now (key, held) => now.setKey key held) m = { m with keypad } := by
  induction keys with
  | nil =>
    intro m
    exact ⟨m.keypad, rfl⟩
  | cons key keys ih =>
    intro m
    obtain ⟨keypad, h⟩ := ih (m.setKey key.1 key.2)
    exact ⟨keypad, h⟩

/-- The first step with a key held takes the lowest one and goes on. -/
theorem Paused.exists_step_of_holds {later : Machine} (fetches : m.Fetches (.ofXNN 0xF x 0x0A))
    (paused : m.Paused (.waiting x) later) (held : ∃ key, later.keypad.Holds key) :
    ∃ t key, later.step = .ok t ∧ t.outcome = .retired (.takeKey x) ∧
      (later.keypad.Holds key ∧ ∀ other, later.keypad.Holds other → key ≤ other) ∧
      t.machine = { later with
        registers := { m.registers.set x key with pc := m.registers.pc + 2 }, status := .running } := by
  obtain ⟨timers, keypad, rfl⟩ := paused
  obtain ⟨key, hkey⟩ : ∃ key, keypad.firstHeld = some key := by
    rw [← Option.isSome_iff_exists, Option.isSome_iff_ne_none]
    intro hnone
    obtain ⟨key, hheld⟩ := held
    exact Keypad.firstHeld_eq_none_iff.mp hnone key hheld
  let later : Machine := { m with timers, keypad, status := .waiting x }
  have hperform : later.perform (decode (.ofXNN 0xF x 0x0A)) = (later.setV x key).done .advance := by
    rw [decode_takeKey]
    rcases later.takeKey_cases x with ⟨key', hsome, hp⟩ | ⟨hnone, _⟩
    · obtain rfl := Option.some.inj (hkey.symm.trans hsome)
      exact hp
    · cases hkey.symm.trans hnone
  have hfetches : later.Fetches (.ofXNN 0xF x 0x0A) := fetches.of_parts rfl rfl
  refine ⟨_, key, step_of_done rfl hfetches hperform, ?_, Keypad.holds_of_firstHeld hkey, ?_⟩
  · rw [outcome_settle, decode_takeKey]
    rfl
  · rw [machine_settle, decode_takeKey]
    rfl

/-- To wait for a key is transparent, and the wait is served in order.  Let a machine that is not stopped
    stand inside memory at the word that asks for a key, with none held, and let steps follow, at least one,
    with counts of the timers in between and keys that are let go or that there are not.  Each step answers
    that it waits and leaves all as it was before the wait, but for the timers, the keys and the status,
    which now says that the machine waits; and so does the whole wait.  Nothing is told but that the wait
    begins, once, and not even that if the status knew before.  Then let keys be set, in any order, so that
    some are held.  The next step retires the instruction: the lowest held key goes into the register, the
    other registers stay, the program counter goes two on, and the machine runs. -/
theorem wait_transparent (lingers : m.Lingers x) {rs : List Request} (idle : ∀ r ∈ rs, r.Idle)
    (stepped : .step ∈ rs) :
    ∃ served, m.serveAll rs = .ok served ∧
      List.Forall₂ (fun r s => r = .step →
        s.answer = .outcome (.waiting x) ∧ m.Paused (.waiting x) s.machine) rs served ∧
      m.Paused (.waiting x) (m.behind served) ∧
      (served.flatMap Served.events).filter Event.isRemark =
        (if m.status.isWaiting then [] else [.waiting m.registers.pc]) ∧
      ∀ (keys : List (UInt8 × Bool)) (later : Machine),
        later = keys.foldl (fun now (key, held) => now.setKey key held) (m.behind served) →
        (∃ key, later.keypad.Holds key) →
          ∃ t key, later.step = .ok t ∧ t.outcome = .retired (.takeKey x) ∧
            (later.keypad.Holds key ∧ ∀ other, later.keypad.Holds other → key ≤ other) ∧
            t.machine.v x = key ∧ (∀ y, y ≠ x → t.machine.v y = m.v y) ∧
            t.machine.registers.i = m.registers.i ∧
            t.machine.registers.pc.toNat = m.registers.pc.toNat + 2 ∧
            t.machine.status = .running := by
  obtain ⟨served, hserved⟩ := lingers.exists_served rs idle
  have hpaused := hserved.paused
  have hremarks := hserved.remarks
  rw [if_pos stepped] at hpaused hremarks
  refine ⟨served, hserved.serves, hserved.steps, hpaused, hremarks, ?_⟩
  intro keys later hlater hheld
  have hstill : m.Paused (.waiting x) later := by
    obtain ⟨timers, _, hbehind⟩ := hpaused
    obtain ⟨keypad, hkeys⟩ := foldl_setKey keys (m.behind served)
    exact ⟨timers, keypad, by rw [hlater, hkeys, hbehind]⟩
  obtain ⟨t, key, hstep, houtcome, hlowest, hmachine⟩ :=
    hstill.exists_step_of_holds lingers.fetches hheld
  have hinside := lingers.fetches.1
  rw [Memory.capacity] at hinside
  have hv : ∀ y, t.machine.v y = (m.registers.set x key).get y := by
    intro y
    rw [hmachine]
    rfl
  refine ⟨t, key, hstep, houtcome, hlowest, ?_, ?_, ?_, ?_, ?_⟩
  · rw [hv, Registers.get_set, if_pos rfl]
  · intro y hy
    rw [hv, Registers.get_set, if_neg hy.symm]
    rfl
  · rw [hmachine]
    exact Registers.i_set m.registers x key
  · rw [hmachine]
    exact toNat_add_of_lt (show m.registers.pc.toNat + 2 < 0x10000 by omega)
  · rw [hmachine]

/-- A wait of three steps at the start of a program, among which the timers count down, a key is let go and
    one is held that there is not; then three keys are held, and the lowest of them is let go again. -/
theorem wait_transparent_resumed :
    let m : Machine := (new .standard).withImage [0xF5, 0x0A]
    let rs : List Request :=
      [.step, .countDown, .step, .setKey 3 false, .setKey 16 true, .step, .countDown]
    let keys : List (UInt8 × Bool) := [(11, true), (2, true), (7, true), (2, false)]
    m.Lingers 5 ∧ (∀ r ∈ rs, r.Idle) ∧ .step ∈ rs ∧
      ∃ served, m.serveAll rs = .ok served ∧
        (served.flatMap Served.events).filter Event.isRemark = [.waiting 0x200] ∧
        ∃ later t, later = keys.foldl (fun now (key, held) => now.setKey key held) (m.behind served) ∧
          later.keypad.Holds 7 ∧ later.step = .ok t ∧ t.outcome = .retired (.takeKey 5) ∧
          t.machine.v 5 = 7 ∧ t.machine.registers.pc.toNat = 0x202 ∧ t.machine.status = .running := by
  intro m rs keys
  have hlingers : m.Lingers 5 :=
    { live := nofun
      fetches := fetches_withImage (wellShaped_new .standard).size_memory rfl 0xF5 0x0A []
      free := Keypad.firstHeld_eq_none_iff.mp (by decide) }
  have hidle : ∀ r ∈ rs, r.Idle := by decide
  have hstepped : Request.step ∈ rs := by decide
  obtain ⟨served, hserved, _, _, hremarks, hresume⟩ := wait_transparent hlingers hidle hstepped
  have hrun : (m.serveAll rs).map (fun served =>
      (keys.foldl (fun now (key, held) => now.setKey key held) (m.behind served)).keypad.firstHeld) =
        .ok (some 7) := by
    decide +kernel
  rw [hserved, Except.map, Except.ok.injEq] at hrun
  obtain ⟨hheld, hleast⟩ := Keypad.holds_of_firstHeld hrun
  obtain ⟨t, key, hstep, houtcome, ⟨hkey, hlowest⟩, hv, _, _, hpc, hstatus⟩ :=
    hresume keys _ rfl ⟨7, hheld⟩
  obtain rfl : key = 7 := UInt8.le_antisymm (hlowest 7 hheld) (hleast key hkey)
  exact ⟨hlingers, hidle, hstepped, served, hserved, hremarks, _, t, rfl, hheld, hstep, houtcome, hv, hpc,
    hstatus⟩

end Machine

end Chip8
