/-
  Chip8.Proofs.Advancing — which instructions go on, and which lead elsewhere.

  An instruction is classified by its constructor alone: it transfers control or it does not.  What it then
  does to the program counter is found out on a machine, in cases of its own.  The two agree.  An
  instruction that is no transfer of control goes on to the next one, or to the next but one if it skips
  and its condition holds; the others jump, apart from the one that takes a key, which stays where it is
  while no key is held.  None of them moves the program counter itself, so from an address inside memory a
  step that is no transfer of control ends two or four addresses on, and no sum wraps around.

  Main statements: `skips_iff` (when an instruction skips), `leads_of_continues` (where it leads) and
  `flow_disciplined`.
-/
import Chip8.Proofs.Continuing

namespace Chip8

open Instruction

/-! ## §1. Flows and keys. -/

theorem Flow.skipWhen_eq_skip_iff {condition : Bool} : skipWhen condition = .skip ↔ condition = true := by
  cases condition <;> simp [skipWhen]

theorem Flow.skipWhen_cases (condition : Bool) :
    skipWhen condition = .advance ∨ skipWhen condition = .skip := by
  cases condition
  · exact .inl rfl
  · exact .inr rfl

namespace Keypad

/-- Says that a byte names a key, which is one below sixteen, and that the key is held. -/
def Holds (k : Keypad) (key : UInt8) : Prop :=
  ∃ h : key.toNat < 16, k.keys.get ⟨key.toNat, h⟩ = true

variable {k : Keypad}

theorem isHeld_eq_true_iff {key : UInt8} : k.isHeld key = true ↔ k.Holds key := by
  unfold isHeld Holds
  split
  · rename_i h
    exact ⟨fun hheld => ⟨h, hheld⟩, fun h' => h'.2⟩
  · rename_i h
    exact iff_of_false Bool.false_ne_true fun h' => h h'.1

/-- There is no lowest held key just if no key is held. -/
theorem firstHeld_eq_none_iff : k.firstHeld = none ↔ ∀ key, ¬k.Holds key := by
  rw [firstHeld, Option.map_eq_none_iff, held, List.head?_eq_none_iff, List.filter_eq_nil_iff]
  constructor
  · intro h key hheld
    obtain ⟨hlt, hget⟩ := hheld
    exact h _ (List.mem_finRange _) hget
  · intro h key _ hget
    have hkey : (UInt8.ofNat key.val).toNat = key.val :=
      UInt8.toNat_ofNat_of_lt' (Nat.lt_trans key.isLt (by decide))
    refine h (UInt8.ofNat key.val) ⟨hkey.trans_lt key.isLt, ?_⟩
    simp only [hkey, hget]

end Keypad

namespace Machine

variable {m : Machine}

/-! ## §2. Where an instruction leads. -/

/-- Says that an instruction is one of the six that skip and that its condition holds. -/
inductive SkipsOn (m : Machine) : Instruction → Prop where
  | eqByte {x : Register} {nn : UInt8} (equal : m.v x = nn) : SkipsOn m (.skipEqByte x nn)
  | neByte {x : Register} {nn : UInt8} (unequal : m.v x ≠ nn) : SkipsOn m (.skipNeByte x nn)
  | eq {x y : Register} (equal : m.v x = m.v y) : SkipsOn m (.skipEq x y)
  | ne {x y : Register} (unequal : m.v x ≠ m.v y) : SkipsOn m (.skipNe x y)
  | held {x : Register} (held : m.keypad.Holds (m.v x)) : SkipsOn m (.skipHeld x)
  /-- A byte that names no key counts as a key that is not held. -/
  | notHeld {x : Register} (free : ¬m.keypad.Holds (m.v x)) : SkipsOn m (.skipNotHeld x)

theorem skips_iff {i : Instruction} : m.skips i = true ↔ m.SkipsOn i := by
  constructor
  · intro h
    cases i
    case skipEqByte x nn => exact .eqByte (beq_iff_eq.mp h)
    case skipNeByte x nn => exact .neByte (bne_iff_ne.mp h)
    case skipEq x y => exact .eq (beq_iff_eq.mp h)
    case skipNe x y => exact .ne (bne_iff_ne.mp h)
    case skipHeld x => exact .held (Keypad.isHeld_eq_true_iff.mp h)
    case skipNotHeld x =>
      have hfree : m.keypad.isHeld (m.v x) = false := Bool.not_eq_true' _ ▸ h
      exact .notHeld fun hheld => Bool.eq_false_iff.mp hfree (Keypad.isHeld_eq_true_iff.mpr hheld)
    all_goals cases h
  · intro h
    cases h with
    | eqByte equal => exact beq_iff_eq.mpr equal
    | neByte unequal => exact bne_iff_ne.mpr unequal
    | eq equal => exact beq_iff_eq.mpr equal
    | ne unequal => exact bne_iff_ne.mpr unequal
    | held held => exact Keypad.isHeld_eq_true_iff.mpr held
    | notHeld free =>
      have hfree : m.keypad.isHeld _ = false :=
        Bool.eq_false_iff.mpr fun hheld => free (Keypad.isHeld_eq_true_iff.mp hheld)
      exact congrArg not hfree

/-- Says how an instruction that completed moves the program counter, as its class has it. -/
structure Leads (m : Machine) (i : Instruction) (flow : Flow) : Prop where
  onward : i.transfersControl = false → flow = .advance ∨ flow = .skip
  skips : i.transfersControl = false → (flow = .skip ↔ m.SkipsOn i)
  jumps : i.transfersControl = true → (∀ x, i ≠ .takeKey x) → ∃ target, flow = .jump target
  holds : ∀ x, i = .takeKey x → (∀ key, ¬m.keypad.Holds key) → flow = .hold
  takes : ∀ x key, i = .takeKey x → m.keypad.Holds key → flow = .advance

/-- A transfer of control that is not after a key may jump anywhere. -/
theorem leads_of_jump {i : Instruction} (transfers : i.transfersControl = true)
    (other : ∀ x, i ≠ .takeKey x) (target : UInt16) : m.Leads i (.jump target) where
  onward := fun stays => absurd (stays.symm.trans transfers) Bool.false_ne_true
  skips := fun stays => absurd (stays.symm.trans transfers) Bool.false_ne_true
  jumps := fun _ _ => ⟨target, rfl⟩
  holds := fun x hx => absurd hx (other x)
  takes := fun x _ hx => absurd hx (other x)

/-- Whatever way an instruction goes, its class allows it. -/
theorem leads_of_continues {i : Instruction} {flow : Flow} {stack : CallStack}
    (h : m.Continues i flow stack) : m.Leads i flow := by
  cases h with
  | onward stays =>
    have hno : ∀ x, i ≠ .takeKey x := by
      rintro x rfl
      cases stays
    exact
      { onward := fun _ => Flow.skipWhen_cases _
        skips := fun _ => Flow.skipWhen_eq_skip_iff.trans skips_iff
        jumps := fun transfers => absurd (stays.symm.trans transfers) Bool.false_ne_true
        holds := fun x hx => absurd hx (hno x)
        takes := fun x _ hx => absurd hx (hno x) }
  | jumped nnn => exact leads_of_jump rfl (fun _ => Instruction.noConfusion) nnn
  | jumpedPlus nnn => exact leads_of_jump rfl (fun _ => Instruction.noConfusion) _
  | called nnn push => exact leads_of_jump rfl (fun _ => Instruction.noConfusion) nnn
  | returned pop => exact leads_of_jump rfl (fun _ => Instruction.noConfusion) _
  | restarted depth choice => exact leads_of_jump rfl (fun _ => Instruction.noConfusion) _
  | tookKey x held =>
    exact
      { onward := nofun
        skips := nofun
        jumps := fun _ other => absurd rfl (other x)
        holds := fun _ _ hnone => by
          rw [Keypad.firstHeld_eq_none_iff.mpr hnone] at held
          cases held
        takes := fun _ _ _ _ => rfl }
  | heldOn x none =>
    exact
      { onward := nofun
        skips := nofun
        jumps := fun _ other => absurd rfl (other x)
        holds := fun _ _ _ => rfl
        takes := fun _ key _ hheld => absurd hheld (Keypad.firstHeld_eq_none_iff.mp none key) }

/-! ## §3. Instructions and steps. -/

/-- An instruction that completes leads where its class has it and leaves the program counter alone. -/
theorem leads_of_perform {i : Instruction} {flow : Flow} {after : Machine}
    (h : m.perform i = after.done flow) :
    after.registers.pc = m.registers.pc ∧ m.Leads i flow := by
  have hk := kept_perform m i
  rw [h] at hk
  exact ⟨hk.pc, leads_of_continues (continues_of_perform h)⟩

/-- Two or four addresses on, from inside memory, no sum wraps around. -/
theorem toNat_apply_of_leads {i : Instruction} {flow : Flow} (h : m.Leads i flow)
    (stays : i.transfersControl = false) (inside : m.registers.pc.toNat ≤ 0xFFE) :
    m.SkipsOn i ∧ (flow.apply m.registers.pc).toNat = m.registers.pc.toNat + 4 ∨
      ¬m.SkipsOn i ∧ (flow.apply m.registers.pc).toNat = m.registers.pc.toNat + 2 := by
  have hiff := h.skips stays
  rcases h.onward stays with rfl | rfl
  · refine .inr ⟨fun hskips => Flow.noConfusion (hiff.mpr hskips), ?_⟩
    exact toNat_add_of_lt (show m.registers.pc.toNat + 2 < 0x10000 by omega)
  · refine .inl ⟨hiff.mp rfl, ?_⟩
    exact toNat_add_of_lt (show m.registers.pc.toNat + 4 < 0x10000 by omega)

/-- The class of an instruction and what it does to the program counter agree.  On a well-shaped machine
    each instruction is refused what it demands, which is a fault, or completes and leaves the program
    counter as it was.  If it is then no transfer of control, it goes on or skips, the latter just if it is
    one of the six that skip and its condition holds; if it is one, it jumps, unless it takes a key: then it
    stays while no key is held and goes on else.  Hence a step from any place inside memory ends, if it is no
    fault and its instruction is no transfer of control, four addresses on or two. -/
theorem flow_disciplined (hm : m.WellShaped) :
    (∀ i, (∃ d cause, i.demand? = some d ∧ m.refusal? d = some cause ∧
        m.execute i = .error (.fault cause)) ∨
      ∃ flow after, m.execute i = .ok (flow, after) ∧ after.registers.pc = m.registers.pc ∧
        m.Leads i flow) ∧
    (m.registers.pc.toNat ≤ 0xFFE → ∃ w s, m.Fetches w ∧ m.step = .ok s ∧
      ((decode w).transfersControl = false → (∀ cause, s.outcome ≠ .fault cause) →
        m.SkipsOn (decode w) ∧ s.machine.registers.pc.toNat = m.registers.pc.toNat + 4 ∨
          ¬m.SkipsOn (decode w) ∧ s.machine.registers.pc.toNat = m.registers.pc.toNat + 2)) := by
  constructor
  · intro i
    rcases refused_or_granted m i with ⟨d, cause, hd, hr⟩ | hgranted
    · refine .inl ⟨d, cause, hd, hr, ?_⟩
      rw [execute, perform_of_refusal? hd hr]
      rfl
    · obtain ⟨flow, after, hp, _⟩ := perform_of_granted hm hgranted
      refine .inr ⟨flow, after, ?_, leads_of_perform hp⟩
      rw [execute, hp]
      rfl
  · intro inside
    obtain ⟨w, hf⟩ := exists_fetches hm.size_memory (by rw [Memory.capacity]; omega)
    obtain ⟨s, hs, _⟩ := exists_step hm
    refine ⟨w, s, hf, hs, ?_⟩
    intro stays hno
    rcases continues_of_step hm hs with ⟨cause, hc, _⟩ | ⟨w', flow, hf', _, hcont, hpc⟩
    · exact absurd hc (hno cause)
    · obtain rfl := hf.unique hf'
      rw [hpc]
      exact toNat_apply_of_leads (leads_of_continues hcont) stays inside

/-- From an odd address inside the font, a step skips on two registers that differ; and sixteen names no key,
    so an instruction that skips on a key not held skips on it. -/
theorem flow_disciplined_font :
    let m : Machine := { new .standard with registers := { Registers.initial.set 9 16 with pc := 1 } }
    m.WellShaped ∧ m.registers.pc.toNat ≤ 0xFFE ∧
      (∃ w s, m.Fetches w ∧ m.step = .ok s ∧ decode w = .skipNe 0 9 ∧
        s.outcome = .retired (.skipNe 0 9) ∧ s.machine.registers.pc.toNat = 5) ∧
      ∃ after, m.execute (.skipNotHeld 9) = .ok (.skip, after) := by
  intro m
  have hm : m.WellShaped := (wellShaped_new .standard).withRegisters _
  have hinside : m.registers.pc.toNat ≤ 0xFFE := by decide
  obtain ⟨hexecute, hstep⟩ := flow_disciplined hm
  refine ⟨hm, hinside, ?_, ?_⟩
  · obtain ⟨w, s, hf, hs, hend⟩ := hstep hinside
    have hword : m.current? = some (.skipNe 0 9) := by decide +kernel
    have houtcome : m.step.map Stepped.outcome = .ok (.retired (.skipNe 0 9)) := by decide +kernel
    rw [current?_of_readWord rfl hf.readWord, Option.some.injEq] at hword
    rw [hs, Except.map, Except.ok.injEq] at houtcome
    have hskips : m.SkipsOn (decode w) := by
      rw [hword]
      exact .ne (by decide)
    refine ⟨w, s, hf, hs, hword, houtcome, ?_⟩
    rcases hend (by rw [hword]; rfl) (by rw [houtcome]; exact nofun) with ⟨_, hpc⟩ | ⟨hno, _⟩
    · exact hpc
    · exact absurd hskips hno
  · rcases hexecute (.skipNotHeld 9) with ⟨d, cause, hd, _⟩ | ⟨flow, after, h, _, hleads⟩
    · cases hd
    · have hnone : ¬m.keypad.Holds (m.v 9) := fun hheld => absurd hheld.1 (by decide)
      rw [(hleads.skips rfl).mpr (.notHeld hnone)] at h
      exact ⟨after, h⟩

end Machine

end Chip8
