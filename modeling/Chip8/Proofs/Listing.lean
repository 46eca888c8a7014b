/-
  Chip8.Proofs.Listing — what a listing shows of an address and what a step does there.

  A listing and a step read memory on their own: the listing wherever two bytes are left, the step through
  the bounds of the address space.  On a full memory the two readings come to the same, and then the row
  at the program counter tells the step's outcome, as far as that lies in the word.  Whatever the step
  writes comes too late for either, so it does not matter if the instruction overwrites itself.

  Main statements: `Shows.tells` (what a host is told) and `listing_agrees`.
-/
import Chip8.Disassembly
import Chip8.Host.Report
import Chip8.Proofs.Encoding
import Chip8.Proofs.Loading
import Chip8.Proofs.Stepping

namespace Chip8

/-! ## §1. What a row tells of an outcome. -/

namespace Disassembly.Row

/-- Says of a row that it shows the word from which a step came to an outcome, and its instruction. -/
structure Shows (row : Row) (outcome : Outcome) : Prop where
  unknown : ∀ word, outcome = .skippedUnknown word ↔ row.isUnknown = true ∧ word = row.raw
  retired : ∀ i, outcome = .retired i →
    i.encode = row.raw ∧ i.mnemonic = row.mnemonic ∧ i.operands = row.operands
  /-- Only the words `FX0A` wait, each for its own register. -/
  waiting : ∀ x, outcome = .waiting x → row.raw.toNat = 0xF00A + 0x100 * x.val

variable {row : Row} {outcome : Outcome}

/-- Says of a row that it has the word and the texts that a host is told of an outcome. -/
structure Tells (row : Row) (outcome : Outcome) : Prop where
  /-- An instruction that retires is told by the row's mnemonic, with the row's operands if there are any. -/
  retired : ∀ i, outcome = .retired i →
    Report.ofOutcome outcome =
      .retired (if row.operands = "" then row.mnemonic else row.mnemonic ++ " " ++ row.operands) row.raw
  skippedUnknown : ∀ word, outcome = .skippedUnknown word →
    Report.ofOutcome outcome = .skippedUnknown row.raw
  /-- Nothing else is told as an instruction that retires. -/
  retired_only : ∀ text word, Report.ofOutcome outcome = .retired text word →
    ∃ i, outcome = .retired i
  /-- Nothing else is told as a word that is passed over. -/
  skippedUnknown_only : ∀ word, Report.ofOutcome outcome = .skippedUnknown word →
    ∃ word', outcome = .skippedUnknown word'

/-- A row that shows an outcome has what a host is told of it. -/
theorem Shows.tells (h : row.Shows outcome) : row.Tells outcome where
  retired := by
    intro i hi
    obtain ⟨hword, hmnemonic, hoperands⟩ := h.retired i hi
    rw [hi]
    show Report.retired i.text i.encode = _
    simp only [Instruction.text, Instruction.line, hword, hmnemonic, hoperands, String.isEmpty_iff]
  skippedUnknown := by
    intro word hw
    rw [hw, ← ((h.unknown word).mp hw).2]
    rfl
  retired_only := by
    intro text word hr
    cases outcome with
    | retired i => exact ⟨i, rfl⟩
    | _ => cases hr
  skippedUnknown_only := by
    intro word hr
    cases outcome with
    | skippedUnknown word' => exact ⟨word', rfl⟩
    | _ => cases hr

end Disassembly.Row

open Disassembly

namespace Machine

variable {m : Machine}

/-- The row of a word shows what its instruction comes to when it completes. -/
theorem shows_settledOutcome (address : UInt16) (w : Word) (flow : Flow) :
    (Row.ofWord address w).Shows (settledOutcome (Instruction.decode w) flow) := by
  constructor
  case unknown =>
    intro word
    rw [settledOutcome_eq_skippedUnknown_iff]
    show _ ↔ (Instruction.decode w).isUnknown = true ∧ word = w
    rw [isUnknown_decode_iff]
    constructor
    · intro h
      have hword : w = word := (encode_decode w).symm.trans (congrArg Instruction.encode h)
      exact ⟨hword ▸ h, hword.symm⟩
    · rintro ⟨h, rfl⟩
      exact h
  case retired =>
    intro i hi
    obtain rfl := eq_of_settledOutcome hi
    exact ⟨encode_decode w, rfl, rfl⟩
  case waiting =>
    intro x hx
    have hi := eq_takeKey_of_settledOutcome hx
    show w.toNat = _
    rw [← encode_decode w, hi]
    show (0xF * 0x1000 + x.val * 0x100 + 0x0A) % 65536 = _
    omega

/-- The row of a word that is refused shows the fault: neither tells of a word outside the table. -/
theorem shows_fault (address : UInt16) {w : Word} {d : Demand} (hd : w.demand? = some d)
    (cause : Fault) : (Row.ofWord address w).Shows (.fault cause) := by
  constructor
  case unknown =>
    intro word
    constructor
    · exact nofun
    · rintro ⟨hunknown, -⟩
      -- A word outside the table demands nothing.
      rw [← demand?_decode, isUnknown_decode_iff.mp hunknown] at hd
      cases hd
  case retired => exact nofun
  case waiting => exact nofun

/-! ## §2. The two ways to read a word. -/

/-- The word that stands at the program counter is listed there. -/
theorem Fetches.row? {w : Word} (h : m.Fetches w) :
    row? m.registers.pc m.memory = some (Row.ofWord m.registers.pc w) := by
  obtain ⟨_, high, low, hh, hl, rfl⟩ := h
  simp only [Disassembly.row?, hh, hl]

/-- Nothing is listed where no word is left. -/
theorem row?_of_le (full : m.memory.size = Memory.capacity)
    (h : Memory.capacity ≤ m.registers.pc.toNat + 1) : row? m.registers.pc m.memory = none := by
  have hl : m.memory[m.registers.pc.toNat + 1]? = none := by
    rw [Array.getElem?_eq_none_iff, full]
    exact h
  unfold row?
  rw [hl]
  split
  · rename_i _ hno
    cases hno
  · rfl

/-! ## §3. A listing and a step. -/

/-- A step finds no word and ends in a fault, or it finds one whose row shows the outcome. -/
theorem StepsTo.outside_or_shows {s : Stepped} (h : m.StepsTo s)
    (live : ∀ cause, m.status ≠ .stopped cause) :
    (Memory.capacity ≤ m.registers.pc.toNat + 1 ∧
      s = m.stop m.registers.pc .addressOutOfBounds []) ∨
    ∃ w, m.Fetches w ∧ (Row.ofWord m.registers.pc w).Shows s.outcome := by
  cases h with
  | stopped cause status => exact absurd status (live cause)
  | unfetched _ outside => exact .inl ⟨outside, rfl⟩
  | refused _ w d cause fetches demand refusal => exact .inr ⟨w, fetches, shows_fault _ demand cause⟩
  | completed _ w flow after fetches granted performs shaped kept =>
    rw [outcome_settle]
    exact .inr ⟨w, fetches, shows_settledOutcome _ w flow⟩

/-- A listing agrees with a step on every machine that is not stopped.  A step of a well-shaped machine
    finds no word at the program counter exactly where the listing has no row there, and then it ends in
    a fault at once.  Any row that there is shows the outcome: it is a word outside the table exactly if
    the step passes over one, and that very word; an instruction that retires is the row's, with its
    mnemonic and operands, and writes back the row's word; and a wait is for the register in the word.
    What the host is told of an instruction that retires is the row's word and the row's texts, and of a word
    that is passed over the row's word.  The row is read before the step, and so it is the same even if the
    instruction overwrites its own bytes. -/
theorem listing_agrees (hm : m.WellShaped) (live : ∀ cause, m.status ≠ .stopped cause) :
    ∃ s, m.step = .ok s ∧
      (row? m.registers.pc m.memory = none ↔
        ∃ cause, Memory.readWord m.memory m.registers.pc = .error cause) ∧
      (row? m.registers.pc m.memory = none →
        s = m.stop m.registers.pc .addressOutOfBounds []) ∧
      ∀ row, row? m.registers.pc m.memory = some row → row.Shows s.outcome ∧ row.Tells s.outcome := by
  obtain ⟨s, h, hs⟩ := exists_step hm
  rcases hs.outside_or_shows live with ⟨outside, hstop⟩ | ⟨w, fetches, hshows⟩
  · have hrow := row?_of_le hm.size_memory outside
    refine ⟨s, h, ⟨fun _ => ⟨_, readWord_of_le outside⟩, fun _ => hrow⟩, fun _ => hstop, ?_⟩
    intro row hsome
    rw [hrow] at hsome
    cases hsome
  · rw [fetches.row?, fetches.readWord]
    refine ⟨s, h, ⟨nofun, nofun⟩, nofun, ?_⟩
    intro row hsome
    obtain rfl := Option.some.inj hsome
    exact ⟨hshows, hshows.tells⟩

/-- An instruction that saves registers over its own two bytes is reported as the listing showed it, while
    the listing behind it shows another; and a word outside the table is reported as a word that was passed
    over, as the listing showed that one. -/
theorem listing_agrees_overwritten_and_unknown :
    let m := ((new .standard).withImage [0xF1, 0x55]).setI 0x200
    let n := (new .standard).withImage [0x80, 0x08]
    (m.WellShaped ∧ (∀ cause, m.status ≠ .stopped cause) ∧
      ∃ row s, row? m.registers.pc m.memory = some row ∧ m.step = .ok s ∧
        Report.ofOutcome s.outcome = .retired "LD [I], V1" 0xF155 ∧
        row.raw = 0xF155 ∧ row.mnemonic = "LD" ∧ row.operands = "[I], V1" ∧
        row? m.registers.pc s.machine.memory = some (Row.ofWord m.registers.pc 0)) ∧
    n.WellShaped ∧ (∀ cause, n.status ≠ .stopped cause) ∧
      ∃ row s, row? n.registers.pc n.memory = some row ∧ n.step = .ok s ∧
        row.isUnknown = true ∧ row.raw = 0x8008 ∧ s.outcome = .skippedUnknown 0x8008 ∧
        Report.ofOutcome s.outcome = .skippedUnknown 0x8008 := by
  intro m n
  have hn := wellShaped_new .standard
  refine ⟨?_, ?_⟩
  · have hm : m.WellShaped := (hn.withImage _).withRegisters _
    have live : ∀ cause, m.status ≠ .stopped cause := nofun
    have hf : m.Fetches 0xF155 :=
      (fetches_withImage hn.size_memory rfl 0xF1 0x55 []).setI 0x200
    obtain ⟨s, h, _, _, hrows⟩ := listing_agrees hm live
    obtain ⟨_, htells⟩ := hrows _ hf.row?
    have hrun : m.step.map (fun s => (s.outcome, row? m.registers.pc s.machine.memory)) =
        .ok (.retired (.saveRegisters 1), some (Row.ofWord m.registers.pc 0)) := by
      decide +kernel
    simp only [h, Except.map, Except.ok.injEq, Prod.mk.injEq] at hrun
    obtain ⟨ho, hafter⟩ := hrun
    exact ⟨hm, live, _, s, hf.row?, h, htells.retired _ ho, rfl, rfl, rfl, hafter⟩
  · have hw : n.WellShaped := hn.withImage _
    have live : ∀ cause, n.status ≠ .stopped cause := nofun
    have hf : n.Fetches 0x8008 := fetches_withImage hn.size_memory rfl 0x80 0x08 []
    obtain ⟨s, h, _, _, hrows⟩ := listing_agrees hw live
    obtain ⟨hshows, htells⟩ := hrows _ hf.row?
    have ho : s.outcome = .skippedUnknown 0x8008 := (hshows.unknown _).mpr ⟨rfl, rfl⟩
    exact ⟨hw, live, _, s, hf.row?, h, rfl, rfl, ho, htells.skippedUnknown _ ho⟩

end Machine

end Chip8
