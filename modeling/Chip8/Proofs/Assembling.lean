/-
  Chip8.Proofs.Assembling — programs as byte strings, in memory and back.

  Assembling writes the words of a program one after the other, and decoding reads them.  Any bytes that
  make whole words come back from the instructions that are read from them; a program comes back from its
  bytes if each of its instructions is canonical, and only then.  Loaded into a machine, a canonical
  program can be got back in two more ways: a listing shows it row by row, and a step from the place of any
  of its instructions carries out that instruction.  Both hold up to the last word of memory.

  Main statements: `codec_exact` and `program_recovered`.
-/
import Chip8.Assembly
import Chip8.Proofs.Extent
import Chip8.Proofs.Listing
import Chip8.Proofs.Spelling
import Mathlib.Algebra.Group.Even

namespace Chip8

open Instruction

/-! ## §1. Programs and bytes. -/

namespace Assembly

/-- Each instruction of a program is read back on its own. -/
theorem decodeAll_assemble (program : List Instruction) :
    decodeAll (assemble program) = program.map fun i => decode i.encode := by
  induction program with
  | nil => rfl
  | cons i program ih =>
    rw [assemble_cons, decodeAll, Word.ofBytes_highByte_lowByte, ih, List.map_cons]

/-- Whole words are written back as they were read. -/
theorem assemble_decodeAll : ∀ {bytes : List UInt8}, Even bytes.length →
    assemble (decodeAll bytes) = bytes
  | [], _ => rfl
  | [_], h => absurd h Nat.not_even_one
  | high :: low :: rest, h => by
    have hrest : Even rest.length := by
      simpa [Nat.even_add_one] using h
    rw [decodeAll, assemble_cons, encode_decode, Word.highByte_ofBytes, Word.lowByte_ofBytes,
      assemble_decodeAll hrest]

theorem even_length_assemble (program : List Instruction) : Even (assemble program).length := by
  rw [length_assemble]
  exact even_two_mul _

/-- Decoding and assembling undo each other exactly where they can.  Bytes come back from the instructions
    that are read from them if and only if they are whole words; and a program comes back from its bytes if
    and only if all its instructions are canonical. -/
theorem codec_exact :
    (∀ bytes, assemble (decodeAll bytes) = bytes ↔ Even bytes.length) ∧
    ∀ program, decodeAll (assemble program) = program ↔ ∀ i ∈ program, i.Canonical := by
  constructor
  · intro bytes
    constructor
    · intro h
      exact h ▸ even_length_assemble _
    · exact assemble_decodeAll
  · intro program
    have hmap : program.map (fun i => decode i.encode) = program.map id ↔
        ∀ i ∈ program, decode i.encode = i := List.map_inj_left
    rw [decodeAll_assemble]
    rw [List.map_id] at hmap
    exact hmap.trans (forall₂_congr fun _ _ => decode_encode_iff)

/-- The two bytes of each instruction lie at twice its place. -/
theorem getElem?_assemble (program : List Instruction) (k : Nat) :
    (assemble program)[2 * k]? = program[k]?.map (·.encode.highByte) ∧
      (assemble program)[2 * k + 1]? = program[k]?.map (·.encode.lowByte) := by
  induction program generalizing k with
  | nil => exact ⟨rfl, rfl⟩
  | cons i program ih =>
    cases k with
    | zero => exact ⟨rfl, rfl⟩
    | succ k => exact ih k

end Assembly

/-! ## §2. Rows of instructions. -/

namespace Disassembly

/-- The row of an instruction at an address. -/
def Row.ofInstruction (address : UInt16) (i : Instruction) : Row :=
  { address, raw := i.encode
    mnemonic := i.mnemonic
    operands := i.operands
    isUnknown := i.isUnknown }

/-- The row of a word is that of the canonical instruction that it spells. -/
theorem Row.ofWord_encode {i : Instruction} (h : i.Canonical) (address : UInt16) :
    ofWord address i.encode = ofInstruction address i := by
  rw [ofWord, decode_encode_iff.mpr h, ofInstruction]

end Disassembly

open Assembly Disassembly

/-! ## §3. Programs in memory. -/

namespace Machine

variable {config : Config} {program : List Instruction}

/-- The machine with the program counter elsewhere. -/
def atPc (m : Machine) (pc : UInt16) : Machine := { m with registers := { m.registers with pc } }

/-- A fresh machine with a program loaded. -/
def withProgram (config : Config) (program : List Instruction) : Machine :=
  (new config).withImage (assemble program)

/-- The address of an instruction of a program, by its place in the program. -/
def placeOf (k : Nat) : UInt16 := UInt16.ofNat (0x200 + 2 * k)

theorem toNat_placeOf {k : Nat} (h : k < 1792) : (placeOf k).toNat = 0x200 + 2 * k := by
  have hlt : 0x200 + 2 * k < 2 ^ 16 := by omega
  exact UInt16.toNat_ofNat_of_lt' hlt

/-- A program is loaded if it has no more instructions than there are words for it. -/
theorem ofImage_assemble (config : Config) (h : program.length ≤ 1792) :
    ofImage config (assemble program) = .ok (withProgram config program) := by
  apply ofImage_of_le
  rw [length_assemble]
  show 2 * program.length ≤ 3584
  omega

theorem ofImage_assemble_of_lt (config : Config) (h : 1792 < program.length) :
    ofImage config (assemble program) = .error (.fault .imageTooLarge) := by
  apply ofImage_of_lt
  rw [length_assemble]
  show 3584 < 2 * program.length
  omega

theorem ofImage_assemble_eq_ok_iff {m : Machine} :
    ofImage config (assemble program) = .ok m ↔
      program.length ≤ 1792 ∧ m = withProgram config program := by
  rcases Nat.lt_or_ge 1792 program.length with hlt | hle
  · rw [ofImage_assemble_of_lt config hlt]
    exact iff_of_false nofun fun h => absurd h.1 (Nat.not_le.mpr hlt)
  · rw [ofImage_assemble config hle, Except.ok.injEq, eq_comm, and_iff_right hle]

/-- At the place of an instruction stands its word. -/
theorem fetches_withProgram (config : Config) (h : program.length ≤ 1792) {k : Nat} {i : Instruction}
    (hi : program[k]? = some i) :
    ((withProgram config program).atPc (placeOf k)).Fetches i.encode := by
  obtain ⟨hk, _⟩ := List.getElem?_eq_some_iff.mp hi
  obtain ⟨hh, hl⟩ := getElem?_assemble program k
  rw [hi] at hh hl
  have hmemory : ((withProgram config program).atPc (placeOf k)).memory =
      ((new config).withImage (assemble program)).memory := rfl
  have hpc : ((withProgram config program).atPc (placeOf k)).registers.pc.toNat =
      Memory.programStart.toNat + 2 * k := toNat_placeOf (by omega)
  have hinside : Memory.programStart.toNat + 2 * k + 1 < Memory.capacity := by
    show 0x200 + 2 * k + 1 < 0x1000
    omega
  have hf := fetches_of_image (wellShaped_new config).size_memory hmemory hpc hinside hh hl
  rwa [Word.ofBytes_highByte_lowByte] at hf

/-- A loaded program is listed instruction by instruction. -/
theorem range_withProgram (config : Config) (h : program.length ≤ 1792)
    (canonical : ∀ i ∈ program, i.Canonical) :
    range 0x200 program.length (withProgram config program).memory =
      program.mapIdx fun k i => Row.ofInstruction (placeOf k) i := by
  apply List.ext_getElem?
  intro k
  rw [getElem?_range, List.getElem?_mapIdx]
  rcases hi : program[k]? with _ | i
  · have hk := List.getElem?_eq_none_iff.mp hi
    exact if_neg (by omega)
  · obtain ⟨hk, _⟩ := List.getElem?_eq_some_iff.mp hi
    have hrow := (fetches_withProgram config h hi).row?
    rw [Row.ofWord_encode (canonical i (List.mem_of_getElem? hi))] at hrow
    have hin : k < program.length ∧ (0x200 : UInt16).toNat + 2 * k < 0x10000 := by
      show _ ∧ 0x200 + 2 * k < 0x10000
      omega
    rw [if_pos hin]
    exact hrow

/-- A step from the place of a canonical instruction carries out that instruction. -/
theorem exists_dispatch_withProgram (config : Config) (h : program.length ≤ 1792) {k : Nat}
    {i : Instruction} (hi : program[k]? = some i) (canonical : i.Canonical) :
    ∃ s, ((withProgram config program).atPc (placeOf k)).step = .ok s ∧
      ((withProgram config program).atPc (placeOf k)).dispatch i.encode i = .ok s := by
  have hm : ((withProgram config program).atPc (placeOf k)).WellShaped :=
    ((wellShaped_new config).withImage _).withRegisters _
  obtain ⟨s, hs, _⟩ := exists_step hm
  have hd := step_of_readWord rfl (fetches_withProgram config h hi).readWord
  rw [decode_encode_iff.mpr canonical] at hd
  exact ⟨s, hs, hd.symm.trans hs⟩

/-! ## §4. The program is recovered. -/

/-- A program of canonical instructions, those that words spell, survives being assembled and loaded.  A
    machine is made with it exactly if it has no more than 1792 instructions, and otherwise the image is
    refused as too large.  On a machine that is made, the listing of as many rows from the program's start
    is the program, each row with the address, the word and the text of its instruction; and from the
    address of each instruction, which is a number of the address space, a step reads its word, which
    decodes to it, and comes to what carrying it out comes to. -/
theorem program_recovered (config : Config) (spelled : ∀ i ∈ program, ∃ w, decode w = i) :
    ((∃ m, ofImage config (assemble program) = .ok m) ↔ program.length ≤ 1792) ∧
    (1792 < program.length → ofImage config (assemble program) = .error (.fault .imageTooLarge)) ∧
    ∀ m, ofImage config (assemble program) = .ok m →
      range 0x200 program.length m.memory =
        program.mapIdx (fun k i => Row.ofInstruction (placeOf k) i) ∧
      ∀ k i, program[k]? = some i →
        (placeOf k).toNat = 0x200 + 2 * k ∧
        Memory.readWord m.memory (placeOf k) = .ok i.encode ∧ decode i.encode = i ∧
        ∃ s, (m.atPc (placeOf k)).step = .ok s ∧
          (m.atPc (placeOf k)).dispatch i.encode i = .ok s := by
  have canonical : ∀ i ∈ program, i.Canonical :=
    fun i hi => canonical_iff_exists_decode.mpr (spelled i hi)
  refine ⟨?_, ofImage_assemble_of_lt config, ?_⟩
  · simp only [ofImage_assemble_eq_ok_iff, exists_and_left, exists_eq, and_true]
  · intro m hm
    obtain ⟨hle, rfl⟩ := ofImage_assemble_eq_ok_iff.mp hm
    refine ⟨range_withProgram config hle canonical, ?_⟩
    intro k i hi
    obtain ⟨hk, _⟩ := List.getElem?_eq_some_iff.mp hi
    have hc := canonical i (List.mem_of_getElem? hi)
    exact ⟨toNat_placeOf (by omega), (fetches_withProgram config hle hi).readWord,
      decode_encode_iff.mpr hc, exists_dispatch_withProgram config hle hi hc⟩

/-- A program that fills the memory ends with a jump in the last word, which is listed and carried out
    there. -/
theorem program_recovered_full :
    let program : List Instruction := List.replicate 1791 (.addByte 0 1) ++ [.jump 0x200]
    (∀ i ∈ program, ∃ w, decode w = i) ∧
      ∃ m, ofImage .standard (assemble program) = .ok m ∧
        (range 0x200 1792 m.memory)[1791]? =
          some { address := 0xFFE, raw := 0x1200, mnemonic := "JP", operands := "0x200"
                 isUnknown := false } ∧
        ∃ s, (m.atPc 0xFFE).step = .ok s ∧ s.outcome = .retired (.jump 0x200) := by
  intro program
  have hlength : program.length = 1792 := by
    rw [List.length_append, List.length_replicate]
    rfl
  have hlast : program[1791]? = some (.jump 0x200) := by
    rw [List.getElem?_append_right (by rw [List.length_replicate]), List.length_replicate]
    rfl
  have spelled : ∀ i ∈ program, ∃ w, decode w = i := by
    intro i hi
    rcases List.mem_append.mp hi with h | h
    · exact ⟨0x7001, (List.eq_of_mem_replicate h).symm⟩
    · exact ⟨0x1200, (List.mem_singleton.mp h).symm⟩
  obtain ⟨hfits, _, hloaded⟩ := program_recovered .standard spelled
  obtain ⟨m, hm⟩ := hfits.mpr (Nat.le_of_eq hlength)
  obtain ⟨hrange, hsteps⟩ := hloaded m hm
  obtain ⟨_, _, _, s, hs, hd⟩ := hsteps 1791 _ hlast
  refine ⟨spelled, m, hm, ?_, s, hs, ?_⟩
  · rw [hlength] at hrange
    rw [hrange, List.getElem?_mapIdx, hlast]
    rfl
  · cases hd
    rfl

end Machine

end Chip8
