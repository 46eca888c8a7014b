/-
  Chip8.Memory.Basic — checked access to memory.

  Memory is an array of bytes.  An access first asks for the span that it wants: `span` answers with the
  span or with a fault, by the sum of address and length over the naturals, so no address wraps around.
  The span in hand, `readSpan` and `writeSpan` fail only on an array that is shorter than the address
  space.

  Main statements: `writeSpan_eq` (a write to a full memory succeeds), `size_overlay` and
  `getElem?_overlay` (what a write does to the size and to each byte).
-/
import Chip8.Fault
import Chip8.Instruction.Word
import Chip8.Memory.Layout

namespace Chip8

/-! ## §1. Spans. -/

/-- A run of addresses inside the address space; `stop` is one past the last. -/
structure Span where
  /-- The first address. -/
  start : Nat
  /-- One past the last address. -/
  stop : Nat
  /-- A span does not run backwards. -/
  start_le_stop : start ≤ stop := by omega
  /-- A span ends with the address space at the latest. -/
  stop_le_capacity : stop ≤ Memory.capacity := by omega

namespace Span

/-- The number of addresses in a span. -/
def length (s : Span) : Nat := s.stop - s.start

end Span

/-- The span that the font occupies. -/
def Font.span : Span :=
  { start := Font.start.toNat, stop := Font.last.toNat + 1
    start_le_stop := by decide, stop_le_capacity := by decide }

namespace Memory

/-- The span of `length` addresses from `address` on, or a fault if it runs past the last address. -/
def span (address : UInt16) (length : Nat) : Except Fault Span :=
  if h : address.toNat + length ≤ capacity then
    .ok { start := address.toNat, stop := address.toNat + length, stop_le_capacity := h }
  else
    .error .addressOutOfBounds

/-- A memory of zeros. -/
def blank : Array UInt8 := Array.replicate capacity 0

/-! ## §2. Reading. -/

/-- The word at an address, first byte high; a memory that ends before the word is a fault as well. -/
def readWord (memory : Array UInt8) (address : UInt16) : Except Fault Word :=
  match span address instructionSize with
  | .error cause => .error cause
  | .ok s =>
    match memory[s.start]?, memory[s.start + 1]? with
    | some high, some low => .ok (Word.ofBytes high low)
    | _, _ => .error .addressOutOfBounds

/-- The bytes of a span. -/
def readSpan (memory : Array UInt8) (s : Span) : Except Breach (List UInt8) :=
  if s.stop ≤ memory.size then .ok (memory.extract s.start s.stop).toList else .error .memory

/-! ## §3. Writing. -/

/-- The memory with bytes written over it from an address on; what does not fit is dropped. -/
def overlay (memory : Array UInt8) (start : Nat) : List UInt8 → Array UInt8
  | [] => memory
  | byte :: bytes => overlay (memory.setIfInBounds start byte) (start + 1) bytes

/-- The memory with the bytes written over a span that is as long as they are many. -/
def writeSpan (memory : Array UInt8) (s : Span) (bytes : List UInt8) :
    Except Breach (Array UInt8) :=
  if s.stop ≤ memory.size ∧ bytes.length = s.length then .ok (overlay memory s.start bytes)
  else .error .memory

/-! ## §4. What the operations do. -/

/-- A blank memory fills the address space. -/
@[simp] theorem size_blank : blank.size = capacity := by
  simp [blank]

/-- A span is granted exactly if it ends inside the address space. -/
theorem span_eq_ok_iff {address : UInt16} {length : Nat} {s : Span} :
    span address length = .ok s ↔ s.start = address.toNat ∧ s.stop = address.toNat + length := by
  unfold span
  split
  · rw [Except.ok.injEq]
    constructor
    · intro h'
      subst h'
      exact ⟨rfl, rfl⟩
    · intro h'
      obtain ⟨h1, h2⟩ := h'
      cases s
      simp_all
  · rename_i h
    constructor
    · intro hf
      cases hf
    · intro h'
      obtain ⟨_, h2⟩ := h'
      exact absurd (h2 ▸ s.stop_le_capacity) h

/-- A span is refused exactly if it ends past the address space, and then as a memory fault. -/
theorem span_eq_error_iff {address : UInt16} {length : Nat} {cause : Fault} :
    span address length = .error cause ↔
      capacity < address.toNat + length ∧ cause = .addressOutOfBounds := by
  unfold span
  split
  · constructor
    · intro hf
      cases hf
    · intro h'
      obtain ⟨h1, _⟩ := h'
      omega
  · rw [Except.error.injEq]
    constructor
    · intro h'
      subst h'
      exact ⟨by omega, rfl⟩
    · intro h'
      obtain ⟨_, rfl⟩ := h'
      rfl

/-- A write changes no sizes. -/
@[simp] theorem size_overlay (memory : Array UInt8) (start : Nat) (bytes : List UInt8) :
    (overlay memory start bytes).size = memory.size := by
  induction bytes generalizing memory start with
  | nil => rfl
  | cons byte bytes ih => simp [overlay, ih]

/-- A write puts each byte at its place and leaves every other place alone. -/
theorem getElem?_overlay (memory : Array UInt8) (start : Nat) (bytes : List UInt8) (i : Nat) :
    (overlay memory start bytes)[i]? =
      if start ≤ i ∧ i < start + bytes.length ∧ i < memory.size then bytes[i - start]?
      else memory[i]? := by
  induction bytes generalizing memory start with
  | nil =>
    have h : ¬(start ≤ i ∧ i < start + 0 ∧ i < memory.size) := by omega
    simp only [overlay, List.length_nil, if_neg h]
  | cons byte bytes ih =>
    rw [overlay, ih, Array.size_setIfInBounds, List.length_cons, Array.getElem?_setIfInBounds]
    by_cases hs : start = i
    · subst hs
      have hi : ¬(start + 1 ≤ start ∧ start < start + 1 + bytes.length ∧ start < memory.size) := by
        omega
      rw [if_neg hi]
      by_cases hm : start < memory.size
      · simp [hm]
      · simp [hm]
    · by_cases hi : start + 1 ≤ i ∧ i < start + 1 + bytes.length ∧ i < memory.size
      · have hi' : start ≤ i ∧ i < start + (bytes.length + 1) ∧ i < memory.size := by omega
        rw [if_pos hi, if_pos hi', show i - start = i - (start + 1) + 1 by omega,
          List.getElem?_cons_succ]
      · have hi' : ¬(start ≤ i ∧ i < start + (bytes.length + 1) ∧ i < memory.size) := by omega
        rw [if_neg hi, if_neg hi', if_neg hs]

/-- A write to a full memory succeeds when the bytes fill the span. -/
theorem writeSpan_eq {memory : Array UInt8} {s : Span} {bytes : List UInt8}
    (full : memory.size = capacity) (fits : bytes.length = s.length) :
    writeSpan memory s bytes = .ok (overlay memory s.start bytes) := by
  have h := s.stop_le_capacity
  rw [writeSpan, if_pos ⟨by omega, fits⟩]

/-- A read from a full memory succeeds. -/
theorem readSpan_eq {memory : Array UInt8} {s : Span} (full : memory.size = capacity) :
    readSpan memory s = .ok (memory.extract s.start s.stop).toList := by
  have h := s.stop_le_capacity
  rw [readSpan, if_pos (by omega)]

end Memory

end Chip8
