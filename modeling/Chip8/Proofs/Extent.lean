/-
  Chip8.Proofs.Extent — how far a listing goes.

  A range is made row by row, and it may end before it has as many rows as were asked for: where memory
  has no whole word left, or where the addresses end.  Behind the first address without a row there is
  none with one, so the rows need not be counted on the way: each place of a range holds the row at its own
  address, and nothing where there is none.  How many rows there are, and that a range can be listed in
  pieces, then follows place by place.

  Main statements: `getElem?_range` (what is at each place) and `range_exact` (how many places there are).
-/
import Chip8.Disassembly

namespace Chip8

namespace Disassembly

variable {memory : Array UInt8}

/-! ## §1. The places of a range. -/

/-- There is no row exactly where not even a last byte of a word is left. -/
theorem row?_eq_none_iff {address : UInt16} :
    row? address memory = none ↔ memory.size ≤ address.toNat + 1 := by
  unfold row?
  rcases Nat.lt_or_ge (address.toNat + 1) memory.size with hlt | hge
  · have hh : address.toNat < memory.size := by omega
    rw [Array.getElem?_eq_getElem hh, Array.getElem?_eq_getElem hlt]
    simp only [reduceCtorEq, false_iff]
    omega
  · rw [Array.getElem?_eq_none hge]
    split
    · simp_all
    · exact iff_of_true rfl hge

/-- The address of a later row, where the addresses go that far. -/
theorem add_two_mul {start : UInt16} (h : start.toNat + 2 < 0x10000) (k : Nat) :
    (start + 2).toNat + 2 * k = start.toNat + 2 * (k + 1) := by
  have h2 : (start + 2).toNat = start.toNat + 2 := by
    rw [UInt16.toNat_add]
    exact Nat.mod_eq_of_lt h
  omega

/-- The rows of a range are those at consecutive words, as many as were asked for, as far as there are
    addresses and as far as there are rows. -/
theorem getElem?_range (count : Nat) :
    ∀ (start : UInt16) (k : Nat), (range start count memory)[k]? =
      if k < count ∧ start.toNat + 2 * k < 0x10000 then
        row? (UInt16.ofNat (start.toNat + 2 * k)) memory
      else none := by
  induction count with
  | zero =>
    intro start k
    rfl
  | succ count ih =>
    intro start k
    rw [range]
    split
    -- Where no row is, none is behind it.
    · rename_i hnone
      have hsize := row?_eq_none_iff.mp hnone
      split
      · rename_i hk
        have hlater : row? (UInt16.ofNat (start.toNat + 2 * k)) memory = none := by
          rw [row?_eq_none_iff, UInt16.toNat_ofNat_of_lt' hk.2]
          omega
        exact hlater.symm
      · rfl
    · rename_i row hrow
      cases k with
      | zero =>
        have hfirst : UInt16.ofNat (start.toNat + 2 * 0) = start := UInt16.ofNat_toNat
        have hin : 0 < count + 1 ∧ start.toNat + 2 * 0 < 0x10000 :=
          ⟨Nat.succ_pos count, start.toNat_lt⟩
        rw [if_pos hin, hfirst, hrow]
        split
        · rfl
        · rfl
      | succ k =>
        split
        · rename_i hnext
          rw [List.getElem?_cons_succ, ih, add_two_mul hnext]
          simp only [Nat.add_lt_add_iff_right]
        · rename_i hlast
          have hout : ¬(k + 1 < count + 1 ∧ start.toNat + 2 * (k + 1) < 0x10000) := by omega
          rw [if_neg hout]
          rfl

/-! ## §2. The rows of a range. -/

/-- A row tells the address that it was asked for. -/
theorem address_of_row? {address : UInt16} {row : Row} (h : row? address memory = some row) :
    row.address = address := by
  unfold row? at h
  split at h
  · cases h
    rfl
  · cases h

/-- The row at a place of a range is that of the word at its address. -/
theorem row?_of_getElem?_range {start : UInt16} {count k : Nat} {row : Row}
    (h : (range start count memory)[k]? = some row) :
    k < count ∧ row.address.toNat = start.toNat + 2 * k ∧ row? row.address memory = some row := by
  rw [getElem?_range, Option.ite_none_right_eq_some] at h
  obtain ⟨⟨hk, hlt⟩, hrow⟩ := h
  have haddress := address_of_row? hrow
  refine ⟨hk, ?_, ?_⟩
  · rw [haddress, UInt16.toNat_ofNat_of_lt' hlt]
  · rw [haddress]
    exact hrow

/-! ## §3. The number of rows. -/

/-- The number of whole words from an address on, in a memory of the given size.  The last word of all begins
    at the last address, so bytes are of use up to the one behind it. -/
def wordsFrom (start : UInt16) (size : Nat) : Nat :=
  if size ≤ start.toNat then 0 else (min size 0x10001 - start.toNat) / 2

/-- A word is counted exactly if it begins at an address and both its bytes are in memory. -/
theorem lt_wordsFrom_iff {start : UInt16} {size k : Nat} :
    k < wordsFrom start size ↔ start.toNat + 2 * k < 0x10000 ∧ start.toNat + 2 * k + 1 < size := by
  have hstart := start.toNat_lt
  unfold wordsFrom
  split <;> omega

/-- A place of a range is empty exactly behind the rows that were asked for and behind those that there are. -/
theorem getElem?_range_eq_none_iff {start : UInt16} {count k : Nat} :
    (range start count memory)[k]? = none ↔ min count (wordsFrom start memory.size) ≤ k := by
  have hcounted : k < wordsFrom start memory.size ↔ _ := lt_wordsFrom_iff
  rw [getElem?_range]
  split
  · rename_i hk
    rw [row?_eq_none_iff, UInt16.toNat_ofNat_of_lt' hk.2]
    omega
  · simp only [true_iff]
    omega

/-- A range has as many rows as were asked for, or as there are words. -/
theorem length_range (start : UInt16) (count : Nat) :
    (range start count memory).length = min count (wordsFrom start memory.size) := by
  apply Nat.le_antisymm
  · exact List.getElem?_eq_none_iff.mp (getElem?_range_eq_none_iff.mpr (Nat.le_refl _))
  · exact getElem?_range_eq_none_iff.mp (List.getElem?_eq_none_iff.mpr (Nat.le_refl _))

/-! ## §4. Ranges in pieces. -/

/-- A range is a shorter one and the range behind it, as far as the addresses go. -/
theorem range_add {start : UInt16} {a : Nat} (h : start.toNat + 2 * a < 0x10000)
    (full : (range start a memory).length = a) (b : Nat) :
    range start (a + b) memory =
      range start a memory ++ range (start + UInt16.ofNat (2 * a)) b memory := by
  have hbehind : (start + UInt16.ofNat (2 * a)).toNat = start.toNat + 2 * a := by
    rw [UInt16.toNat_add, UInt16.toNat_ofNat_of_lt' (show 2 * a < 0x10000 by omega)]
    exact Nat.mod_eq_of_lt h
  apply List.ext_getElem?
  intro k
  rcases Nat.lt_or_ge k a with hlt | hge
  -- A row of the shorter range stands at the same place of the whole.
  · have hk : k < a + b ↔ k < a := by omega
    rw [List.getElem?_append_left (by omega), getElem?_range, getElem?_range]
    simp only [hk]
  -- Behind it, places are counted from its end, and so are addresses.
  · have hplace : start.toNat + 2 * a + 2 * (k - a) = start.toNat + 2 * k := by omega
    have hk : k < a + b ↔ k - a < b := by omega
    rw [List.getElem?_append_right (by omega), full, getElem?_range, getElem?_range, hbehind, hplace]
    simp only [hk]

/-- The extent of a range, for a memory of any size, any start and any number of rows asked for.  It has that
    many rows, or as many as there are whole words from the start on; the row at each place is the one at its
    own address, which is two on for each place and never wraps around.  So a range can be listed in pieces:
    the second piece begins where the first one ends, if that has all its rows and another address follows. -/
theorem range_exact (start : UInt16) (memory : Array UInt8) :
    (∀ count,
      (range start count memory).length = min count (wordsFrom start memory.size) ∧
      ∀ k, k < min count (wordsFrom start memory.size) →
        ∃ row, (range start count memory)[k]? = some row ∧
          row.address.toNat = start.toNat + 2 * k ∧ row? row.address memory = some row) ∧
    ∀ a b, start.toNat + 2 * a ≤ 0xFFFF → (range start a memory).length = a →
      range start (a + b) memory =
        range start a memory ++ range (start + UInt16.ofNat (2 * a)) b memory := by
  constructor
  · intro count
    refine ⟨length_range start count, ?_⟩
    intro k hk
    have hsome : (range start count memory)[k]? ≠ none :=
      fun hnone => Nat.not_le.mpr hk (getElem?_range_eq_none_iff.mp hnone)
    obtain ⟨row, hrow⟩ := Option.ne_none_iff_exists'.mp hsome
    obtain ⟨_, haddress, hat⟩ := row?_of_getElem?_range hrow
    exact ⟨row, hrow, haddress, hat⟩
  · intro a b h full
    exact range_add (by omega) full b

/-- If memory has one byte more than there are addresses, three words begin at odd addresses from `0xFFFB` on;
    the last of them begins at the last address, and a range that begins there is the rest. -/
theorem range_exact_last :
    let memory : Array UInt8 := Array.replicate 0x10001 0x12
    (range 0xFFFB 9 memory).length = 3 ∧
      (∃ row, (range 0xFFFB 9 memory)[2]? = some row ∧ row.address.toNat = 0xFFFF) ∧
      0xFFFB + 2 * 2 ≤ 0xFFFF ∧ (range 0xFFFB 2 memory).length = 2 ∧
      range 0xFFFB (2 + 7) memory = range 0xFFFB 2 memory ++ range 0xFFFF 7 memory := by
  intro memory
  have hsize : memory.size = 0x10001 := Array.size_replicate ..
  obtain ⟨hrows, hpieces⟩ := range_exact 0xFFFB memory
  have hlength : ∀ count, (range 0xFFFB count memory).length = min count 3 := by
    intro count
    rw [(hrows count).1, hsize]
    rfl
  obtain ⟨row, hrow, haddress, _⟩ := (hrows 9).2 2 (by rw [hsize]; decide)
  exact ⟨hlength 9, ⟨row, hrow, haddress⟩, by decide, hlength 2, hpieces 2 7 (by decide) (hlength 2)⟩

end Disassembly

end Chip8
