/-
  Chip8.Proofs.Centering — which words a window shows, and when its centre is one of them.

  A window starts as many words ahead of its centre as were asked for, or at address zero if there are not
  so many.  From an even centre, address zero is a whole number of words away.  From an odd one it is not:
  a window that is cut off there shows the words at even addresses, and so it is a window around the
  address below its centre and misses the centre itself.

  Main statements: `surrounds_range` (ranges), `window_exact` (windows) and `window_misses_center`.
-/
import Chip8.Proofs.Extent

namespace Chip8

namespace Disassembly

variable {memory : Array UInt8}

/-! ## §1. The rows of a range. -/

/-- A range has the rows at words behind its start, as many words as were asked for. -/
theorem mem_range_iff {start : UInt16} {count : Nat} {row : Row} :
    row ∈ range start count memory ↔
      ∃ k, k < count ∧ row.address.toNat = start.toNat + 2 * k ∧
        row? row.address memory = some row := by
  rw [List.mem_iff_getElem?]
  constructor
  · rintro ⟨k, h⟩
    exact ⟨k, row?_of_getElem?_range h⟩
  · rintro ⟨k, hk, haddress, hrow⟩
    have hlt : start.toNat + 2 * k < 0x10000 := haddress ▸ row.address.toNat_lt
    refine ⟨k, ?_⟩
    rw [getElem?_range, if_pos ⟨hk, hlt⟩, ← haddress, UInt16.ofNat_toNat]
    exact hrow

/-- The addresses of a range ascend. -/
theorem pairwise_range (start : UInt16) (count : Nat) :
    (range start count memory).Pairwise fun row row' => row.address < row'.address := by
  rw [List.pairwise_iff_getElem]
  intro j k hj hk hjk
  obtain ⟨_, hfirst, _⟩ := row?_of_getElem?_range (List.getElem?_eq_getElem hj)
  obtain ⟨_, hsecond, _⟩ := row?_of_getElem?_range (List.getElem?_eq_getElem hk)
  rw [UInt16.lt_iff_toNat_lt]
  omega

/-! ## §2. Rows around an address. -/

/-- Says of rows that they are those of the words around an address, in ascending order: from `before` words
    ahead of it to `after` words behind it, as far as there are addresses and as far as both bytes of the
    word are in memory. -/
structure Surrounds (memory : Array UInt8) (center before after : Nat) (rows : List Row) : Prop where
  ascending : rows.Pairwise fun row row' => row.address < row'.address
  mem_iff : ∀ row, row ∈ rows ↔
    ∃ (k : Int) (address : UInt16), -(before : Int) ≤ k ∧ k ≤ after ∧
      (address.toNat : Int) = center + 2 * k ∧ address.toNat + 1 < memory.size ∧
        row? address memory = some row

/-- A range surrounds the address that is some words behind its start, if there are no more words in front
    than were asked for, or the addresses begin with the start. -/
theorem surrounds_range {start : UInt16} {center lead before : Nat}
    (hcenter : start.toNat + 2 * lead = center) (hlead : lead ≤ before)
    (hstart : lead = before ∨ start.toNat = 0) (after : Nat) :
    Surrounds memory center before after (range start (lead + 1 + after) memory) where
  ascending := pairwise_range start _
  mem_iff := by
    intro row
    rw [mem_range_iff]
    constructor
    · rintro ⟨k, hk, haddress, hrow⟩
      have hsize : row.address.toNat + 1 < memory.size := by
        refine Nat.lt_of_not_le fun hle => ?_
        rw [row?_eq_none_iff.mpr hle] at hrow
        cases hrow
      -- Counted from the centre, the first word of the range has the number `-lead`.
      exact ⟨k - lead, row.address, by omega, by omega, by omega, hsize, hrow⟩
    · rintro ⟨k, address, hbefore, hafter, haddress, _, hrow⟩
      rw [← address_of_row? hrow] at haddress hrow
      have hk : 0 ≤ k + lead := by omega
      exact ⟨(k + lead).toNat, by omega, by omega, hrow⟩

/-! ## §3. Windows. -/

/-- A window reaches back two bytes for each word ahead, but not past address zero; no address is so large
    that the limit of sixteen bits shows. -/
theorem reach_eq_min (center : UInt16) (before : Nat) :
    reach center before = min (2 * before) center.toNat := by
  have hlt := center.toNat_lt
  rw [reach]
  omega

/-- The address at which a window starts. -/
theorem toNat_sub_reach (center : UInt16) (before : Nat) :
    (center - UInt16.ofNat (reach center before)).toNat = center.toNat - min (2 * before) center.toNat := by
  have hle : min (2 * before) center.toNat ≤ center.toNat := Nat.min_le_right ..
  have hreach : (UInt16.ofNat (reach center before)).toNat = min (2 * before) center.toNat := by
    rw [reach_eq_min]
    exact UInt16.toNat_ofNat_of_lt' (Nat.lt_of_le_of_lt hle center.toNat_lt)
  rw [UInt16.toNat_sub_of_le _ _ (UInt16.le_iff_toNat_le.mpr (by omega)), hreach]

/-- A window surrounds its centre, unless it is cut off and the centre is odd. -/
theorem surrounds_window {center : UInt16} {before : Nat}
    (h : center.toNat % 2 = 0 ∨ 2 * before ≤ center.toNat) (after : Nat) :
    Surrounds memory center.toNat before after (window center before after memory) := by
  have hstart := toNat_sub_reach center before
  have hreach := reach_eq_min center before
  apply surrounds_range
  · omega
  · omega
  · omega

/-- A window that is cut off surrounds the address below its centre, if that is odd. -/
theorem surrounds_window_of_odd {center : UInt16} {before : Nat} (odd : center.toNat % 2 = 1)
    (cut : center.toNat < 2 * before) (after : Nat) :
    Surrounds memory (center.toNat - 1) before after (window center before after memory) := by
  have hstart := toNat_sub_reach center before
  have hreach := reach_eq_min center before
  apply surrounds_range
  · omega
  · omega
  · omega

/-- What a window shows.  For a memory of any size, any centre and any numbers of words in front and behind,
    its rows are those of the words around the centre, in order and without a gap, if the centre is even
    or there are as many bytes in front of it as the window wants; else they are those of the words around
    the address below the centre.  So a centre that has a row is shown in the first case, and it is not in
    the second. -/
theorem window_exact (center : UInt16) (before after : Nat) (memory : Array UInt8) :
    (center.toNat % 2 = 0 ∨ 2 * before ≤ center.toNat →
      Surrounds memory center.toNat before after (window center before after memory)) ∧
    (center.toNat % 2 = 1 → center.toNat < 2 * before →
      Surrounds memory (center.toNat - 1) before after (window center before after memory)) ∧
    ∀ row, row? center memory = some row →
      (row ∈ window center before after memory ↔
        center.toNat % 2 = 0 ∨ 2 * before ≤ center.toNat) := by
  refine ⟨fun h => surrounds_window h after, fun odd cut => surrounds_window_of_odd odd cut after, ?_⟩
  intro row hrow
  have hsize : center.toNat + 1 < memory.size := by
    refine Nat.lt_of_not_le fun hle => ?_
    rw [row?_eq_none_iff.mpr hle] at hrow
    cases hrow
  by_cases h : center.toNat % 2 = 0 ∨ 2 * before ≤ center.toNat
  · refine iff_of_true ?_ h
    exact ((surrounds_window h after).mem_iff row).mpr
      ⟨0, center, by omega, by omega, by omega, hsize, hrow⟩
  · refine iff_of_false ?_ h
    intro hmem
    -- The words around the address below the centre have other addresses than the centre.
    obtain ⟨k, address, _, _, haddress, _, hrow'⟩ :=
      ((surrounds_window_of_odd (by omega) (by omega) after).mem_iff row).mp hmem
    have hsame : address = center := (address_of_row? hrow').symm.trans (address_of_row? hrow)
    rw [hsame] at haddress
    omega

/-- A window around address three with one word in front is whole, and one with two words in front is cut off:
    it shows the words at zero, two and four, and not the one at three. -/
theorem window_exact_cut :
    let memory : Array UInt8 := #[0x00, 0xE0, 0x00, 0xEE, 0x12, 0x34]
    Surrounds memory 3 1 1 (window 3 1 1 memory) ∧
      3 % 2 = 1 ∧ 3 < 2 * 2 ∧ Surrounds memory 2 2 1 (window 3 2 1 memory) ∧
      Row.ofWord 3 0xEE12 ∈ window 3 1 1 memory ∧ Row.ofWord 3 0xEE12 ∉ window 3 2 1 memory := by
  intro memory
  have hrow : row? 3 memory = some (Row.ofWord 3 0xEE12) := by decide +kernel
  obtain ⟨hwhole, _, hshown⟩ := window_exact 3 1 1 memory
  obtain ⟨_, hcut, hmissed⟩ := window_exact 3 2 1 memory
  refine ⟨hwhole (.inr (by decide)), rfl, by decide, hcut rfl (by decide), ?_, ?_⟩
  · exact (hshown _ hrow).mpr (.inr (by decide))
  · rw [hmissed _ hrow]
    decide

/-- The window around address one with one word in front and none behind shows the word at zero and not the
    one at its centre, although that is all in memory. -/
theorem window_misses_center :
    let memory : Array UInt8 := #[0x00, 0xE0, 0x00, 0xEE]
    window 1 1 0 memory = [Row.ofWord 0 0x00E0] ∧
      row? 1 memory = some (Row.ofWord 1 0xE000) ∧
      ¬Surrounds memory 1 1 0 (window 1 1 0 memory) := by
  intro memory
  have hwindow : window 1 1 0 memory = [Row.ofWord 0 0x00E0] := by decide +kernel
  have hrow : row? 1 memory = some (Row.ofWord 1 0xE000) := by decide +kernel
  refine ⟨hwindow, hrow, ?_⟩
  intro h
  have hmem : Row.ofWord 1 0xE000 ∈ window 1 1 0 memory :=
    (h.mem_iff _).mpr ⟨0, 1, by decide, by decide, rfl, by decide, hrow⟩
  rw [hwindow, List.mem_singleton] at hmem
  cases congrArg Row.address hmem

end Disassembly

end Chip8
