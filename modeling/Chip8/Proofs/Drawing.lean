/-
  Chip8.Proofs.Drawing — what drawing does to each pixel.

  Drawing walks a list of cells and toggles them one after the other.  The order does not matter to the
  grid: a pixel ends up toggled as often as its cell is listed.  Nor does it matter to the collision: a
  lit pixel is turned off on the way exactly if the pixel, counted with its hits, reaches two.

  Main statements: `exists_toggleCells` (drawing inside the grid succeeds), `getElem?_toggleSprite` (each
  pixel behind a sprite), `collision_toggleSprite` (when a lit pixel was turned off), `exists_draw` (a
  sprite is drawn without a breach).
-/
import Chip8.Framebuffer
import Mathlib.Data.Finset.Prod
import Mathlib.Data.List.Count
import Mathlib.Data.List.ProdSigma

namespace Chip8

namespace Framebuffer

/-! ## §1. Pixels. -/

/-- Says that a grid has a pixel for every position and that each is off or on. -/
structure Regular (pixels : Array UInt8) : Prop where
  size_eq : pixels.size = pixelCount
  binary : ∀ p ∈ pixels, p = 0 ∨ p = 1

theorem Regular.clear {f : Framebuffer} (hr : Regular f.pixels) : Regular f.clear.pixels where
  size_eq := (Array.size_replicate ..).trans hr.size_eq
  binary := by
    intro p hp
    exact .inl (Array.mem_replicate.mp hp).2

theorem toNat_le_one {value : UInt8} (h : value = 0 ∨ value = 1) : value.toNat ≤ 1 := by
  rcases h with rfl | rfl
  · exact Nat.zero_le 1
  · exact Nat.le_refl 1

/-- A regular grid has a pixel, off or on, at every position of the screen. -/
theorem Regular.exists_getElem? {pixels : Array UInt8} (hr : Regular pixels) {column line : Nat}
    (hc : column < width) (hl : line < height) :
    ∃ value, pixels[column + line * width]? = some value ∧ (value = 0 ∨ value = 1) := by
  have hp : column + line * width < pixels.size := by
    rw [hr.size_eq]
    simp only [pixelCount, width, height] at *
    omega
  exact ⟨_, Array.getElem?_eq_getElem hp, hr.binary _ (Array.getElem_mem hp)⟩

/-- A pixel after a number of hits. -/
def toggled (value : UInt8) (hits : Nat) : UInt8 := if hits % 2 = 1 then value ^^^ 1 else value

/-- A hit before the others is one more of them. -/
theorem toggled_xor_one (value : UInt8) (hits : Nat) :
    toggled (value ^^^ 1) hits = toggled value (hits + 1) := by
  have hx : value ^^^ 1 ^^^ 1 = value := by rw [UInt8.xor_assoc, UInt8.xor_self, UInt8.xor_zero]
  unfold toggled
  by_cases h : hits % 2 = 1
  · rw [if_pos h, if_neg (by omega), hx]
  · rw [if_neg h, if_pos (by omega)]

/-- A hit turns a pixel that is off or on into the other. -/
theorem binary_xor_one {value : UInt8} (h : value = 0 ∨ value = 1) :
    value ^^^ 1 = 0 ∨ value ^^^ 1 = 1 := by
  rcases h with h | h
  · exact .inr (by rw [h]; rfl)
  · exact .inl (by rw [h]; rfl)

theorem binary_toggled {value : UInt8} (h : value = 0 ∨ value = 1) (hits : Nat) :
    toggled value hits = 0 ∨ toggled value hits = 1 := by
  unfold toggled
  split
  · exact binary_xor_one h
  · exact h

/-! ## §2. Toggling a list of cells. -/

/-- Toggling succeeds when every cell lies on the grid. -/
theorem exists_toggleCells {cells : List Nat} :
    ∀ {pixels : Array UInt8} (collision : Bool), (∀ c ∈ cells, c < pixels.size) →
      ∃ after pixels', toggleCells collision pixels cells = .ok (after, pixels') := by
  induction cells with
  | nil =>
    intro pixels collision _
    exact ⟨collision, pixels, rfl⟩
  | cons cell cells ih =>
    intro pixels collision hc
    have hcell : cell < pixels.size := hc cell List.mem_cons_self
    rw [toggleCells, dif_pos hcell]
    apply ih
    intro c hmem
    rw [Array.size_set]
    exact hc c (List.mem_cons_of_mem _ hmem)

/-- A pixel is toggled as often as its cell is listed. -/
theorem getElem?_toggleCells {cells : List Nat} :
    ∀ {collision after : Bool} {pixels pixels' : Array UInt8},
      toggleCells collision pixels cells = .ok (after, pixels') →
      ∀ p : Nat, pixels'[p]? = pixels[p]?.map (toggled · (cells.count p)) := by
  -- The first hit on a pixel counts as one more of those that follow.
  induction cells with
  | nil =>
    intro collision after pixels pixels' h p
    cases h
    simp [toggled]
  | cons cell cells ih =>
    intro collision after pixels pixels' h p
    rw [toggleCells] at h
    split at h
    · rename_i hcell
      rw [ih h p, Array.getElem?_set]
      by_cases hp : cell = p
      · subst hp
        simp [hcell, toggled_xor_one]
      · simp [hp]
    · cases h

/-- The pixels stay off or on. -/
theorem regular_toggleCells {collision after : Bool} {pixels pixels' : Array UInt8}
    {cells : List Nat} (hr : Regular pixels)
    (h : toggleCells collision pixels cells = .ok (after, pixels')) : Regular pixels' where
  size_eq := by rw [size_toggleCells h, hr.size_eq]
  binary := by
    intro v hv
    obtain ⟨p, hp⟩ := Array.mem_iff_getElem?.mp hv
    rw [getElem?_toggleCells h p, Option.map_eq_some_iff] at hp
    obtain ⟨u, hu, rfl⟩ := hp
    exact binary_toggled (hr.binary u (Array.mem_of_getElem? hu)) _

/-- One hit more turns a lit pixel off or leaves it to the later hits to do so. -/
theorem two_le_hits_succ {value : UInt8} (h : value = 0 ∨ value = 1) (hits : Nat) :
    2 ≤ value.toNat + (hits + 1) ↔ value = 1 ∨ 2 ≤ (value ^^^ 1).toNat + hits := by
  rcases h with rfl | rfl
  · have h0 : ((0 : UInt8) ^^^ 1).toNat = 1 := rfl
    rw [h0]
    simp
    omega
  · simp
    omega

/-- A lit pixel is turned off on the way if and only if some pixel reaches two together with its
    hits. -/
theorem collision_toggleCells {cells : List Nat} :
    ∀ {collision after : Bool} {pixels pixels' : Array UInt8},
      (∀ p ∈ pixels, p = 0 ∨ p = 1) →
      toggleCells collision pixels cells = .ok (after, pixels') →
      (after = true ↔ collision = true ∨
        ∃ p v, pixels[p]? = some v ∧ 2 ≤ v.toNat + cells.count p) := by
  induction cells with
  | nil =>
    intro collision after pixels pixels' hb h
    cases h
    rw [iff_self_or]
    intro h'
    obtain ⟨p, v, hp, h2⟩ := h'
    rcases hb v (Array.mem_of_getElem? hp) with hv | hv
    · simp [hv] at h2
    · simp [hv] at h2
  | cons cell cells ih =>
    intro collision after pixels pixels' hb h
    rw [toggleCells] at h
    split at h
    case isFalse => cases h
    rename_i hcell
    have hv := hb _ (Array.getElem_mem hcell)
    have hb' : ∀ p ∈ pixels.set cell (pixels[cell] ^^^ 1) hcell, p = 0 ∨ p = 1 := by
      intro p hp
      rcases Array.mem_or_eq_of_mem_set hp with hp | hp
      · exact hb p hp
      · rw [hp]
        exact binary_xor_one hv
    -- Either the first cell was lit, or the rest finds its pixel in the grid after that one hit.
    rw [ih hb' h, Bool.or_eq_true, beq_iff_eq, or_assoc]
    refine or_congr_right ?_
    constructor
    · intro hor
      rcases hor with h1 | ⟨p, v, hp, h2⟩
      · refine ⟨cell, pixels[cell], Array.getElem?_eq_getElem hcell, ?_⟩
        rw [List.count_cons_self, two_le_hits_succ hv]
        exact .inl h1
      · rw [Array.getElem?_set] at hp
        by_cases hpc : cell = p
        · subst hpc
          rw [if_pos rfl, Option.some.injEq] at hp
          refine ⟨cell, pixels[cell], Array.getElem?_eq_getElem hcell, ?_⟩
          rw [List.count_cons_self, two_le_hits_succ hv, hp]
          exact .inr h2
        · rw [if_neg hpc] at hp
          exact ⟨p, v, hp, by rwa [List.count_cons_of_ne hpc]⟩
    · intro h'
      obtain ⟨p, v, hp, h2⟩ := h'
      by_cases hpc : cell = p
      · subst hpc
        rw [Array.getElem?_eq_getElem hcell, Option.some.injEq] at hp
        subst hp
        rw [List.count_cons_self, two_le_hits_succ hv] at h2
        rcases h2 with h1 | h2
        · exact .inl h1
        · refine .inr ⟨cell, pixels[cell] ^^^ 1, ?_, h2⟩
          rw [Array.getElem?_set, if_pos rfl]
      · rw [List.count_cons_of_ne hpc] at h2
        exact .inr ⟨p, v, by rw [Array.getElem?_set, if_neg hpc, hp], h2⟩

/-! ## §3. The cells of a sprite. -/

/-- Every cell of a sprite lies on the grid. -/
theorem spriteCells_lt {x y : Nat} {rows : List UInt8} :
    ∀ c ∈ spriteCells x y rows, c < pixelCount := by
  intro c hc
  obtain ⟨p, _, rfl⟩ := List.mem_map.mp hc
  exact index_lt _ _

/-- A position of a sprite is a column and a line of it away from the corner, and its bit is set. -/
theorem mem_spritePositions {x y column line : Nat} {rows : List UInt8} :
    (column, line) ∈ spritePositions x y rows ↔
      ∃ (b j : Nat) (row : UInt8), b < spriteWidth ∧ rows[j]? = some row ∧
        row.toNat.testBit (7 - b) = true ∧ column = x + b ∧ line = y + j := by
  simp only [spritePositions, rowPositions, List.mem_flatMap, List.mem_map, List.mem_filter,
    List.mem_range, Prod.mk.injEq]
  constructor
  · intro h'
    obtain ⟨⟨row, j⟩, hj, b, ⟨hb, hbit⟩, hx, hy⟩ := h'
    exact ⟨b, j, row, hb, List.mem_zipIdx_iff_getElem?.mp hj, hbit, hx.symm, hy.symm⟩
  · intro h'
    obtain ⟨b, j, row, hb, hj, hbit, hx, hy⟩ := h'
    exact ⟨(row, j), List.mem_zipIdx_iff_getElem?.mpr hj, b, ⟨hb, hbit⟩, hx.symm, hy.symm⟩

/-- A sprite whose far corner fits in a word of the host fits as a whole. -/
theorem spriteFits_of_le {x y : Nat} {rows : List UInt8} (hx : x + spriteWidth ≤ coordinateLimit)
    (hy : y + rows.length ≤ coordinateLimit) : spriteFits x y rows = true := by
  rw [spriteFits, List.all_eq_true]
  intro position hmem
  obtain ⟨column, line⟩ := position
  obtain ⟨b, j, row, hb, hj, _, rfl, rfl⟩ := mem_spritePositions.mp hmem
  have hjl : j < rows.length := (List.getElem?_eq_some_iff.mp hj).1
  rw [Bool.and_eq_true, decide_eq_true_eq, decide_eq_true_eq]
  exact ⟨by omega, by omega⟩

/-! ## §4. How often a sprite reaches a pixel. -/

/-- Says whether a sprite has the bit of a row and a column. -/
def spriteBit (rows : List UInt8) (bit : Nat × Nat) : Bool :=
  (rows.getD bit.1 0).toNat.testBit (7 - bit.2)

/-- The bits of a sprite that reach a pixel, each by its row and column. -/
def spriteHits (x y : Nat) (rows : List UInt8) (column line : Nat) : Finset (Nat × Nat) :=
  {bit ∈ Finset.range rows.length ×ˢ Finset.range spriteWidth |
    spriteBit rows bit = true ∧ (x + bit.2) % width = column ∧ (y + bit.1) % height = line}

theorem mem_spriteHits {x y column line : Nat} {rows : List UInt8} {bit : Nat × Nat} :
    bit ∈ spriteHits x y rows column line ↔
      (bit.1 < rows.length ∧ bit.2 < spriteWidth) ∧
        spriteBit rows bit = true ∧ (x + bit.2) % width = column ∧ (y + bit.1) % height = line := by
  rw [spriteHits, Finset.mem_filter, Finset.mem_product, Finset.mem_range, Finset.mem_range]

theorem zipIdx_eq_map_range (rows : List UInt8) :
    rows.zipIdx = (List.range rows.length).map fun j => (rows.getD j 0, j) := by
  apply List.ext_getElem
  · simp
  · intro j h1 h2
    have hj : j < rows.length := by simpa using h1
    simp [List.getElem_zipIdx, hj]

/-- The positions of a sprite are those of its bits that are set. -/
theorem spritePositions_eq (x y : Nat) (rows : List UInt8) :
    spritePositions x y rows =
      ((List.range rows.length ×ˢ List.range spriteWidth).filter (spriteBit rows)).map
        fun bit => (x + bit.2, y + bit.1) := by
  rw [spritePositions, zipIdx_eq_map_range, List.flatMap_map]
  simp only [SProd.sprod, List.product, List.filter_flatMap, List.map_flatMap, List.filter_map,
    List.map_map]
  rfl

theorem index_eq_iff {x y column line : Nat} (hc : column < width) :
    index x y = column + line * width ↔ x % width = column ∧ y % height = line := by
  simp only [index, width, height] at *
  omega

/-- A sprite lists the cell of a pixel once for each of its bits that reaches it. -/
theorem count_spriteCells {x y column line : Nat} {rows : List UInt8} (hc : column < width) :
    (spriteCells x y rows).count (column + line * width) =
      (spriteHits x y rows column line).card := by
  have hn : (List.range rows.length ×ˢ List.range spriteWidth).Nodup :=
    List.nodup_range.product List.nodup_range
  -- A list without repetitions counts what its set has.
  have hf : spriteHits x y rows column line =
      ((List.range rows.length ×ˢ List.range spriteWidth).filter fun bit =>
        index (x + bit.2) (y + bit.1) == column + line * width && spriteBit rows bit).toFinset := by
    ext ⟨j, b⟩
    simp only [mem_spriteHits, List.mem_toFinset, List.mem_filter, List.mem_product, List.mem_range,
      Bool.and_eq_true, beq_iff_eq, index_eq_iff hc]
    tauto
  rw [hf, List.toFinset_card_of_nodup (hn.filter _), spriteCells, spritePositions_eq, List.map_map,
    List.count_eq_countP, List.countP_map, List.countP_filter, List.countP_eq_length_filter]
  rfl

/-- A sprite no taller than the screen reaches no pixel twice. -/
theorem card_spriteHits_le_one {rows : List UInt8} (h : rows.length ≤ height)
    (x y column line : Nat) : (spriteHits x y rows column line).card ≤ 1 := by
  rw [Finset.card_le_one]
  intro bit hbit bit' hbit'
  obtain ⟨⟨hj, hb⟩, _, hc, hl⟩ := mem_spriteHits.mp hbit
  obtain ⟨⟨hj', hb'⟩, _, hc', hl'⟩ := mem_spriteHits.mp hbit'
  -- Eight columns and at most as many rows as lines: the remainders tell the bits apart.
  simp only [spriteWidth, width, height] at *
  apply Prod.ext
  · omega
  · omega

/-- Each pixel of the screen is toggled once for each bit of the sprite that reaches it. -/
theorem getElem?_toggleSprite {collision after : Bool} {pixels pixels' : Array UInt8} {x y : Nat}
    {rows : List UInt8}
    (h : toggleCells collision pixels (spriteCells x y rows) = .ok (after, pixels'))
    {column : Nat} (hc : column < width) (line : Nat) :
    pixels'[column + line * width]? =
      pixels[column + line * width]?.map (toggled · (spriteHits x y rows column line).card) := by
  rw [getElem?_toggleCells h, count_spriteCells hc]

/-- A sprite turns a lit pixel off on the way if and only if some pixel of the screen reaches two
    together with the bits that reach it. -/
theorem collision_toggleSprite {after : Bool} {pixels pixels' : Array UInt8} {x y : Nat}
    {rows : List UInt8} (hr : Regular pixels)
    (h : toggleCells false pixels (spriteCells x y rows) = .ok (after, pixels')) :
    after = true ↔ ∃ column line value, column < width ∧ line < height ∧
      pixels[column + line * width]? = some value ∧
        2 ≤ value.toNat + (spriteHits x y rows column line).card := by
  rw [collision_toggleCells hr.binary h]
  constructor
  · intro hor
    rcases hor with hf | ⟨p, value, hp, h2⟩
    · cases hf
    · have hlt : p < pixels.size := (Array.getElem?_eq_some_iff.mp hp).1
      rw [hr.size_eq, pixelCount] at hlt
      have hc : p % width < width := Nat.mod_lt p (by decide)
      have hpos : p % width + p / width * width = p := Nat.mod_add_div' p width
      refine ⟨p % width, p / width, value, hc, Nat.div_lt_of_lt_mul hlt, ?_⟩
      rw [← count_spriteCells hc, hpos]
      exact ⟨hp, h2⟩
  · intro h'
    obtain ⟨column, line, value, hc, hl, hp, h2⟩ := h'
    rw [← count_spriteCells hc] at h2
    exact .inr ⟨_, value, hp, h2⟩

/-! ## §5. Drawing a sprite. -/

/-- Far from the end of a word there is room for the columns of a sprite and for the lines of any slice. -/
theorem corner_fits {x y : Nat} {rows : List UInt8} (hx : x ≤ 2 ^ 40) (hy : y ≤ 2 ^ 40)
    (hrows : rows.length < 2 ^ 63) :
    x + spriteWidth ≤ coordinateLimit ∧ y + rows.length ≤ coordinateLimit := by
  rw [spriteWidth, coordinateLimit]
  exact ⟨by omega, by omega⟩

/-- A sprite that fits is drawn, and the grid stays regular. -/
theorem exists_draw {f : Framebuffer} {x y : Nat} {rows : List UInt8} (hr : Regular f.pixels)
    (hx : x + spriteWidth ≤ coordinateLimit) (hy : y + rows.length ≤ coordinateLimit) :
    ∃ collision pixels, toggleCells false f.pixels (spriteCells x y rows) = .ok (collision, pixels) ∧
      f.draw x y rows = .ok (collision, { pixels, changed := true }) ∧ Regular pixels := by
  have hc : ∀ c ∈ spriteCells x y rows, c < f.pixels.size := by
    rw [hr.size_eq]
    exact spriteCells_lt
  obtain ⟨collision, pixels, h⟩ := exists_toggleCells false hc
  refine ⟨collision, pixels, h, ?_, regular_toggleCells hr h⟩
  rw [draw, if_pos (spriteFits_of_le hx hy), h]

/-- Whoever draws marks the screen. -/
theorem eq_of_draw {f g : Framebuffer} {x y : Nat} {rows : List UInt8} {collision : Bool}
    (h : f.draw x y rows = .ok (collision, g)) : ∃ pixels, g = { pixels, changed := true } := by
  unfold draw at h
  split at h
  · split at h
    · cases h
      exact ⟨_, rfl⟩
    · cases h
  · cases h

end Framebuffer

end Chip8
