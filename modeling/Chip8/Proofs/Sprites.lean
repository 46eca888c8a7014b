/-
  Chip8.Proofs.Sprites — what a sprite leaves on the screen, pixel by pixel.

  A sprite is drawn bit by bit, and where it is taller than the screen several of its bits reach the same
  pixel.  Only their number matters.  The new pixel is the old one with the number added, up to evenness;
  and a lit pixel is turned off on the way exactly if the old pixel and the number reach two together,
  since then one hit at least finds the pixel lit.

  Main statement: `draw_exact`.
-/
import Chip8.Proofs.Drawing

namespace Chip8

namespace Framebuffer

variable {f : Framebuffer} {column line : Nat}

/-! ## §1. Pixels as numbers. -/

/-- A pixel that is off or on counts its hits up to evenness. -/
theorem toNat_toggled_mod_two {value : UInt8} (h : value = 0 ∨ value = 1) (hits : Nat) :
    (toggled value hits).toNat = (value.toNat + hits) % 2 := by
  have hparity : hits % 2 = 0 ∨ hits % 2 = 1 := by omega
  rcases hparity with heven | hodd
  · rw [toggled, if_neg (by omega)]
    rcases h with rfl | rfl
    · show 0 = (0 + hits) % 2
      omega
    · show 1 = (1 + hits) % 2
      omega
  · rw [toggled, if_pos hodd]
    rcases h with rfl | rfl
    · show 1 = (0 + hits) % 2
      omega
    · show 0 = (1 + hits) % 2
      omega

theorem index_eq_of_lt (hc : column < width) (hl : line < height) :
    index column line = column + line * width := by
  rw [index, Nat.mod_eq_of_lt hc, Nat.mod_eq_of_lt hl]

/-- A pixel of the screen is the byte at its place in the grid. -/
theorem pixel_eq_ok_iff (hc : column < width) (hl : line < height) {value : UInt8} :
    f.pixel column line = .ok value ↔ f.pixels[column + line * width]? = some value := by
  rw [pixel, index_eq_of_lt hc hl]
  constructor
  · intro h
    split at h
    · rename_i hp
      rw [hp, Except.ok.inj h]
    · cases h
  · intro h
    rw [h]

/-- Every position of the screen has a pixel, and it is off or on. -/
theorem exists_pixel (hr : Regular f.pixels) (hc : column < width) (hl : line < height) :
    ∃ value, f.pixel column line = .ok value ∧ (value = 0 ∨ value = 1) := by
  obtain ⟨value, hvalue, hbinary⟩ := hr.exists_getElem? hc hl
  exact ⟨value, (pixel_eq_ok_iff hc hl).mpr hvalue, hbinary⟩

/-! ## §2. The screen behind a sprite. -/

/-- Each pixel behind a sprite is the old one with its hits added, up to evenness. -/
theorem exists_pixel_toggleSprite {collision after : Bool} {pixels : Array UInt8} {x y : Nat}
    {rows : List UInt8} {changed : Bool} (hr : Regular f.pixels)
    (h : toggleCells collision f.pixels (spriteCells x y rows) = .ok (after, pixels))
    (hc : column < width) (hl : line < height) :
    ∃ old new, f.pixel column line = .ok old ∧
      ({ pixels, changed } : Framebuffer).pixel column line = .ok new ∧
        new.toNat = (old.toNat + (spriteHits x y rows column line).card) % 2 := by
  obtain ⟨old, hold, hbinary⟩ := exists_pixel hr hc hl
  refine ⟨old, toggled old (spriteHits x y rows column line).card, hold, ?_,
    toNat_toggled_mod_two hbinary _⟩
  rw [pixel_eq_ok_iff hc hl, getElem?_toggleSprite h hc, (pixel_eq_ok_iff hc hl).mp hold]
  rfl

/-- A pixel that is different behind a sprite is reached by one of its bits. -/
theorem exists_hit_of_pixel_ne {collision after changed : Bool} {pixels : Array UInt8} {x y : Nat}
    {rows : List UInt8}
    (h : toggleCells collision f.pixels (spriteCells x y rows) = .ok (after, pixels))
    (hc : column < width) (hl : line < height)
    (hne : ({ pixels, changed } : Framebuffer).pixel column line ≠ f.pixel column line) :
    ∃ bit, bit ∈ spriteHits x y rows column line := by
  by_contra hno
  have hempty : spriteHits x y rows column line = ∅ :=
    Finset.eq_empty_of_forall_notMem fun bit hbit => hno ⟨bit, hbit⟩
  have hp := getElem?_toggleSprite h hc line
  rw [hempty, Finset.card_empty, show (toggled · 0) = id from rfl, Option.map_id_fun, id] at hp
  apply hne
  simp only [pixel, index_eq_of_lt hc hl, hp]

/-- A sprite turns a lit pixel off exactly if it reaches one that comes to two together with its hits. -/
theorem collision_toggleSprite_iff {after : Bool} {pixels : Array UInt8} {x y : Nat}
    {rows : List UInt8} (hr : Regular f.pixels)
    (h : toggleCells false f.pixels (spriteCells x y rows) = .ok (after, pixels)) :
    after = true ↔ ∃ column line old, column < width ∧ line < height ∧
      f.pixel column line = .ok old ∧ 1 ≤ (spriteHits x y rows column line).card ∧
        2 ≤ old.toNat + (spriteHits x y rows column line).card := by
  rw [collision_toggleSprite hr h]
  constructor
  · intro h'
    obtain ⟨column, line, old, hc, hl, hp, h2⟩ := h'
    have hle : old.toNat ≤ 1 := toNat_le_one (hr.binary old (Array.mem_of_getElem? hp))
    -- One pixel alone does not make two, so there is a hit.
    exact ⟨column, line, old, hc, hl, (pixel_eq_ok_iff hc hl).mpr hp, by omega, h2⟩
  · intro h'
    obtain ⟨column, line, old, hc, hl, hp, _, h2⟩ := h'
    exact ⟨column, line, old, hc, hl, (pixel_eq_ok_iff hc hl).mp hp, h2⟩

/-- Sprites are drawn exactly.  On a screen of full size whose pixels are off or on, a sprite with its corner
    at any position that a host uses is drawn, however many rows it has; no slice of the host has room for
    more of them.  Each pixel behind it is the old one with the number of bits added that reach the pixel,
    up to evenness.  The answer is yes exactly if some pixel that is reached comes to two or more together
    with that number.  The screen counts as changed, and its pixels are off or on again. -/
theorem draw_exact (hr : Regular f.pixels) {x y : Nat} (hx : x ≤ 2 ^ 40) (hy : y ≤ 2 ^ 40)
    {rows : List UInt8} (hrows : rows.length < 2 ^ 63) :
    ∃ collision g, f.draw x y rows = .ok (collision, g) ∧
      (∀ column line, column < width → line < height →
        ∃ old new, f.pixel column line = .ok old ∧ g.pixel column line = .ok new ∧
          new.toNat = (old.toNat + (spriteHits x y rows column line).card) % 2) ∧
      (collision = true ↔ ∃ column line old, column < width ∧ line < height ∧
        f.pixel column line = .ok old ∧ 1 ≤ (spriteHits x y rows column line).card ∧
          2 ≤ old.toNat + (spriteHits x y rows column line).card) ∧
      g.changed = true ∧ Regular g.pixels := by
  have hx' : x + spriteWidth ≤ coordinateLimit := by
    rw [spriteWidth, coordinateLimit]
    omega
  have hy' : y + rows.length ≤ coordinateLimit := by
    rw [coordinateLimit]
    omega
  obtain ⟨collision, pixels, htoggle, hdraw, hregular⟩ := exists_draw hr hx' hy'
  refine ⟨collision, _, hdraw, ?_, collision_toggleSprite_iff hr htoggle, rfl, hregular⟩
  intro column line hc hl
  exact exists_pixel_toggleSprite hr htoggle hc hl

/-- A sprite of thirty-three rows comes back to the line where it started: the pixel that it reaches twice
    stays dark, and its second hit turns off what the first turned on. -/
theorem draw_exact_tall :
    let rows : List UInt8 := 0x80 :: List.replicate 31 0 ++ [0xC0]
    Regular blank.pixels ∧ rows.length < 2 ^ 63 ∧
      ∃ collision g, blank.draw (2 ^ 40) 0 rows = .ok (collision, g) ∧ collision = true ∧
        (∃ new, g.pixel 0 0 = .ok new ∧ new.toNat = 0) ∧
        ∃ new, g.pixel 1 0 = .ok new ∧ new.toNat = 1 := by
  intro rows
  have hr : Regular blank.pixels :=
    ⟨Array.size_replicate, fun p hp => .inl (Array.mem_replicate.mp hp).2⟩
  have hdark : ∀ {c l : Nat}, c < width → l < height → blank.pixel c l = .ok 0 := by
    intro c l hc hl
    obtain ⟨value, hvalue, _⟩ := exists_pixel hr hc hl
    have hzero := (Array.mem_replicate.mp (Array.mem_of_getElem? ((pixel_eq_ok_iff hc hl).mp hvalue))).2
    rw [hvalue, hzero]
  have htwice : (spriteHits (2 ^ 40) 0 rows 0 0).card = 2 := by decide +kernel
  have honce : (spriteHits (2 ^ 40) 0 rows 1 0).card = 1 := by decide +kernel
  obtain ⟨collision, g, hdraw, hpixels, hcollision, _⟩ :=
    draw_exact (f := blank) hr (x := 2 ^ 40) (y := 0) (Nat.le_refl _) (Nat.zero_le _)
      (show rows.length < 2 ^ 63 by decide)
  have hnew : ∀ {c l n : Nat}, c < width → l < height →
      (spriteHits (2 ^ 40) 0 rows c l).card = n → ∃ new, g.pixel c l = .ok new ∧ new.toNat = n % 2 := by
    intro c l n hc hl hn
    obtain ⟨old, new, hold, hnew, hsum⟩ := hpixels c l hc hl
    obtain rfl := Except.ok.inj (hold.symm.trans (hdark hc hl))
    rw [hn] at hsum
    exact ⟨new, hnew, hsum.trans (by rw [UInt8.toNat_zero, Nat.zero_add])⟩
  refine ⟨hr, by decide, collision, g, hdraw, ?_, ?_, ?_⟩
  · rw [hcollision]
    exact ⟨0, 0, 0, by decide, by decide, hdark (by decide) (by decide), by omega, by omega⟩
  · exact hnew (by decide) (by decide) htwice
  · exact hnew (by decide) (by decide) honce

end Framebuffer

end Chip8
