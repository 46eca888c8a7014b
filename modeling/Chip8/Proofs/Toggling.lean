/-
  Chip8.Proofs.Toggling — sprites may be drawn in any order, and two that are alike cancel.

  A sprite acts on the grid through the list of its cells, and sprites in a row act through their lists put
  together.  What a list does to a pixel depends on whether its cell stands there an odd number of times.
  That number is the same in any order of the list, and two copies of a sprite do not change its evenness.

  What a sprite answers does depend on what was drawn before it.  Drawn a second time, a sprite that reaches
  no pixel twice finds exactly those of its pixels lit that were dark the first time.

  Main statements: `Toggles.append` and `Toggles.eq_of_parity` (lists of cells), `exists_drawAll` (sprites in
  a row), `draw_congr` (around the screen), `collision_again_iff` (the second time) and
  `sprites_commute_and_cancel`.
-/
import Chip8.Proofs.Sprites

namespace Chip8

/-- A sprite and the position of its top left corner. -/
structure Sprite where
  x : Nat
  y : Nat
  /-- The row bytes from top to bottom. -/
  rows : List UInt8
  deriving Repr, DecidableEq

namespace Sprite

/-- The cells that the sprite covers. -/
def cells (s : Sprite) : List Nat := Framebuffer.spriteCells s.x s.y s.rows

/-- Says that the sprite is one that a host can draw: its corner is far from the end of a word, and a slice
    of the host has room for its rows. -/
structure Admissible (s : Sprite) : Prop where
  x_le : s.x ≤ 2 ^ 40
  y_le : s.y ≤ 2 ^ 40
  rows_lt : s.rows.length < 2 ^ 63

/-- Its columns and its lines fit in a word of the host. -/
theorem Admissible.fits {s : Sprite} (hs : s.Admissible) :
    s.x + Framebuffer.spriteWidth ≤ Framebuffer.coordinateLimit ∧
      s.y + s.rows.length ≤ Framebuffer.coordinateLimit :=
  Framebuffer.corner_fits hs.x_le hs.y_le hs.rows_lt

/-- The sprite with its corner brought back onto the screen. -/
def wrapped (s : Sprite) : Sprite :=
  { s with x := s.x % Framebuffer.width, y := s.y % Framebuffer.height }

theorem Admissible.wrapped {s : Sprite} (hs : s.Admissible) : s.wrapped.Admissible where
  x_le := (Nat.mod_le ..).trans hs.x_le
  y_le := (Nat.mod_le ..).trans hs.y_le
  rows_lt := hs.rows_lt

end Sprite

namespace Framebuffer

variable {f : Framebuffer}

/-! ## §1. Lists of cells. -/

/-- Only the evenness of the hits matters to a pixel. -/
theorem toggled_congr (value : UInt8) {a b : Nat} (h : a % 2 = b % 2) :
    toggled value a = toggled value b := by
  rw [toggled, toggled, h]

/-- Hits on a pixel add up. -/
theorem toggled_toggled (value : UInt8) (a b : Nat) :
    toggled (toggled value a) b = toggled value (a + b) := by
  have hparity : a % 2 = 0 ∨ a % 2 = 1 := by omega
  rcases hparity with heven | hodd
  · rw [toggled_congr value (show a % 2 = 0 % 2 from heven), show toggled value 0 = value from rfl]
    exact toggled_congr value (by omega)
  · rw [toggled_congr value (show a % 2 = 1 % 2 from hodd), show toggled value 1 = value ^^^ 1 from rfl,
      toggled_xor_one]
    exact toggled_congr value (by omega)

/-- Says that a list of cells takes one grid to another: each pixel is toggled as often as its cell is
    listed. -/
def Toggles (pixels : Array UInt8) (cells : List Nat) (pixels' : Array UInt8) : Prop :=
  ∀ p : Nat, pixels'[p]? = pixels[p]?.map (toggled · (cells.count p))

/-- No cells leave the grid as it is. -/
theorem Toggles.nil (pixels : Array UInt8) : Toggles pixels [] pixels := by
  intro p
  rw [List.count_nil, show (toggled · 0) = id from rfl, Option.map_id_fun, id]

/-- Lists in a row act as one. -/
theorem Toggles.append {pixels pixels' pixels'' : Array UInt8} {cells cells' : List Nat}
    (h : Toggles pixels cells pixels') (h' : Toggles pixels' cells' pixels'') :
    Toggles pixels (cells ++ cells') pixels'' := by
  intro p
  rw [h' p, h p, Option.map_map, List.count_append]
  exact congrArg (Option.map · _) (funext fun value => toggled_toggled value _ _)

/-- Lists that have every cell alike often, up to evenness, come to the same grid. -/
theorem Toggles.eq_of_parity {pixels pixels' pixels'' : Array UInt8} {cells cells' : List Nat}
    (h : Toggles pixels cells pixels') (h' : Toggles pixels cells' pixels'')
    (parity : ∀ p, cells.count p % 2 = cells'.count p % 2) : pixels' = pixels'' := by
  apply Array.ext_getElem?
  intro p
  rw [h p, h' p]
  exact congrArg (Option.map · _) (funext fun value => toggled_congr value (parity p))

/-- A list of cells undoes itself. -/
theorem Toggles.eq_of_twice {pixels pixels' pixels'' : Array UInt8} {cells : List Nat}
    (h : Toggles pixels cells pixels') (h' : Toggles pixels' cells pixels'') : pixels'' = pixels := by
  refine (h.append h').eq_of_parity (.nil pixels) fun p => ?_
  rw [List.count_append, List.count_nil]
  omega

/-! ## §2. Sprites in a row. -/

/-- Draws sprites one after the other. -/
def drawAll (f : Framebuffer) : List Sprite → Except Breach Framebuffer
  | [] => .ok f
  | s :: sprites =>
    match f.draw s.x s.y s.rows with
    | .ok (_, g) => g.drawAll sprites
    | .error breach => .error breach

/-- Sprites are drawn in a row, and together they act through all of their cells. -/
theorem exists_drawAll (sprites : List Sprite) :
    ∀ {f : Framebuffer}, Regular f.pixels → (∀ s ∈ sprites, s.Admissible) →
      ∃ pixels, f.drawAll sprites = .ok { pixels, changed := f.changed || !sprites.isEmpty } ∧
        Toggles f.pixels (sprites.flatMap Sprite.cells) pixels := by
  induction sprites with
  | nil =>
    intro f _ _
    exact ⟨f.pixels, by rw [drawAll, List.isEmpty_nil, Bool.not_true, Bool.or_false], .nil _⟩
  | cons s sprites ih =>
    intro f hr hs
    obtain ⟨hfirst, hothers⟩ := List.forall_mem_cons.mp hs
    obtain ⟨collision, pixels, htoggle, hdraw, hregular⟩ := exists_draw hr hfirst.fits.1 hfirst.fits.2
    obtain ⟨pixels', hdraws, htoggles⟩ := ih (f := { pixels, changed := true }) hregular hothers
    refine ⟨pixels', ?_, Toggles.append (getElem?_toggleCells htoggle) htoggles⟩
    rw [drawAll, hdraw, List.isEmpty_cons, Bool.not_false, Bool.or_true]
    exact hdraws

/-- Sprites come to the same screen in any order. -/
theorem drawAll_perm {sprites sprites' : List Sprite} (hr : Regular f.pixels)
    (hs : ∀ s ∈ sprites, s.Admissible) (h : sprites.Perm sprites') :
    f.drawAll sprites = f.drawAll sprites' := by
  obtain ⟨pixels, hdraw, htoggles⟩ := exists_drawAll sprites hr hs
  have hs' : ∀ s ∈ sprites', s.Admissible := fun s hmem => hs s (h.mem_iff.mpr hmem)
  obtain ⟨pixels', hdraw', htoggles'⟩ := exists_drawAll sprites' hr hs'
  have hcells := h.flatMap_right Sprite.cells
  obtain rfl := htoggles.eq_of_parity htoggles' fun p => by rw [hcells.count_eq p]
  rw [hdraw, hdraw', h.isEmpty_eq]

/-- The cells of two copies of a sprite are each listed an even number of times more. -/
theorem count_flatMap_pair (front mid back : List Sprite) (s : Sprite) (p : Nat) :
    ((front ++ s :: mid ++ s :: back).flatMap Sprite.cells).count p =
      ((front ++ mid ++ back).flatMap Sprite.cells).count p + 2 * s.cells.count p := by
  simp only [List.flatMap_append, List.flatMap_cons, List.count_append]
  omega

/-! ## §3. Around the screen. -/

/-- A corner that is a whole screen further on covers the same cells. -/
theorem cells_wrapped (s : Sprite) : s.wrapped.cells = s.cells := by
  rw [Sprite.cells, Sprite.cells, spriteCells, spriteCells, spritePositions_eq, spritePositions_eq,
    List.map_map, List.map_map]
  apply List.map_congr_left
  intro bit _
  show index (s.x % width + bit.2) (s.y % height + bit.1) = index (s.x + bit.2) (s.y + bit.1)
  rw [index, index, Nat.mod_add_mod, Nat.mod_add_mod]

/-- Sprites that cover the same cells are drawn alike and answer alike. -/
theorem draw_congr {s t : Sprite} (hs : s.Admissible) (ht : t.Admissible) (h : s.cells = t.cells) :
    f.draw s.x s.y s.rows = f.draw t.x t.y t.rows := by
  rw [Sprite.cells, Sprite.cells] at h
  rw [draw, draw, if_pos (spriteFits_of_le hs.fits.1 hs.fits.2),
    if_pos (spriteFits_of_le ht.fits.1 ht.fits.2), h]

/-! ## §4. The same sprite again. -/

/-- A sprite that reaches no pixel twice turns a lit pixel off the second time exactly if it reaches one
    that was dark the first time. -/
theorem collision_again_iff {x y : Nat} {rows : List UInt8} (low : rows.length ≤ height)
    (hr : Regular f.pixels) {collision again : Bool} {pixels pixels' : Array UInt8}
    (h : toggleCells false f.pixels (spriteCells x y rows) = .ok (collision, pixels))
    (h' : toggleCells false pixels (spriteCells x y rows) = .ok (again, pixels')) :
    again = true ↔ ∃ column line, column < width ∧ line < height ∧
      (spriteHits x y rows column line).Nonempty ∧ f.pixel column line = .ok 0 := by
  have hpixels : ∀ column line, column < width → line < height →
      ∃ old new, f.pixel column line = .ok old ∧
        ({ pixels, changed := true } : Framebuffer).pixel column line = .ok new ∧
          new.toNat = (old.toNat + (spriteHits x y rows column line).card) % 2 :=
    fun _ _ hc hl => exists_pixel_toggleSprite hr h hc hl
  rw [collision_toggleSprite_iff (f := { pixels, changed := true }) (regular_toggleCells hr h) h']
  constructor
  · intro hagain
    obtain ⟨column, line, new, hc, hl, hnew, hhit, htwo⟩ := hagain
    obtain ⟨value, hvalue, hbinary⟩ := exists_pixel hr hc hl
    obtain ⟨old, new', hold, hnew', hsum⟩ := hpixels column line hc hl
    obtain rfl : old = value := Except.ok.inj (hold.symm.trans hvalue)
    obtain rfl : new' = new := Except.ok.inj (hnew'.symm.trans hnew)
    have hold_le := toNat_le_one hbinary
    have hhits_le := card_spriteHits_le_one low x y column line
    -- One hit and the new pixel make two, so the hit before has lit it.
    have hdark : old = 0 := UInt8.toNat_inj.mp (show old.toNat = 0 by omega)
    exact ⟨column, line, hc, hl, Finset.card_pos.mp hhit, hdark ▸ hold⟩
  · intro hcovered
    obtain ⟨column, line, hc, hl, hhit, hdark⟩ := hcovered
    obtain ⟨old, new, hold, hnew, hsum⟩ := hpixels column line hc hl
    obtain rfl : old = 0 := Except.ok.inj (hold.symm.trans hdark)
    have hhits_le := card_spriteHits_le_one low x y column line
    have hpos := Finset.card_pos.mpr hhit
    rw [UInt8.toNat_zero] at hsum
    exact ⟨column, line, new, hc, hl, hnew, hpos, by omega⟩

/-! ## §5. Sprites as an action. -/

/-- The dark screen is a screen of full size whose pixels are off. -/
theorem regular_blank : Regular blank.pixels :=
  ⟨Array.size_replicate, fun _ hp => .inl (Array.mem_replicate.mp hp).2⟩

theorem pixel_blank {column line : Nat} (hc : column < width) (hl : line < height) :
    blank.pixel column line = .ok 0 := by
  obtain ⟨value, hvalue, _⟩ := exists_pixel regular_blank hc hl
  have hmem := Array.mem_of_getElem? ((pixel_eq_ok_iff hc hl).mp hvalue)
  rw [hvalue, (Array.mem_replicate.mp hmem).2]

/-- Drawing is an action of sprites on the screen that knows no order and in which each sprite undoes
    itself.  Take a screen of full size whose pixels are off or on, and sprites that a host can draw, each
    with its own corner and any number of rows.  They are drawn, in whatever order to the same screen, and
    to the same pixels if two of them that are alike are left out.  A single sprite is drawn to the same
    screen and with the same answer from the corner that its own comes to around the screen.  Drawn again it
    brings the old pixels back; and if it is no taller than the screen, its second answer is yes exactly if
    some pixel that it reaches was dark before the first. -/
theorem sprites_commute_and_cancel (hr : Regular f.pixels) :
    (∀ sprites : List Sprite, (∀ s ∈ sprites, s.Admissible) →
      ∃ g, f.drawAll sprites = .ok g ∧
        (∀ sprites', sprites.Perm sprites' → f.drawAll sprites' = .ok g) ∧
        ∀ front s mid back, sprites = front ++ s :: mid ++ s :: back →
          ∃ g', f.drawAll (front ++ mid ++ back) = .ok g' ∧ g'.pixels = g.pixels) ∧
    ∀ s : Sprite, s.Admissible →
      ∃ collision g, f.draw s.x s.y s.rows = .ok (collision, g) ∧
        f.draw (s.x % width) (s.y % height) s.rows = .ok (collision, g) ∧
        ∃ again g', g.draw s.x s.y s.rows = .ok (again, g') ∧ g'.pixels = f.pixels ∧
          (s.rows.length ≤ height →
            (again = true ↔ ∃ column line, column < width ∧ line < height ∧
              (spriteHits s.x s.y s.rows column line).Nonempty ∧ f.pixel column line = .ok 0)) := by
  constructor
  · intro sprites hs
    obtain ⟨pixels, hdraw, htoggles⟩ := exists_drawAll sprites hr hs
    refine ⟨_, hdraw, ?_, ?_⟩
    · intro sprites' hperm
      rw [← drawAll_perm hr hs hperm, hdraw]
    · rintro front s mid back rfl
      have hothers : ∀ t ∈ front ++ mid ++ back, t.Admissible := by
        intro t ht
        apply hs t
        simp only [List.mem_append, List.mem_cons] at ht ⊢
        tauto
      obtain ⟨pixels', hdraw', htoggles'⟩ := exists_drawAll _ hr hothers
      refine ⟨_, hdraw', htoggles'.eq_of_parity htoggles fun p => ?_⟩
      rw [count_flatMap_pair]
      omega
  · intro s hs
    obtain ⟨collision, pixels, htoggle, hdraw, hregular⟩ := exists_draw hr hs.fits.1 hs.fits.2
    obtain ⟨again, pixels', htoggle', hdraw', _⟩ :=
      exists_draw (f := { pixels, changed := true }) hregular hs.fits.1 hs.fits.2
    have hback : pixels' = f.pixels :=
      Toggles.eq_of_twice (getElem?_toggleCells htoggle) (getElem?_toggleCells htoggle')
    refine ⟨collision, _, hdraw, ?_, again, _, hdraw', hback, ?_⟩
    · exact (draw_congr hs.wrapped hs (cells_wrapped s)).trans hdraw
    · intro low
      exact collision_again_iff low hr htoggle htoggle'

/-- A sprite at the bottom of the screen, drawn before and behind one that is taller than the screen, leaves
    what that one leaves alone.  Drawn twice at once it turns off what it lit. -/
theorem sprites_commute_and_cancel_bottom :
    let s : Sprite := { x := 2 ^ 40, y := 31, rows := [0xF0, 0x90] }
    let tall : Sprite := { x := 2, y := 0, rows := List.replicate 33 0xFF }
    Regular blank.pixels ∧ s.Admissible ∧ tall.Admissible ∧ s.rows.length ≤ height ∧
      (∃ g g', blank.drawAll [s, tall, s] = .ok g ∧ blank.drawAll [tall, s, s] = .ok g ∧
        blank.drawAll [tall] = .ok g' ∧ g'.pixels = g.pixels) ∧
      ∃ collision g g', blank.draw (2 ^ 40) 31 s.rows = .ok (collision, g) ∧
        blank.draw 0 31 s.rows = .ok (collision, g) ∧
        g.draw (2 ^ 40) 31 s.rows = .ok (true, g') ∧ g'.pixels = blank.pixels := by
  intro s tall
  have hs : s.Admissible := ⟨by decide, by decide, by decide⟩
  have htall : tall.Admissible := ⟨by decide, by decide, by decide⟩
  have hlow : s.rows.length ≤ height := by decide
  obtain ⟨hall, hone⟩ := sprites_commute_and_cancel regular_blank
  have hsprites : ∀ t ∈ [s, tall, s], t.Admissible :=
    List.forall_mem_cons.mpr ⟨hs, List.forall_mem_cons.mpr ⟨htall, List.forall_mem_singleton.mpr hs⟩⟩
  obtain ⟨g, hdraw, hperm, hcancel⟩ := hall [s, tall, s] hsprites
  obtain ⟨g', hdraw', hpixels⟩ := hcancel [] s [tall] [] rfl
  obtain ⟨collision, h, hfirst, hwrapped, again, h', hsecond, hback, hagain⟩ := hone s hs
  have hcolumn : s.x % width = 0 := by decide
  have hline : s.y % height = 31 := by decide
  rw [hcolumn, hline] at hwrapped
  have hhit : (spriteHits s.x s.y s.rows 0 31).Nonempty := ⟨(0, 0), by decide⟩
  obtain rfl : again = true :=
    (hagain hlow).mpr ⟨0, 31, by decide, by decide, hhit, pixel_blank (by decide) (by decide)⟩
  exact ⟨regular_blank, hs, htall, hlow, ⟨g, g', hdraw, hperm _ (.swap _ _ _), hdraw', hpixels⟩,
    collision, h, h', hfirst, hwrapped, hsecond, hback⟩

end Framebuffer

end Chip8
