/-
  Chip8.Framebuffer — the screen and the drawing of sprites.

  The screen is a grid of 64 by 32 pixels, one byte each, row by row.  A sprite is a list of row bytes,
  the highest bit leftmost; coordinates wrap around on both axes.  Drawing toggles the cells that the
  sprite covers, one after the other: `spriteCells` lists them and `toggleCells` carries the toggling
  out, so a statement about drawing is a statement about a list of cells.  Coordinates are added in words
  of the host before they wrap around, and a sum that does not fit there is a breach.

  Main statement: `size_toggleCells` (drawing keeps the size of the grid).
-/
import Chip8.Fault

namespace Chip8

/-- The screen. -/
structure Framebuffer where
  /-- The pixels, row by row, 1 for a lit one. -/
  pixels : Array UInt8
  /-- Says whether the screen was written to since the host last asked. -/
  changed : Bool
  deriving Repr, DecidableEq

namespace Framebuffer

/-! ## §1. The grid. -/

def width : Nat := 64

def height : Nat := 32

def pixelCount : Nat := width * height

def spriteWidth : Nat := 8

/-- A dark screen that the host has seen. -/
def blank : Framebuffer := { pixels := Array.replicate pixelCount 0, changed := false }

/-- The place of a pixel in the grid; coordinates wrap around. -/
def index (x y : Nat) : Nat := x % width + y % height * width

/-- The pixel at a position. -/
def pixel (f : Framebuffer) (x y : Nat) : Except Breach UInt8 :=
  match f.pixels[index x y]? with
  | some value => .ok value
  | none => .error .pixels

/-- The number of lit pixels. -/
def countLit (f : Framebuffer) : Nat := f.pixels.countP (· == 1)

def clear (f : Framebuffer) : Framebuffer :=
  { pixels := Array.replicate f.pixels.size 0, changed := true }

/-- Says whether the screen was written to since this was last asked, and forgets it. -/
def takeChanged (f : Framebuffer) : Bool × Framebuffer := (f.changed, { f with changed := false })

/-! ## §2. The cells of a sprite. -/

/-- One past the largest coordinate that a word of the host holds. -/
def coordinateLimit : Nat := 0x10000000000000000

/-- The positions that one row byte covers, left to right, before they wrap around. -/
def rowPositions (x y : Nat) (row : UInt8) : List (Nat × Nat) :=
  ((List.range spriteWidth).filter fun column => row.toNat.testBit (7 - column)).map
    fun column => (x + column, y)

/-- The positions that a sprite covers, row by row. -/
def spritePositions (x y : Nat) (rows : List UInt8) : List (Nat × Nat) :=
  rows.zipIdx.flatMap fun (row, line) => rowPositions x (y + line) row

/-- The cells that a sprite covers, row by row; a cell that several bits reach is listed once for
    each. -/
def spriteCells (x y : Nat) (rows : List UInt8) : List Nat :=
  (spritePositions x y rows).map fun (column, line) => index column line

/-- Says whether every coordinate of a sprite fits in a word of the host. -/
def spriteFits (x y : Nat) (rows : List UInt8) : Bool :=
  (spritePositions x y rows).all fun (column, line) =>
    column < coordinateLimit && line < coordinateLimit

/-! ## §3. Drawing. -/

/-- Toggles cells in order and says whether any of them was lit when its turn came. -/
def toggleCells (collision : Bool) (pixels : Array UInt8) :
    List Nat → Except Breach (Bool × Array UInt8)
  | [] => .ok (collision, pixels)
  | cell :: cells =>
    if h : cell < pixels.size then
      toggleCells (collision || pixels[cell] == 1) (pixels.set cell (pixels[cell] ^^^ 1) h) cells
    else
      .error .pixels

/-- Draws a sprite with its top left corner at a position and says whether it turned a lit pixel
    off. -/
def draw (f : Framebuffer) (x y : Nat) (rows : List UInt8) :
    Except Breach (Bool × Framebuffer) :=
  if spriteFits x y rows then
    match toggleCells false f.pixels (spriteCells x y rows) with
    | .ok (collision, pixels) => .ok (collision, { pixels, changed := true })
    | .error breach => .error breach
  else
    .error .coordinates

/-! ## §4. Small laws. -/

/-- Every position lies on the grid. -/
theorem index_lt (x y : Nat) : index x y < pixelCount := by
  simp only [index, pixelCount, width, height]
  omega

/-- Positions that agree up to the size of the screen share their place. -/
theorem index_mod (x y : Nat) : index (x % width) (y % height) = index x y := by
  simp [index]

/-- Drawing keeps the size of the grid. -/
theorem size_toggleCells {collision after : Bool} {pixels pixels' : Array UInt8} {cells : List Nat}
    (h : toggleCells collision pixels cells = .ok (after, pixels')) :
    pixels'.size = pixels.size := by
  induction cells generalizing collision pixels with
  | nil =>
    cases h
    rfl
  | cons cell cells ih =>
    rw [toggleCells] at h
    split at h
    · rw [ih h, Array.size_set]
    · cases h

end Framebuffer

end Chip8
