/-
  Chip8.Host.Picture — the screen in colour: green on black, opaque.
-/
import Chip8.Framebuffer

namespace Chip8

/-- A colour. -/
structure Colour where
  /-- Red. -/
  red : UInt8
  /-- Green. -/
  green : UInt8
  /-- Blue. -/
  blue : UInt8
  /-- Opacity. -/
  alpha : UInt8
  deriving Repr, DecidableEq

namespace Colour

/-- The colour of a pixel: any value but zero is lit. -/
def ofPixel (pixel : UInt8) : Colour :=
  { red := 0, green := if pixel = 0 then 0 else 0xFF, blue := 0, alpha := 0xFF }

end Colour

namespace Framebuffer

/-- The colours of the screen, row by row. -/
def picture (f : Framebuffer) : Array Colour := f.pixels.map Colour.ofPixel

end Framebuffer

end Chip8
