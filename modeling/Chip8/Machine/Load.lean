/-
  Chip8.Machine.Load — program images.

  An image is written from the start of the program on.  Loading alone changes nothing else, so an image
  may be loaded into a machine in the middle of a run; reloading resets first.
-/
import Chip8.Machine.Basic

namespace Chip8

namespace Machine

/-- Writes an image to the program's place; one that does not fit is refused as too large. -/
def load (m : Machine) (image : List UInt8) : Except Trap Machine :=
  match Memory.span Memory.programStart image.length with
  | .error _ => .error (.fault .imageTooLarge)
  | .ok s =>
    match Memory.writeSpan m.memory s image with
    | .error breach => .error (.breach breach)
    | .ok memory => .ok { m with memory }

/-- A fresh machine with an image loaded. -/
def ofImage (config : Config) (image : List UInt8) : Except Trap Machine := (new config).load image

/-- Resets the machine and loads an image.  The machine is reset even if the image is refused; the fault
    says whether it was. -/
def reload (m : Machine) (image : List UInt8) : Except Breach (Option Fault × Machine) :=
  match m.reset with
  | .error breach => .error breach
  | .ok cleared =>
    match cleared.load image with
    | .ok loaded => .ok (none, loaded)
    | .error (.fault cause) => .ok (some cause, cleared)
    | .error (.breach breach) => .error breach

end Machine

end Chip8
