/-
  Chip8.Host.Page — a machine on a page that shows its screen, passes on keys and writes to a console.

  Every operation that may write gives its lines with its answer, in the order in which they are written.
-/
import Chip8.Host.Console
import Chip8.Host.Keymap
import Chip8.Host.Picture
import Chip8.Host.Report
import Chip8.Machine.Load
import Chip8.Machine.Tick

namespace Chip8

/-- A machine on a page. -/
structure Page where
  machine : Machine
  deriving Repr, DecidableEq

namespace Page

/-- What an operation gives. -/
structure Reply (α : Type) where
  answer : α
  /-- The lines written to the console. -/
  lines : List Console.Line
  page : Page

/-! ## §1. Making a page. -/

/-- A page whose random bytes come from a given seed. -/
def withSeed (seed : UInt64) : Page :=
  { machine := Machine.new { Config.standard with seed := seed } }

/-- The seed of a random fraction `numerator / 2 ^ exponent`: its first 53 binary places, or the largest
    seed if that is too much. -/
def seedOfFraction (numerator exponent : Nat) : UInt64 :=
  UInt64.ofNat (min (numerator <<< 53 >>> exponent) (UInt64.size - 1))

/-- A page whose seed is made from a random fraction. -/
def ofFraction (numerator exponent : Nat) : Page := withSeed (seedOfFraction numerator exponent)

/-! ## §2. Running. -/

/-- Resets the machine and loads an image; an image that is refused leaves the text to throw. -/
def loadImage (p : Page) (image : List UInt8) : Except Breach (Reply (Option String)) :=
  match p.machine.reload image with
  | .error breach => .error breach
  | .ok (none, machine) =>
    .ok { answer := none, lines := [Console.loadedLine image.length], page := { machine } }
  | .ok (some cause, machine) =>
    .ok { answer := some (Console.faultText cause), lines := [], page := { machine } }

def reset (p : Page) : Except Breach Page :=
  match p.machine.reset with
  | .error breach => .error breach
  | .ok machine => .ok { machine }

def step (p : Page) : Except Breach (Reply Report) :=
  match p.machine.step with
  | .error breach => .error breach
  | .ok s =>
    .ok { answer := .ofOutcome s.outcome, lines := Console.linesOf s.events
          page := { machine := s.machine } }

/-- Makes the steps of one frame and counts the timers down. -/
def frame (p : Page) : Except Breach (Reply FrameReport) :=
  match p.machine.tick with
  | .error breach => .error breach
  | .ok t =>
    .ok { answer := .ofTick t.report, lines := Console.linesOf t.events
          page := { machine := t.machine } }

def countDown (p : Page) : Page := { machine := p.machine.countDown }

/-! ## §3. Keys and screen. -/

/-- Holds or releases a key by its number. -/
def setKey (p : Page) (key : UInt8) (held : Bool) : Page := { machine := p.machine.setKey key held }

/-- Holds or releases the key that a keyboard key stands for, and says whether it stands for one. -/
def setNamedKey (p : Page) (name : String) (held : Bool) : Bool × Page :=
  match Keymap.key? name with
  | some key => (true, p.setKey key held)
  | none => (false, p)

def keyDown (p : Page) (name : String) : Bool × Page := p.setNamedKey name true

def keyUp (p : Page) (name : String) : Bool × Page := p.setNamedKey name false

/-- Says whether the screen was written to since this was last asked, and forgets it. -/
def takeChanged (p : Page) : Bool × Page :=
  let (changed, framebuffer) := p.machine.framebuffer.takeChanged
  (changed, { machine := { p.machine with framebuffer } })

end Page

end Chip8
