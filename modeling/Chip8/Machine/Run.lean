/-
  Chip8.Machine.Run — a number of steps in a row, whatever they come to.

  Unlike a tick, a run does not end early: a stopped machine goes on answering with its fault.
-/
import Chip8.Machine.Tick

namespace Chip8

/-- What a run gives. -/
structure Ran where
  outcomes : List Outcome
  events : List Event
  machine : Machine

namespace Machine

/-- Makes a number of steps, adding to the outcomes and the events. -/
def runFrom (outcomes : Array Outcome) (events : Array Event) (m : Machine) :
    Nat → Except Breach (Array Outcome × Array Event × Machine)
  | 0 => .ok (outcomes, events, m)
  | count + 1 =>
    match m.step with
    | .error breach => .error breach
    | .ok s => runFrom (outcomes.push s.outcome) (events ++ s.events) s.machine count

def run (m : Machine) (count : Nat) : Except Breach Ran :=
  match runFrom #[] #[] m count with
  | .error breach => .error breach
  | .ok (outcomes, events, after) =>
    .ok { outcomes := outcomes.toList, events := events.toList, machine := after }

/-- Makes a number of ticks, counting on from a report: their steps are added up, and the last tick's
    final step stands for all. -/
def ticks (report : TickReport) (m : Machine) : Nat → Except Breach (TickReport × Machine)
  | 0 => .ok (report, m)
  | count + 1 =>
    match m.tick with
    | .error breach => .error breach
    | .ok t =>
      let report := { steps := report.steps + t.report.steps, finalStep := t.report.finalStep }
      ticks report t.machine count

end Machine

end Chip8
