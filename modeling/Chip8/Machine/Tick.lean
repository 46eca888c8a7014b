/-
  Chip8.Machine.Tick — a tick of the host's clock: a budget of steps, then the timers.

  The steps end early with a fault, since a stopped machine has nothing left to do; the timers count down
  all the same.
-/
import Chip8.Machine.Step

namespace Chip8

/-- What a tick gives. -/
structure Ticked where
  report : TickReport
  events : List Event
  machine : Machine

namespace Machine

/-- Makes steps until the budget is used up or a step ends with a fault, counting on from a report and
    adding to the events. -/
def burst (report : TickReport) (events : Array Event) (m : Machine) :
    Nat → Except Breach (TickReport × Array Event × Machine)
  | 0 => .ok (report, events, m)
  | budget + 1 =>
    match m.step with
    | .error breach => .error breach
    | .ok s =>
      let report := { steps := report.steps + 1, finalStep := some s.outcome }
      let events := events ++ s.events
      if s.outcome.isFault then .ok (report, events, s.machine)
      else burst report events s.machine budget

/-- One tick. -/
def tick (m : Machine) : Except Breach Ticked :=
  match burst { steps := 0, finalStep := none } #[] m m.config.stepsPerTick.toNat with
  | .error breach => .error breach
  | .ok (report, events, after) =>
    .ok { report, events := events.toList, machine := after.countDown }

end Machine

end Chip8
