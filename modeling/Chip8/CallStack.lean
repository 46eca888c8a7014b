/-
  Chip8.CallStack — the return addresses of the calls that are open.

  The stack has sixteen slots and counts how many are in use.  A return lowers the count and leaves the
  slot as it was, so two stacks that hold the same addresses may differ in slots that are not in use;
  `frames` is what a stack holds.

  Main statements: `frames_push` and `frames_pop` (push appends, pop removes the last).
-/
import Chip8.Fault

namespace Chip8

/-- The open calls. -/
structure CallStack where
  /-- Room for the return addresses, outermost first. -/
  slots : Vector UInt16 16
  depth : Nat
  deriving Repr, DecidableEq

namespace CallStack

/-! ## §1. Operations. -/

def capacity : Nat := 16

/-- No open calls and every slot zero. -/
def empty : CallStack := { slots := Vector.replicate 16 0, depth := 0 }

/-- The addresses held, outermost first. -/
def frames (s : CallStack) : List UInt16 := s.slots.toList.take s.depth

/-- Says whether no call is open. -/
def isEmpty (s : CallStack) : Bool := s.depth == 0

/-- Says whether every slot is in use. -/
def isFull (s : CallStack) : Bool := s.depth == capacity

/-- The stack with one more address, if there is a slot for it. -/
def push (s : CallStack) (address : UInt16) : Except Fault CallStack :=
  if h : s.depth < 16 then
    .ok { slots := s.slots.set s.depth address h, depth := s.depth + 1 }
  else
    .error .stackOverflow

/-- The last address held and the stack without it. -/
def pop (s : CallStack) : Except Trap (UInt16 × CallStack) :=
  match s.depth with
  | 0 => .error (.fault .stackUnderflow)
  | depth + 1 =>
    if h : depth < 16 then .ok (s.slots[depth], { s with depth })
    else .error (.breach .frames)

/-- The last address held, if any is. -/
def peek (s : CallStack) : Except Breach (Option UInt16) :=
  if s.depth ≤ 16 then .ok s.frames.getLast? else .error .frames

/-- No open calls, whatever was open before. -/
def clear (_ : CallStack) : CallStack := empty

/-! ## §2. What the operations do to the frames. -/

/-- The empty stack holds nothing. -/
@[simp] theorem frames_empty : empty.frames = [] := rfl

/-- A stack that counts no more than it has room for holds as many addresses as it counts. -/
theorem length_frames {s : CallStack} (h : s.depth ≤ 16) : s.frames.length = s.depth := by
  simp [frames, h]

/-- A push puts the address last. -/
theorem frames_push {s t : CallStack} {address : UInt16} (h : s.push address = .ok t) :
    t.frames = s.frames ++ [address] := by
  unfold push at h
  split at h
  · rename_i hd
    cases h
    simp only [frames]
    rw [List.take_add_one, Vector.toList_set, List.take_set_of_le (Nat.le_refl _)]
    simp [hd]
  · cases h

/-- A pop gives the last address and keeps the others. -/
theorem frames_pop {s t : CallStack} {address : UInt16} (h : s.pop = .ok (address, t)) :
    s.frames = t.frames ++ [address] := by
  obtain ⟨slots, depth⟩ := s
  cases depth with
  | zero => cases h
  | succ depth =>
    simp only [pop] at h
    split at h
    · rename_i hd
      cases h
      simp only [frames]
      rw [List.take_add_one]
      simp [hd]
    · cases h

theorem frames_of_depth {s : CallStack} (h : s.depth = 0) : s.frames = [] := by
  rw [frames, h, List.take_zero]

/-- A pop is refused only when nothing is held. -/
theorem depth_of_pop_fault {s : CallStack} {cause : Fault} (h : s.pop = .error (.fault cause)) :
    s.depth = 0 := by
  unfold pop at h
  split at h
  · assumption
  · split at h
    · cases h
    · cases h

end CallStack

end Chip8
