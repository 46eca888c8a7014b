/-
  Chip8.Proofs.Nesting — a call stack is a short list of addresses.

  The list is what one thinks of when calls nest: an address is put at the end, and taken from there.  The
  stack does it in place, with a count of the slots that are in use.  Nothing is wiped when an address is
  taken, so the slots behind the count keep what they held until a push writes over them.  No use of the
  stack looks there: whatever is left over in them, the stack answers as the list does.

  Main statements: `Holds.use` (one use), `Holds.useAll` (any number) and `nests_as_list`.
-/
import Chip8.Proofs.Serving

namespace Chip8

/-! ## §1. Uses of a stack. -/

namespace CallStack

/-- What can be asked of a call stack. -/
inductive Use where
  | push (address : UInt16)
  | pop
  | peek
  | clear
  | depth
  | isEmpty
  | isFull
  | frames
  deriving Repr, DecidableEq

/-- What a call stack answers. -/
inductive Reply where
  | done
  /-- The fault for which nothing was done. -/
  | refused (cause : Fault)
  /-- The address that was taken away. -/
  | taken (address : UInt16)
  /-- The last address, if there is one. -/
  | last (address : Option UInt16)
  | count (depth : Nat)
  | truth (holds : Bool)
  | frames (addresses : List UInt16)
  deriving Repr, DecidableEq

/-- Puts a stack to a use.  One that refuses is as it was. -/
def use (s : CallStack) : Use → Except Breach (Reply × CallStack)
  | .push address =>
    match s.push address with
    | .ok t => .ok (.done, t)
    | .error cause => .ok (.refused cause, s)
  | .pop =>
    match s.pop with
    | .ok (address, t) => .ok (.taken address, t)
    | .error (.fault cause) => .ok (.refused cause, s)
    | .error (.breach breach) => .error breach
  | .peek => s.peek.map fun address => (.last address, s)
  | .clear => .ok (.done, s.clear)
  | .depth => .ok (.count s.depth, s)
  | .isEmpty => .ok (.truth s.isEmpty, s)
  | .isFull => .ok (.truth s.isFull, s)
  | .frames => .ok (.frames s.frames, s)

/-- Puts a stack to uses in order and gives all the replies. -/
def useAll (s : CallStack) : List Use → Except Breach (List Reply × CallStack)
  | [] => .ok ([], s)
  | u :: us =>
    match s.use u with
    | .error breach => .error breach
    | .ok (reply, t) => (t.useAll us).map fun (replies, later) => (reply :: replies, later)

/-- The stack with other contents in the slots that are not in use. -/
def withLeftovers (s : CallStack) (leftovers : Vector UInt16 16) : CallStack :=
  { s with slots := Vector.ofFn fun k => if k.val < s.depth then s.slots.get k else leftovers.get k }

end CallStack

/-! ## §2. The list. -/

/-- The addresses of the calls that are open, outermost first; there are at most sixteen. -/
structure OpenCalls where
  addresses : List UInt16
  length_le : addresses.length ≤ 16

namespace OpenCalls

open CallStack

/-- No open calls. -/
def nil : OpenCalls := ⟨[], Nat.zero_le 16⟩

/-- One more call, if there is room. -/
def extend (c : OpenCalls) (address : UInt16) (room : c.addresses.length < 16) : OpenCalls where
  addresses := c.addresses ++ [address]
  length_le := by rwa [List.length_append]

/-- The calls without the innermost. -/
def shorten (c : OpenCalls) : OpenCalls where
  addresses := c.addresses.dropLast
  length_le := by
    rw [List.length_dropLast]
    exact Nat.le_trans (Nat.sub_le _ _) c.length_le

/-- Puts the list to a use: what a stack is meant to reply, and what it is meant to hold afterwards. -/
def use (c : OpenCalls) : Use → Reply × OpenCalls
  | .push address =>
    if room : c.addresses.length < 16 then (.done, c.extend address room)
    else (.refused .stackOverflow, c)
  | .pop =>
    match c.addresses.getLast? with
    | some address => (.taken address, c.shorten)
    | none => (.refused .stackUnderflow, c)
  | .peek => (.last c.addresses.getLast?, c)
  | .clear => (.done, nil)
  | .depth => (.count c.addresses.length, c)
  | .isEmpty => (.truth c.addresses.isEmpty, c)
  | .isFull => (.truth (c.addresses.length == 16), c)
  | .frames => (.frames c.addresses, c)

/-- Puts the list to uses in order. -/
def useAll (c : OpenCalls) : List Use → List Reply × OpenCalls
  | [] => ([], c)
  | u :: us => ((c.use u).1 :: ((c.use u).2.useAll us).1, ((c.use u).2.useAll us).2)

end OpenCalls

namespace CallStack

/-! ## §3. One use. -/

/-- Says that a stack holds certain calls, whatever is left over in its other slots. -/
structure Holds (s : CallStack) (c : OpenCalls) : Prop where
  frames_eq : s.frames = c.addresses
  /-- No more calls are counted than there are slots. -/
  depth_le : s.depth ≤ capacity

variable {s : CallStack} {c : OpenCalls}

theorem holds_empty : empty.Holds .nil := ⟨rfl, Nat.zero_le _⟩

/-- The count of a stack is the number of calls. -/
theorem Holds.depth_eq (h : s.Holds c) : s.depth = c.addresses.length := by
  rw [← h.frames_eq, length_frames h.depth_le]

/-- A push puts the address at the end. -/
theorem Holds.push (h : s.Holds c) (address : UInt16) (room : c.addresses.length < 16) :
    ∃ t, s.push address = .ok t ∧ t.Holds (c.extend address room) := by
  have hd : s.depth < 16 := by rwa [h.depth_eq]
  have hpush : s.push address = .ok _ := dif_pos hd
  refine ⟨_, hpush, ?_, Machine.depth_push hpush⟩
  rw [frames_push hpush, h.frames_eq]
  rfl

/-- A push to a stack that is full is refused. -/
theorem Holds.push_of_full (h : s.Holds c) (address : UInt16) (full : ¬c.addresses.length < 16) :
    s.push address = .error .stackOverflow :=
  dif_neg (by rwa [h.depth_eq])

/-- A pop takes the address at the end. -/
theorem Holds.pop (h : s.Holds c) {address : UInt16} (hlast : c.addresses.getLast? = some address) :
    ∃ t, s.pop = .ok (address, t) ∧ t.Holds c.shorten := by
  obtain ⟨base, hbase⟩ := List.getLast?_eq_some_iff.mp hlast
  have hframes : s.frames = base ++ [address] := h.frames_eq.trans hbase
  rcases Machine.exists_pop h.depth_le with ⟨popped, t, hpop, hd⟩ | ⟨cause, hpop⟩
  · obtain ⟨ht, rfl⟩ := List.append_singleton_inj.mp ((frames_pop hpop).symm.trans hframes)
    refine ⟨t, hpop, ?_, hd⟩
    show t.frames = c.addresses.dropLast
    rw [ht, hbase, List.dropLast_concat]
  -- A stack that holds an address has one to give.
  · rw [frames_of_depth (depth_of_pop_fault hpop)] at hframes
    exact absurd hframes.symm (List.append_ne_nil_of_right_ne_nil _ (List.cons_ne_nil _ _))

/-- A pop from a stack that is empty is refused. -/
theorem Holds.pop_of_empty (h : s.Holds c) (hnone : c.addresses.getLast? = none) :
    s.pop = .error (.fault .stackUnderflow) := by
  have hd : s.depth = 0 := by
    rw [h.depth_eq, List.getLast?_eq_none_iff.mp hnone]
    rfl
  simp only [CallStack.pop, hd]

/-- A stack replies to a use as the calls that it holds do, and then holds what they are then. -/
theorem Holds.use (h : s.Holds c) (u : Use) :
    ∃ t, s.use u = .ok ((c.use u).1, t) ∧ t.Holds (c.use u).2 := by
  cases u with
  | push address =>
    rw [OpenCalls.use]
    by_cases room : c.addresses.length < 16
    · obtain ⟨t, hpush, ht⟩ := h.push address room
      rw [dif_pos room]
      exact ⟨t, by simp only [CallStack.use, hpush], ht⟩
    · rw [dif_neg room]
      exact ⟨s, by simp only [CallStack.use, h.push_of_full address room], h⟩
  | pop =>
    rw [OpenCalls.use]
    split
    · rename_i address hlast
      obtain ⟨t, hpop, ht⟩ := h.pop hlast
      exact ⟨t, by simp only [CallStack.use, hpop], ht⟩
    · rename_i hnone
      exact ⟨s, by simp only [CallStack.use, h.pop_of_empty hnone], h⟩
  | peek =>
    have hpeek : s.peek = .ok s.frames.getLast? := if_pos h.depth_le
    refine ⟨s, ?_, h⟩
    rw [CallStack.use, hpeek, h.frames_eq]
    rfl
  | clear => exact ⟨empty, rfl, holds_empty⟩
  | depth => exact ⟨s, by rw [CallStack.use, h.depth_eq]; rfl, h⟩
  | isEmpty =>
    refine ⟨s, ?_, h⟩
    rw [CallStack.use, CallStack.isEmpty, h.depth_eq, OpenCalls.use]
    cases c.addresses with
    | nil => rfl
    | cons address addresses => rfl
  | isFull => exact ⟨s, by rw [CallStack.use, CallStack.isFull, h.depth_eq]; rfl, h⟩
  | frames => exact ⟨s, by rw [CallStack.use, h.frames_eq]; rfl, h⟩

/-! ## §4. Uses in a row. -/

/-- A stack replies to uses in a row as the calls that it holds do. -/
theorem Holds.useAll (us : List Use) :
    ∀ {s : CallStack} {c : OpenCalls}, s.Holds c →
      ∃ t, s.useAll us = .ok ((c.useAll us).1, t) ∧ t.Holds (c.useAll us).2 := by
  induction us with
  | nil =>
    intro s c h
    exact ⟨s, rfl, h⟩
  | cons u us ih =>
    intro s c h
    obtain ⟨t, hu, ht⟩ := h.use u
    obtain ⟨later, hus, hlater⟩ := ih ht
    refine ⟨later, ?_, hlater⟩
    simp only [CallStack.useAll, hu, hus, Except.map, OpenCalls.useAll]

/-- A slot that is in use keeps its address. -/
theorem getElem_withLeftovers (s : CallStack) (leftovers : Vector UInt16 16) {k : Nat} (hk : k < 16)
    (used : k < s.depth) : (s.withLeftovers leftovers).slots[k] = s.slots[k] := by
  rw [withLeftovers, Vector.getElem_ofFn]
  exact if_pos used

/-- What is left over in the other slots is not held. -/
theorem Holds.withLeftovers (h : s.Holds c) (leftovers : Vector UInt16 16) :
    (s.withLeftovers leftovers).Holds c where
  frames_eq := by
    refine Eq.trans ?_ h.frames_eq
    show (s.withLeftovers leftovers).slots.toList.take s.depth = s.slots.toList.take s.depth
    apply List.ext_getElem?
    intro k
    by_cases used : k < s.depth
    · have hk : k < 16 := Nat.lt_of_lt_of_le used h.depth_le
      rw [List.getElem?_take_of_lt used, List.getElem?_take_of_lt used, Vector.getElem?_toList,
        Vector.getElem?_toList, Vector.getElem?_eq_getElem hk, Vector.getElem?_eq_getElem hk,
        getElem_withLeftovers s leftovers hk used]
    · have hle : s.depth ≤ k := Nat.not_lt.mp used
      rw [List.getElem?_take_eq_none hle, List.getElem?_take_eq_none hle]
  depth_le := h.depth_le

/-- A call stack is a list of at most sixteen addresses.  Whatever it is put to, from the empty stack on, it
    gives all the replies that the list gives, refusals among them, and in the end holds the addresses that
    the list holds.  What pops have left behind in its slots has no part in that: with anything else in
    the slots that are not in use, all later replies are the same. -/
theorem nests_as_list (uses : List Use) :
    ∃ s, empty.useAll uses = .ok ((OpenCalls.nil.useAll uses).1, s) ∧
      s.frames = (OpenCalls.nil.useAll uses).2.addresses ∧
      ∀ leftovers later, ∃ replies,
        (s.useAll later).map Prod.fst = .ok replies ∧
        ((s.withLeftovers leftovers).useAll later).map Prod.fst = .ok replies := by
  obtain ⟨s, hs, h⟩ := Holds.useAll uses holds_empty
  refine ⟨s, hs, h.frames_eq, ?_⟩
  intro leftovers later
  obtain ⟨t, ht, _⟩ := h.useAll later
  obtain ⟨t', ht', _⟩ := (h.withLeftovers leftovers).useAll later
  exact ⟨_, congrArg (Except.map Prod.fst) ht, congrArg (Except.map Prod.fst) ht'⟩

/-- A slot that a pop has left behind is written over by the next push. -/
example : (empty.useAll [.push 0x200, .push 0x300, .pop, .peek, .push 0x400, .frames, .depth]).map
    Prod.fst = .ok [.done, .done, .taken 0x300, .last (some 0x200), .done, .frames [0x200, 0x400],
      .count 2] := rfl

end CallStack

end Chip8
