/-
  Chip8.Proofs.Hosting — what a page is asked, and what it asks of its machine.

  A page is driven by CALLS.  Most of them are requests to its machine under another name, with an answer
  put in numbers and texts: `request?` says which.  A keyboard key that stands for no key of the machine is
  no request at all, and neither is the question whether the screen was written to, which the page answers
  by itself.  `Leaves` says what is left of the page in either case, so that a property of pages under
  calls comes down to one of machines under requests.

  Main statements: `leaves_of_call` (what a call leaves), `exists_call` and `exists_run` (a call succeeds,
  and so do calls in a row).
-/
import Chip8.Host.Page
import Chip8.Proofs.Reaching

namespace Chip8

namespace Page

/-! ## §1. Calls. -/

/-- What a page is asked to do. -/
inductive Call where
  | loadImage (image : List UInt8)
  | reset
  | step
  | frame
  | countDown
  | keyDown (name : String)
  | keyUp (name : String)
  | setKey (key : UInt8) (held : Bool)
  | takeChanged
  deriving Repr, DecidableEq

/-- What a page answers. -/
inductive Answer where
  | silence
  /-- Why an image was refused, if it was. -/
  | refusal (text : Option String)
  | report (report : Report)
  | frameReport (report : FrameReport)
  /-- Yes or no. -/
  | decision (yes : Bool)
  deriving Repr, DecidableEq

/-- Carries out a call. -/
def call (p : Page) : Call → Except Breach (Reply Answer)
  | .loadImage image => (p.loadImage image).map fun r => ⟨.refusal r.answer, r.lines, r.page⟩
  | .reset => p.reset.map fun after => ⟨.silence, [], after⟩
  | .step => p.step.map fun r => ⟨.report r.answer, r.lines, r.page⟩
  | .frame => p.frame.map fun r => ⟨.frameReport r.answer, r.lines, r.page⟩
  | .countDown => .ok ⟨.silence, [], p.countDown⟩
  | .keyDown name => .ok ⟨.decision (p.keyDown name).1, [], (p.keyDown name).2⟩
  | .keyUp name => .ok ⟨.decision (p.keyUp name).1, [], (p.keyUp name).2⟩
  | .setKey key held => .ok ⟨.silence, [], p.setKey key held⟩
  | .takeChanged => .ok ⟨.decision p.takeChanged.1, [], p.takeChanged.2⟩

/-- The page behind calls in order. -/
def run (p : Page) : List Call → Except Breach Page
  | [] => .ok p
  | c :: calls =>
    match p.call c with
    | .error breach => .error breach
    | .ok r => r.page.run calls

/-! ## §2. Calls as requests. -/

/-- The request that a call makes to the machine, if it makes one. -/
def Call.request? : Call → Option Request
  | .loadImage image => some (.reload image)
  | .reset => some .reset
  | .step => some .step
  | .frame => some .tick
  | .countDown => some .countDown
  | .keyDown name => (Keymap.key? name).map (.setKey · true)
  | .keyUp name => (Keymap.key? name).map (.setKey · false)
  | .setKey key held => some (.setKey key held)
  | .takeChanged => none

/-- Says what a call leaves: a request is served, and of the other calls only the question about the
    screen leaves something else than it finds. -/
inductive Leaves (p : Page) (c : Call) (after : Page) : Prop where
  | served {q : Request} {s : Served} (request : c.request? = some q)
    (serves : p.machine.serve q = .ok s) (machine : after.machine = s.machine)
  | idle (request : c.request? = none) (other : c ≠ .takeChanged) (same : after = p)
  | asked (question : c = .takeChanged) (forgets : after = p.takeChanged.2)

variable {p : Page}

/-- A call that names a key sets it, if there is one of that name. -/
theorem leaves_setNamedKey {c : Call} {name : String} {held : Bool} (other : c ≠ .takeChanged)
    (hc : c.request? = (Keymap.key? name).map (.setKey · held)) :
    p.Leaves c (p.setNamedKey name held).2 := by
  unfold setNamedKey
  split
  · rename_i key hk
    rw [hk] at hc
    exact .served hc rfl rfl
  · rename_i hk
    rw [hk] at hc
    exact .idle hc other rfl

/-- Whatever a call gives, it leaves what its request leaves, if it makes one. -/
theorem leaves_of_call {c : Call} {r : Reply Answer} (h : p.call c = .ok r) : p.Leaves c r.page := by
  cases c with
  | loadImage image =>
    simp only [call, loadImage] at h
    split at h
    · cases h
    · rename_i hr
      cases h
      exact .served rfl (congrArg (Except.map _) hr) rfl
    · rename_i hr
      cases h
      exact .served rfl (congrArg (Except.map _) hr) rfl
  | reset =>
    simp only [call, reset] at h
    split at h
    · cases h
    · rename_i hr
      cases h
      exact .served rfl (congrArg (Except.map _) hr) rfl
  | step =>
    simp only [call, step] at h
    split at h
    · cases h
    · rename_i hs
      cases h
      exact .served rfl (congrArg (Except.map _) hs) rfl
  | frame =>
    simp only [call, frame] at h
    split at h
    · cases h
    · rename_i ht
      cases h
      exact .served rfl (congrArg (Except.map _) ht) rfl
  | countDown | setKey key held =>
    cases h
    exact .served rfl rfl rfl
  | keyDown name | keyUp name =>
    cases h
    exact leaves_setNamedKey nofun rfl
  | takeChanged =>
    cases h
    exact .asked rfl rfl

/-! ## §3. Calls succeed. -/

/-- A call does no harm to the machine. -/
theorem Leaves.intact {c : Call} {after : Page} (h : p.Leaves c after) (hp : p.machine.WellShaped) :
    p.machine.Intact after.machine := by
  cases h with
  | served request serves machine =>
    rw [machine]
    exact Machine.intact_of_serve hp serves
  | idle request other same =>
    rw [same]
    exact hp.intact
  | asked question forgets =>
    rw [forgets]
    exact hp.intact_of_parts rfl hp.regular hp.depth_le rfl

/-- A call to a page with a well-shaped machine succeeds. -/
theorem exists_call (hp : p.machine.WellShaped) (c : Call) : ∃ r, p.call c = .ok r := by
  cases c with
  | loadImage image =>
    rcases Nat.lt_or_ge Memory.maxImageSize image.length with hlt | hle
    · simp [call, loadImage, Machine.reload_of_lt hp.size_memory hlt, Except.map]
    · simp [call, loadImage, Machine.reload_of_le hp.size_memory hle, Except.map]
  | reset => simp [call, reset, Machine.reset_eq_new hp.size_memory, Except.map]
  | step =>
    obtain ⟨s, hs, _⟩ := Machine.exists_step hp
    simp [call, step, hs, Except.map]
  | frame =>
    obtain ⟨t, ht, _⟩ := Machine.exists_tick hp
    simp [call, frame, ht, Except.map]
  -- The other calls cannot fail.
  | _ => exact ⟨_, rfl⟩

/-- Calls in a row succeed, and leave a well-shaped machine. -/
theorem exists_run (calls : List Call) :
    ∀ {p : Page}, p.machine.WellShaped →
      ∃ after, p.run calls = .ok after ∧ after.machine.WellShaped := by
  induction calls with
  | nil =>
    intro p hp
    exact ⟨p, rfl, hp⟩
  | cons c calls ih =>
    intro p hp
    obtain ⟨r, hr⟩ := exists_call hp c
    obtain ⟨after, ha, hs⟩ := ih ((leaves_of_call hr).intact hp).shaped
    exact ⟨after, by simp only [run, hr, ha], hs⟩

end Page

end Chip8
