/-
  Chip8.Proofs.Repainting — what a page may leave unpainted.

  A page that asks whether the screen was written to, and is told that it was not, does not paint it again.
  Every instruction that writes to the screen marks it, and only the question takes the mark away; but a
  restart puts a new screen in the place of the old one, and the new one is dark and not marked.  So the
  answer is to be taken with care: between two questions it speaks of the screen that the page saw last, or,
  if the machine started over since then, of a dark one.

  Main statements: `framebuffer_of_step` (a step that writes to the screen marks it), `tells_of_serve` (what
  a request leaves of the marks), `exists_run_tells` (and what calls in a row leave of them),
  `takeChanged_sound` (what an unmarked screen shows) and `takeChanged_stale` (a restart goes unnoticed).
-/
import Chip8.Proofs.Footprint
import Chip8.Proofs.Hosting

namespace Chip8

namespace Framebuffer

/-- Says that a screen is marked as written to, or else shows the pixels that were seen. -/
def Tells (f : Framebuffer) (seen : Array UInt8) : Prop := f.changed = true ∨ f.pixels = seen

theorem tells_self (f : Framebuffer) : f.Tells f.pixels := .inr rfl

end Framebuffer

namespace Machine

variable {m : Machine}

/-! ## §1. Steps mark the screen. -/

/-- A step leaves the screen alone or marks it. -/
theorem framebuffer_of_step (hm : m.WellShaped) {s : Stepped} (h : m.step = .ok s) :
    s.machine.framebuffer = m.framebuffer ∨ s.machine.framebuffer.changed = true := by
  cases stepsTo_of_step hm h with
  | stopped cause status => exact .inl rfl
  | unfetched live outside => exact .inl rfl
  | refused live w d cause fetches demand refusal => exact .inl rfl
  | completed live w flow after fetches granted performs shaped kept =>
    rw [machine_settle]
    by_cases hw : .screen ∈ (Instruction.decode w).writes
    · have hmarked := changed_of_done performs hw
      exact .inr hmarked
    · have hsame : Part.Same m after .screen := same_of_done performs hw
      exact .inl hsame

/-! ## §2. Requests keep the marks. -/

/-- Whatever was seen on the screen, the screen still tells behind a request; behind one to start over it
    tells of a dark screen, whatever was seen. -/
theorem tells_of_serve (hm : m.WellShaped) {seen : Array UInt8} (ht : m.framebuffer.Tells seen)
    {r : Request} {s : Served} (h : m.serve r = .ok s) :
    s.machine.framebuffer.Tells
      (if r.startsOver then Framebuffer.blank.pixels else seen) := by
  refine serve_preserves
    (P := fun a => a.framebuffer.Tells (if r.startsOver then Framebuffer.blank.pixels else seen))
    ?_ (fun _ => id) (fun _ _ _ => id) ?_ ?_ ?_ hm ?_ h
  · intro a t ha hseen ht
    rcases framebuffer_of_step ha ht with hsame | hmarked
    · rwa [hsame]
    · exact .inl hmarked
  · rintro image rfl
    exact ht
  · intro hr
    rw [if_pos hr]
    exact Framebuffer.tells_self _
  · rintro image rfl
    exact Framebuffer.tells_self _
  · intro hr
    rwa [hr]

end Machine

namespace Page

variable {p : Page}

/-! ## §3. Calls keep the marks. -/

/-- Says whether a call makes the machine start over. -/
def Call.startsOver (c : Call) : Bool := c.request?.any Request.startsOver

/-- The pixels on the screen. -/
def pixels (p : Page) : Array UInt8 := p.machine.framebuffer.pixels

/-- The pixels that an unmarked screen shows behind calls, if it showed certain ones before. -/
def unmarked (seen : Array UInt8) (calls : List Call) : Array UInt8 :=
  if calls.any Call.startsOver then Framebuffer.blank.pixels else seen

theorem unmarked_cons (seen : Array UInt8) (c : Call) (calls : List Call) :
    unmarked seen (c :: calls) =
      unmarked (if c.startsOver then Framebuffer.blank.pixels else seen) calls := by
  rw [unmarked, unmarked, List.any_cons]
  cases c.startsOver <;> cases calls.any Call.startsOver <;> simp

/-- A call other than the question leaves a screen that tells of what was seen, or of a dark screen if
    the call makes the machine start over. -/
theorem tells_of_call (hp : p.machine.WellShaped) {seen : Array UInt8}
    (ht : p.machine.framebuffer.Tells seen) {c : Call} (quiet : c ≠ .takeChanged) {r : Reply Answer}
    (h : p.call c = .ok r) :
    r.page.machine.framebuffer.Tells (if c.startsOver then Framebuffer.blank.pixels else seen) := by
  cases leaves_of_call h with
  | served request serves machine =>
    rw [machine, Call.startsOver, request]
    exact Machine.tells_of_serve hp ht serves
  | idle request other same =>
    rw [same, Call.startsOver, request]
    exact ht
  | asked question forgets => exact absurd question quiet

/-- Calls in a row with no question among them leave such a screen. -/
theorem exists_run_tells (calls : List Call) :
    ∀ {p : Page} {seen : Array UInt8}, p.machine.WellShaped → p.machine.framebuffer.Tells seen →
      .takeChanged ∉ calls →
        ∃ after, p.run calls = .ok after ∧ after.machine.framebuffer.Tells (unmarked seen calls) := by
  -- The pixels that the screen tells of change along the way, so the induction is on any of them.
  induction calls with
  | nil =>
    intro p seen _ ht _
    exact ⟨p, rfl, ht⟩
  | cons c calls ih =>
    intro p seen hp ht hquiet
    obtain ⟨hc, hcalls⟩ := List.ne_and_not_mem_of_not_mem_cons hquiet
    obtain ⟨r, hr⟩ := exists_call hp c
    obtain ⟨after, ha, hseen⟩ :=
      ih ((leaves_of_call hr).intact hp).shaped (tells_of_call hp ht hc.symm hr) hcalls
    exact ⟨after, by simp only [run, hr, ha], unmarked_cons .. ▸ hseen⟩

/-! ## §4. The answer. -/

theorem wellShaped_withSeed (seed : UInt64) : (withSeed seed).machine.WellShaped :=
  Machine.wellShaped_new _

/-- An unmarked screen that tells of pixels shows them. -/
theorem pixels_of_takeChanged {seen : Array UInt8} (ht : p.machine.framebuffer.Tells seen)
    (h : p.takeChanged.1 = false) : p.pixels = seen := by
  rcases ht with hmarked | hseen
  · cases hmarked.symm.trans h
  · exact hseen

/-- What the answer "not written to" is worth.  Whatever calls a page was given since the question before,
    its screen shows what it showed then, or nothing at all if the machine started over in between; and if
    there was no question before, the screen shows nothing, as it did in the beginning. -/
theorem takeChanged_sound (seed : UInt64) :
    (∀ calls, .takeChanged ∉ calls → ∃ after, (withSeed seed).run calls = .ok after ∧
      (after.takeChanged.1 = false → after.pixels = Framebuffer.blank.pixels)) ∧
    ∀ before between, .takeChanged ∉ between →
      ∃ asked after, (withSeed seed).run before = .ok asked ∧
        asked.takeChanged.2.run between = .ok after ∧
        (after.takeChanged.1 = false → after.pixels = unmarked asked.pixels between) := by
  have hnew := wellShaped_withSeed seed
  constructor
  · intro calls hquiet
    obtain ⟨after, ha, ht⟩ := exists_run_tells calls hnew (Framebuffer.tells_self _) hquiet
    refine ⟨after, ha, ?_⟩
    intro h
    -- The screen was dark in the beginning, and it is as dark behind a restart.
    rw [pixels_of_takeChanged ht h]
    exact ite_self _
  · intro before between hquiet
    obtain ⟨asked, hasked, hshaped⟩ := exists_run before hnew
    have hshaped' : asked.takeChanged.2.machine.WellShaped :=
      hshaped.of_parts rfl hshaped.regular hshaped.depth_le
    obtain ⟨after, ha, ht⟩ := exists_run_tells between hshaped' (Framebuffer.tells_self _) hquiet
    exact ⟨asked, after, hasked, ha, pixels_of_takeChanged ht⟩

/-- A sprite is drawn and seen, and behind a step that loads a register, a count of the timers and a key the
    screen still shows it. -/
theorem takeChanged_sound_drawn :
    let between : List Call := [.step, .countDown, .keyDown "q"]
    .takeChanged ∉ between ∧
      ∃ asked after, (withSeed 0).run [.loadImage [0xD0, 0x05, 0x60, 0x01], .step] = .ok asked ∧
        asked.takeChanged.2.run between = .ok after ∧ after.takeChanged.1 = false ∧
        after.pixels = asked.pixels := by
  intro between
  have hquiet : .takeChanged ∉ between := by decide
  have hrun : ((withSeed 0).run [.loadImage [0xD0, 0x05, 0x60, 0x01], .step]).bind (fun asked =>
      (asked.takeChanged.2.run between).map fun after => after.takeChanged.1) = .ok false := by
    decide +kernel
  obtain ⟨asked, after, hasked, ha, h⟩ :=
    (takeChanged_sound 0).2 [.loadImage [0xD0, 0x05, 0x60, 0x01], .step] between hquiet
  simp only [hasked, ha, Except.bind, Except.map, Except.ok.injEq] at hrun
  have hsame : unmarked asked.pixels between = asked.pixels := if_neg (by decide +kernel)
  exact ⟨hquiet, asked, after, hasked, ha, hrun, (h hrun).trans hsame⟩

/-! ## §5. What goes unnoticed. -/

/-- A reset of a page whose screen shows anything goes unnoticed: the screen is another, and the answer is
    that it was not written to. -/
theorem stale_of_reset (hp : p.machine.WellShaped) (lit : p.pixels ≠ Framebuffer.blank.pixels) :
    ∃ after, p.takeChanged.2.run [.reset] = .ok after ∧ after.takeChanged.1 = false ∧
      after.pixels ≠ p.pixels := by
  have hreset : p.takeChanged.2.machine.reset = .ok (.new p.machine.config) :=
    Machine.reset_eq_new hp.size_memory
  refine ⟨{ machine := .new p.machine.config }, ?_, rfl, lit.symm⟩
  simp only [run, call, reset, hreset, Except.map]

/-- The answer "not written to" does not say that the screen is as it was: a page draws a digit, is asked,
    is reset and is asked again. -/
theorem takeChanged_stale :
    ∃ asked after, (withSeed 0).run [.loadImage [0xD0, 0x05], .step] = .ok asked ∧
      asked.takeChanged.2.run [.reset] = .ok after ∧ after.takeChanged.1 = false ∧
      after.pixels ≠ asked.pixels := by
  obtain ⟨asked, hasked, hshaped⟩ :=
    exists_run [.loadImage [0xD0, 0x05], .step] (wellShaped_withSeed 0)
  have hrun : ((withSeed 0).run [.loadImage [0xD0, 0x05], .step]).map (·.pixels[0]?) =
      .ok (some 1) := by
    decide +kernel
  simp only [hasked, Except.map, Except.ok.injEq] at hrun
  obtain ⟨after, ha, hsilent, hother⟩ := stale_of_reset hshaped (by
    intro h
    rw [h] at hrun
    exact absurd hrun (by decide +kernel))
  exact ⟨asked, after, hasked, ha, hsilent, hother⟩

end Page

end Chip8
