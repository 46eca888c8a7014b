/-
  Chip8.Proofs.Reaching — the machines that a host gets to by requests.

  A run begins with a fresh machine, with or without an image, and goes on with requests.  Which requests
  a statement speaks of is part of it: `Reachable` takes the condition on them as a parameter.  A property
  of all such machines is proved once for each thing that can happen, and `Reachable.preserves` puts the
  parts together: a tick is steps and a count of the timers, a reset is a fresh machine.

  Main statement: `Reachable.preserves`.
-/
import Chip8.Proofs.Serving

namespace Chip8

/-- Says whether a request makes the machine start over. -/
def Request.startsOver : Request → Bool
  | .reset | .reload _ => true
  | _ => false

namespace Machine

/-! ## §1. Runs. -/

/-- The machines that a host gets to by requests of the kind that is allowed. -/
inductive Reachable (allowed : Request → Prop) : Machine → Prop where
  | fresh (config : Config) : Reachable allowed (new config)
  | made {config : Config} {image : List UInt8} {m : Machine} (made : ofImage config image = .ok m) :
    Reachable allowed m
  | served {m : Machine} {r : Request} {s : Served} (before : Reachable allowed m) (may : allowed r)
    (served : m.serve r = .ok s) : Reachable allowed s.machine

variable {allowed : Request → Prop} {m : Machine}

theorem Reachable.stepped (h : Reachable allowed m) (may : allowed .step) {s : Stepped}
    (hs : m.step = .ok s) : Reachable allowed s.machine := by
  have hserve : m.serve .step = .ok ⟨.outcome s.outcome, s.events, s.machine⟩ := by
    rw [serve, hs]
    rfl
  exact .served h may hserve

/-- Whatever a request to a well-shaped machine gives, it came to no harm. -/
theorem intact_of_serve (hm : m.WellShaped) {r : Request} {s : Served} (h : m.serve r = .ok s) :
    m.Intact s.machine := by
  obtain ⟨s', h', hi⟩ := exists_serve hm r
  rw [h, Except.ok.injEq] at h'
  rwa [h']

/-- A machine that is made with an image is the fresh one with the image in it. -/
theorem eq_of_ofImage {config : Config} {image : List UInt8} (h : ofImage config image = .ok m) :
    m = (new config).withImage image := by
  rcases ofImage_cases config image with h' | h'
  · rw [h, Except.ok.injEq] at h'
    exact h'
  · rw [h] at h'
    cases h'

/-- Every machine of a run is well-shaped. -/
theorem Reachable.wellShaped (h : Reachable allowed m) : m.WellShaped := by
  induction h with
  | fresh config => exact wellShaped_new config
  | @made config image m made =>
    rw [eq_of_ofImage made]
    exact (wellShaped_new config).withImage image
  | served before may served ih => exact (intact_of_serve ih served).shaped

/-! ## §2. Properties of all machines of a run. -/

/-- What a request preserves, if all that can happen preserves it.  A request to start over preserves
    what the machines have that it leaves, whatever was before it. -/
theorem serve_preserves {P : Machine → Prop}
    (hstep : ∀ m s, WellShaped m → P m → step m = .ok s → P s.machine)
    (hcount : ∀ m, P m → P (countDown m))
    (hkey : ∀ m key held, P m → P (setKey m key held))
    {r : Request} (hload : ∀ image, r = .load image → P (m.withImage image))
    (hnew : r.startsOver = true → P (new m.config))
    (himage : ∀ image, r = .reload image → P ((new m.config).withImage image))
    (hm : m.WellShaped) (hp : r.startsOver = false → P m) {s : Served} (h : m.serve r = .ok s) :
    P s.machine := by
  cases r with
  | step =>
    obtain ⟨t, ht, _⟩ := exists_step hm
    simp only [serve, ht, Except.map, Except.ok.injEq] at h
    rw [← h]
    exact hstep m t hm (hp rfl) ht
  | tick =>
    obtain ⟨t, ht, _⟩ := exists_tick hm
    simp only [serve, ht, Except.map, Except.ok.injEq] at h
    rw [← h]
    -- The steps of a tick need the shape as well, so it is carried along.
    refine (tick_preserves (P := fun a => a.WellShaped ∧ P a) ?_ ?_ ⟨hm, hp rfl⟩ ht).2
    · intro a s h hs
      exact ⟨h.1.step hs, hstep a s h.1 h.2 hs⟩
    · intro a h
      exact ⟨h.1.of_parts rfl h.1.regular h.1.depth_le, hcount a h.2⟩
  | countDown =>
    cases h
    exact hcount m (hp rfl)
  | setKey key held =>
    cases h
    exact hkey m key held (hp rfl)
  | load image =>
    rcases Nat.lt_or_ge Memory.maxImageSize image.length with hlt | hle
    · simp only [serve, load_of_lt hlt, Except.ok.injEq] at h
      rw [← h]
      exact hp rfl
    · simp only [serve, load_of_le hm.size_memory hle, Except.ok.injEq] at h
      rw [← h]
      exact hload image rfl
  | reset =>
    simp only [serve, reset_eq_new hm.size_memory, Except.map, Except.ok.injEq] at h
    rw [← h]
    exact hnew rfl
  | reload image =>
    rcases Nat.lt_or_ge Memory.maxImageSize image.length with hlt | hle
    · simp only [serve, reload_of_lt hm.size_memory hlt, Except.map, Except.ok.injEq] at h
      rw [← h]
      exact hnew rfl
    · simp only [serve, reload_of_le hm.size_memory hle, Except.map, Except.ok.injEq] at h
      rw [← h]
      exact himage image rfl

/-- Every machine of a run has a property that fresh machines have and that all that can happen
    preserves. -/
theorem Reachable.preserves {P : Machine → Prop} (hnew : ∀ config, P (new config))
    (himage : ∀ config image, P ((new config).withImage image))
    (hstep : ∀ m s, WellShaped m → P m → step m = .ok s → P s.machine)
    (hcount : ∀ m, P m → P (countDown m))
    (hkey : ∀ m key held, P m → P (setKey m key held))
    (hload : ∀ m image, allowed (.load image) → WellShaped m → P m → P (withImage m image))
    (h : Reachable allowed m) : P m := by
  -- One step further in the run, the shape comes from the run and the property from the induction.
  induction h with
  | fresh config => exact hnew config
  | @made config image m made =>
    rw [eq_of_ofImage made]
    exact himage config image
  | @served m r s before may served ih =>
    have hm := before.wellShaped
    refine serve_preserves hstep hcount hkey ?_ (fun _ => hnew _) (fun _ _ => himage _ _) hm
      (fun _ => ih) served
    intro image hr
    exact hload m image (hr ▸ may) hm ih

end Machine

end Chip8
