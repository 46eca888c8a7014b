/-
  Chip8.Proofs.Restarting — a machine that starts over is a new one.

  A reset clears every part of a machine in a way of its own, and some parts show nothing until much
  later: a slot of the call stack that is not in use, a place in the random sequence, a byte that a program
  wrote over itself.  None is forgotten, so the machine is the one that the factory makes with the same
  choices of the host; and since requests keep those choices, what happened before a restart, at whatever
  point of a run, has no influence on what comes after.

  Main statements: `serve_of_restart?` (a restart gives what it gives on a new machine) and
  `restart_forgets` (runs with a restart in them).
-/
import Chip8.Proofs.Reaching

namespace Chip8

/-- What a request to start over gives on a machine with certain choices of the host, in terms of
    machines that are made and not reset. -/
def Request.restart? (config : Config) : Request → Option Served
  | .reset => some ⟨.silence, [], Machine.new config⟩
  | .reload image =>
    match Machine.ofImage config image with
    | .ok made => some ⟨.refusal none, [], made⟩
    | .error _ => some ⟨.refusal (some .imageTooLarge), [], Machine.new config⟩
  | _ => none

namespace Machine

variable {m : Machine}

/-! ## §1. Starting over. -/

/-- A reload gives the machine that is made with the image, if one is; if none is, it gives the new
    machine without an image, and the reason. -/
theorem reload_eq_ofImage (full : m.memory.size = Memory.capacity) (image : List UInt8) :
    m.reload image =
      match ofImage m.config image with
      | .ok made => .ok (none, made)
      | .error _ => .ok (some .imageTooLarge, new m.config) := by
  rcases Nat.lt_or_ge Memory.maxImageSize image.length with hlt | hle
  · rw [reload_of_lt full hlt, ofImage_of_lt _ hlt]
  · rw [reload_of_le full hle, ofImage_of_le _ hle]

/-- A restart gives what it gives on a new machine. -/
theorem serve_of_restart? (full : m.memory.size = Memory.capacity) {r : Request} {fresh : Served}
    (h : r.restart? m.config = some fresh) : m.serve r = .ok fresh := by
  cases r with
  | reset =>
    cases h
    rw [serve, reset_eq_new full]
    rfl
  | reload image =>
    rw [serve, reload_eq_ofImage full]
    rw [Request.restart?] at h
    split at h
    · cases h
      rfl
    · cases h
      rfl
  | _ => cases h

/-! ## §2. Requests in a row. -/

/-- Carries out requests in order and gives what each of them gives. -/
def serveAll (m : Machine) : List Request → Except Breach (List Served)
  | [] => .ok []
  | r :: rs =>
    match m.serve r with
    | .error breach => .error breach
    | .ok s => (s.machine.serveAll rs).map (s :: ·)

/-- The machine that is left when certain requests were served. -/
def behind (m : Machine) : List Served → Machine
  | [] => m
  | s :: served => s.machine.behind served

/-- Requests in a row succeed and do no harm. -/
theorem exists_serveAll (rs : List Request) :
    ∀ {m : Machine}, m.WellShaped →
      ∃ served, m.serveAll rs = .ok served ∧ m.Intact (m.behind served) := by
  induction rs with
  | nil =>
    intro m hm
    exact ⟨[], rfl, hm.intact⟩
  | cons r rs ih =>
    intro m hm
    obtain ⟨s, hs, hi⟩ := exists_serve hm r
    obtain ⟨served, hserved, hi'⟩ := ih hi.shaped
    refine ⟨s :: served, ?_, hi.trans hi'⟩
    simp only [serveAll, hs, hserved, Except.map]

/-- Requests behind others are served by the machine that is left. -/
theorem serveAll_append {rs rs' : List Request} {served' : List Served} :
    ∀ {m : Machine} {served : List Served}, m.serveAll rs = .ok served →
      (m.behind served).serveAll rs' = .ok served' →
      m.serveAll (rs ++ rs') = .ok (served ++ served') := by
  induction rs with
  | nil =>
    intro m served h h'
    cases h
    exact h'
  | cons r rs ih =>
    intro m served h h'
    rcases hs : m.serve r with breach | s
    · simp only [serveAll, hs, reduceCtorEq] at h
    · rcases hrest : s.machine.serveAll rs with breach | rest
      · simp only [serveAll, hs, hrest, Except.map, reduceCtorEq] at h
      · simp only [serveAll, hs, hrest, Except.map, Except.ok.injEq] at h
        subst h
        rw [List.cons_append, serveAll, hs]
        show (s.machine.serveAll (rs ++ rs')).map (s :: ·) = _
        rw [ih hrest h']
        rfl

/-- A restart in the middle of a run is served as on a new machine, and so is all that follows. -/
theorem exists_serveAll_restart (hm : m.WellShaped) {r : Request} {fresh : Served}
    (h : r.restart? m.config = some fresh) (before after : List Request) :
    ∃ earlier later, m.serveAll before = .ok earlier ∧
      fresh.machine.serveAll after = .ok later ∧
      m.serveAll (before ++ r :: after) = .ok (earlier ++ fresh :: later) := by
  obtain ⟨earlier, hearlier, hi⟩ := exists_serveAll before hm
  -- The requests before the restart keep the choices of the host, and nothing else matters.
  rw [← hi.config] at h
  have hserve := serve_of_restart? hi.shaped.size_memory h
  obtain ⟨later, hlater, _⟩ := exists_serveAll after (intact_of_serve hi.shaped hserve).shaped
  refine ⟨earlier, later, hearlier, hlater, serveAll_append hearlier ?_⟩
  rw [serveAll, hserve]
  show (fresh.machine.serveAll after).map (fresh :: ·) = _
  rw [hlater]
  rfl

/-! ## §3. No residue. -/

/-- A restart leaves no residue.  On a well-shaped machine, whatever happened to it, a reset gives the new
    machine of the same choices, and a reload gives the one that is made with the image, or, if none is,
    the new machine and the reason.  Operations behind a restart come to the same as on that machine; and
    so do requests behind a restart in the middle of any run, with all their answers and events. -/
theorem restart_forgets (hm : m.WellShaped) :
    m.reset = .ok (new m.config) ∧
    (∀ image made, m.reload image = .ok (none, made) ↔ ofImage m.config image = .ok made) ∧
    (∀ image, (∀ made, ofImage m.config image ≠ .ok made) →
      m.reload image = .ok (some .imageTooLarge, new m.config)) ∧
    ∀ r fresh, r.restart? m.config = some fresh →
      (∀ os : List Operation, m.operateAll (.request r :: os) = fresh.machine.operateAll os) ∧
      ∀ before after, ∃ earlier later, m.serveAll before = .ok earlier ∧
        fresh.machine.serveAll after = .ok later ∧
        m.serveAll (before ++ r :: after) = .ok (earlier ++ fresh :: later) := by
  refine ⟨reset_eq_new hm.size_memory, ?_, ?_, ?_⟩
  · intro image made
    rw [reload_eq_ofImage hm.size_memory]
    split
    · rename_i h
      rw [h, Except.ok.injEq, Except.ok.injEq, Prod.mk.injEq]
      exact ⟨And.right, fun h => ⟨rfl, h⟩⟩
    · rename_i h
      rw [h]
      simp
  · intro image hnone
    rw [reload_eq_ofImage hm.size_memory]
    split
    · rename_i made h
      exact absurd h (hnone made)
    · rfl
  · intro r fresh h
    refine ⟨?_, exists_serveAll_restart hm h⟩
    intro os
    rw [operateAll, operate, serve_of_restart? hm.size_memory h]
    rfl

/-- A stopped machine with something left over in every part of it steps, is reset and steps again. -/
theorem restart_forgets_worn :
    let worn : Machine :=
      { config := .standard
        registers := { v := Vector.replicate 16 7, i := 0x345, pc := 0x400 }
        memory := Array.replicate 4096 0xAA
        stack := { slots := Vector.replicate 16 0x222, depth := 3 }
        timers := { delay := 9, sound := 9 }
        keypad := { keys := Vector.replicate 16 true }
        framebuffer := { pixels := Array.replicate 2048 1, changed := true }
        status := .stopped .stackUnderflow
        random := (Random.Source.ofSeed 1).next.2 }
    worn.WellShaped ∧ worn.reset = .ok (new .standard) ∧
      worn.reload [0x12, 0x00] = .ok (none, (new .standard).withImage [0x12, 0x00]) ∧
      worn.reload (List.replicate 3585 0) = .ok (some .imageTooLarge, new .standard) ∧
      ∃ earlier later, worn.serveAll [.step] = .ok earlier ∧
        (new .standard).serveAll [.step] = .ok later ∧
        worn.serveAll [.step, .reset, .step] =
          .ok (earlier ++ ⟨.silence, [], new .standard⟩ :: later) := by
  intro worn
  have hworn : worn.WellShaped :=
    { size_memory := Array.size_replicate
      size_pixels := Array.size_replicate
      pixel_binary := fun p hp => .inr (Array.mem_replicate.mp hp).2
      depth_le := by decide }
  have hlarge : ofImage .standard (List.replicate 3585 0) = .error (.fault .imageTooLarge) :=
    ofImage_of_lt _ (by rw [List.length_replicate]; decide)
  have hfits : ofImage .standard [0x12, 0x00] = .ok ((new .standard).withImage [0x12, 0x00]) :=
    ofImage_of_le _ (by decide)
  obtain ⟨hreset, hreload, hrefused, hlater⟩ := restart_forgets hworn
  refine ⟨hworn, hreset, (hreload _ _).mpr hfits, hrefused _ ?_, (hlater .reset _ rfl).2 [.step] [.step]⟩
  intro made h
  cases hlarge.symm.trans h

end Machine

end Chip8
