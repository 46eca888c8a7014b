/-
  Chip8.Proofs.Timing — where the timers stand.

  A timer stands where it was set last, less the ticks since then.  That is a statement about a whole
  history, in which steps, those inside ticks included, stand among counts, keys, images and restarts; a
  restart takes the timers back to zero.  It holds since each single thing that happens does to a timer what
  it does to that difference: it starts over, it sets the timer, it counts down or it does nothing.

  Main statements: `timer_of_step` (what a step does to a timer), `timer_of_serve` (what a request other
  than a tick does), `Linked.timer` (where a timer stands behind deeds) and `timers_accounted` (runs).
-/
import Chip8.Proofs.Recalling
import Chip8.Proofs.Stopping
import Chip8.Proofs.Surroundings
import Chip8.Proofs.Unrolling

namespace Chip8

/-! ## §1. One timer of two. -/

/-- Names one of the timers. -/
inductive Timer where
  | delay
  | sound
  deriving Repr, DecidableEq

/-- Where a timer stands. -/
def Timers.get (t : Timers) : Timer → UInt8
  | .delay => t.delay
  | .sound => t.sound

@[simp] theorem Timers.get_zero (timer : Timer) : Timers.zero.get timer = 0 := by
  cases timer <;> rfl

@[simp] theorem Timers.get_tick (t : Timers) (timer : Timer) :
    t.tick.get timer = Timers.countDown (t.get timer) := by
  cases timer <;> rfl

/-- The register that an instruction sets a timer from, if it sets it. -/
def Instruction.sets? : Timer → Instruction → Option Register
  | .delay, .setDelay x | .sound, .setSound x => some x
  | _, _ => none

/-- What a deed sets a timer to, if it is a step at an instruction that sets it. -/
def Deed.sets? (timer : Timer) (d : Deed) : Option UInt8 :=
  (d.instruction?.bind (Instruction.sets? timer)).map d.before.v

/-! ## §2. Histories. -/

/-- What a timer was set to last since the machine last started over, or zero if it was not set. -/
def lastSet (timer : Timer) (ds : List Deed) : UInt8 :=
  (latest (·.request.startsOver) (Deed.sets? timer) ds).getD 0

/-- The ticks since a timer was set last or the machine started over. -/
def ticksSince (timer : Timer) (ds : List Deed) : Nat :=
  countSince (fun d => d.request.startsOver || (d.sets? timer).isSome) (·.request.countsDown) ds

theorem lastSet_concat (timer : Timer) (ds : List Deed) (d : Deed) :
    lastSet timer (ds ++ [d]) =
      if d.request.startsOver then 0 else (d.sets? timer).getD (lastSet timer ds) := by
  rw [lastSet, latest_concat]
  cases d.request.startsOver with
  | true => rfl
  | false => cases d.sets? timer <;> rfl

theorem ticksSince_concat (timer : Timer) (ds : List Deed) (d : Deed) :
    ticksSince timer (ds ++ [d]) =
      if d.request.startsOver || (d.sets? timer).isSome then 0
      else ticksSince timer ds + if d.request.countsDown then 1 else 0 :=
  countSince_concat ..

/-- Says of single requests that a request comes to them: a tick to steps and then a count of the timers,
    any other to itself. -/
inductive Request.ComesTo : Request → List Request → Prop where
  | tick (steps : Nat) : ComesTo .tick (List.replicate steps .step ++ [.countDown])
  | single {r : Request} (single : r ≠ .tick) : ComesTo r [r]

namespace Machine

variable {m : Machine}

/-! ## §3. Steps and other requests. -/

/-- A step sets a timer to what its instruction sets it to, and leaves it otherwise. -/
theorem timer_of_step {s : Stepped} (h : m.step = .ok s) (timer : Timer) :
    s.machine.timers.get timer = ((m.stepDeed s).sets? timer).getD (m.timers.get timer) := by
  have ht : s.machine.timers = (m.stepSurroundings m.surroundings).timers :=
    congrArg Surroundings.timers (surroundings_of_step h)
  have hi : (m.stepDeed s).instruction? = m.current? := rfl
  rw [ht, Deed.sets?, hi, stepSurroundings]
  rcases m.current? with _ | i
  · rfl
  · cases timer <;> cases i <;> rfl

/-- Where a timer stands behind a request other than a tick. -/
theorem timer_of_serve (hm : m.WellShaped) {r : Request} (single : r ≠ .tick) {s : Served}
    (h : m.serve r = .ok s) (timer : Timer) :
    s.machine.timers.get timer =
      if r.startsOver then 0
      else ((Deed.mk m r s).sets? timer).getD
        (if r.countsDown then Timers.countDown (m.timers.get timer) else m.timers.get timer) := by
  cases gives_of_serve hm single h with
  | stepped step => exact timer_of_step step timer
  | countedDown => exact Timers.get_tick ..
  | keySet key held | loaded fits | unloaded large => rfl
  | reset | reloaded fits | unreloaded large => exact Timers.get_zero timer

/-! ## §4. Runs. -/

/-- Behind deeds on a machine with its timers at zero, a timer stands where it was set last, less the ticks
    since then. -/
theorem Linked.timer {ds : List Deed} (hm : m.WellShaped) (zero : m.timers = .zero) (timer : Timer) :
    m.Linked ds →
      ((m.past ds).timers.get timer).toNat = (lastSet timer ds).toNat - ticksSince timer ds := by
  induction ds using List.reverseRecOn with
  | nil =>
    intro _
    show (m.timers.get timer).toNat = 0
    rw [zero, Timers.get_zero]
    rfl
  | append_singleton ds d ih =>
    intro hl
    obtain ⟨hds, hd⟩ := hl.of_append
    have hnow := (hds.intact hm).shaped
    have hstands := ih hds
    rw [past_append, lastSet_concat, ticksSince_concat]
    generalize m.past ds = now at hd hnow hstands
    cases hd with
    | @cons _ r s _ single serves rest =>
      have ht := timer_of_serve hnow single serves timer
      show (s.machine.timers.get timer).toNat = _
      rw [ht]
      cases r.startsOver with
      | true => rfl
      | false =>
        rcases (Deed.mk now r s).sets? timer with _ | value
        · cases r.countsDown with
          | true =>
            show (Timers.countDown _).toNat = (lastSet timer ds).toNat - (_ + 1)
            rw [Timers.toNat_countDown, hstands]
            omega
          | false => exact hstands
        · rfl

/-- The deeds of a tick are steps and then a count of the timers; any other request is its own deed. -/
theorem comesTo_of_deeds {r : Request} {ds : List Deed} (h : m.deeds r = .ok ds) :
    r.ComesTo (ds.map Deed.request) := by
  by_cases hr : r = .tick
  · subst hr
    obtain ⟨steps, hsteps, rfl⟩ := exists_of_map_eq_ok h
    have hrequests : steps.map Deed.request = List.replicate steps.length .step := by
      rw [List.eq_replicate_iff]
      refine ⟨List.length_map .., ?_⟩
      intro r hr
      obtain ⟨d, hd, rfl⟩ := List.mem_map.mp hr
      exact request_of_mem_burstDeeds hsteps d hd
    rw [List.map_append, hrequests]
    exact .tick steps.length
  · rw [deeds_single hr] at h
    obtain ⟨s, _, rfl⟩ := exists_of_map_eq_ok h
    exact .single hr

theorem exists_comesTo_of_deedsAll (rs : List Request) :
    ∀ {m : Machine} {ds : List Deed}, m.deedsAll rs = .ok ds →
      ∃ parts, List.Forall₂ Request.ComesTo rs parts ∧ ds.map Deed.request = parts.flatten := by
  induction rs with
  | nil =>
    intro m ds h
    cases h
    exact ⟨[], .nil, rfl⟩
  | cons r rs ih =>
    intro m ds h
    rw [deedsAll] at h
    split at h
    · cases h
    · rename_i first hfirst
      obtain ⟨rest, hrest, rfl⟩ := exists_of_map_eq_ok h
      obtain ⟨parts, hparts, hflat⟩ := ih hrest
      refine ⟨first.map Deed.request :: parts, .cons (comesTo_of_deeds hfirst) hparts, ?_⟩
      rw [List.map_append, hflat, List.flatten_cons]

/-- The sound is on while the sound timer is above zero. -/
theorem soundOn_iff : m.soundOn = true ↔ 0 < (m.timers.get .sound).toNat :=
  decide_eq_true_iff.trans UInt8.lt_iff_toNat_lt

/-- The timers are accounted for.  From a fresh machine, with or without an image, which is as good as an
    image that the first request loads, let any requests be served.  A tick comes to steps, however many,
    and then one count of the timers, any other request to itself.  Behind any number of these, each timer
    stands where the instruction that sets it has set it last since the machine last started over, at zero
    if there was none, less the counts since then, not below zero; and the sound is on just if this is above
    zero for the sound timer. -/
theorem timers_accounted (config : Config) (rs : List Request) :
    ∃ served ds parts, (new config).Runs rs served ds ∧
      List.Forall₂ Request.ComesTo rs parts ∧ ds.map Deed.request = parts.flatten ∧
      ∀ n, (∀ timer, (((new config).past (ds.take n)).timers.get timer).toNat =
          (lastSet timer (ds.take n)).toNat - ticksSince timer (ds.take n)) ∧
        (((new config).past (ds.take n)).soundOn = true ↔
          ticksSince .sound (ds.take n) < (lastSet .sound (ds.take n)).toNat) := by
  have hn := wellShaped_new config
  obtain ⟨served, ds, hruns⟩ := exists_runs rs hn
  obtain ⟨parts, hparts, hflat⟩ := exists_comesTo_of_deedsAll rs hruns.deeds
  refine ⟨served, ds, parts, hruns, hparts, hflat, ?_⟩
  intro n
  have hstands : ∀ timer, (((new config).past (ds.take n)).timers.get timer).toNat =
      (lastSet timer (ds.take n)).toNat - ticksSince timer (ds.take n) :=
    fun timer => (hruns.linked.take n).timer hn rfl timer
  refine ⟨hstands, ?_⟩
  rw [soundOn_iff, hstands]
  exact Nat.sub_pos_iff_lt

/-- A program sets the delay timer in the first of two ticks and faults in it; the counts of both come
    behind that, and so does a count in between. -/
example : ((new .standard).deedsAll
      [.load [0x63, 0x09, 0xF3, 0x15, 0x00, 0xEE], .countDown, .tick, .countDown, .tick]).map
        (fun ds => (lastSet .delay ds, ticksSince .delay ds, lastSet .sound ds)) = .ok (9, 3, 0) := by
  decide +kernel

end Machine

end Chip8
