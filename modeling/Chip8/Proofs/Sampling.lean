/-
  Chip8.Proofs.Sampling — every random byte of a run has its place in the sequence of the seed.

  A source hands out bytes in order and keeps its place, block by block; the sequence of a seed names each
  byte by its number.  In a run the two are tied together by a count: the instructions that drew a byte
  since the machine started over.  Such an instruction gets the byte of that number, and nothing else that
  happens to a machine, whether a step, a tick, a key or an image, touches the source, except that a
  restart takes it back to the beginning.

  Main statements: `random_of_step` (what a step does to the source), `Linked.follows` (the place of the
  source behind deeds) and `random_accounted` (the bytes of a run).
-/
import Chip8.Proofs.Footprint
import Chip8.Proofs.Recalling
import Chip8.Proofs.Unrolling

namespace Chip8

/-! ## §1. Counting. -/

namespace Deed

/-- Says whether the deed is a step that drew a random byte. -/
def draws (d : Deed) : Bool :=
  match d.outcome? with
  | some (.retired (.random _ _)) => true
  | _ => false

theorem draws_eq_true_iff {d : Deed} :
    d.draws = true ↔ ∃ x nn, d.outcome? = some (.retired (.random x nn)) := by
  unfold draws
  split
  · rename_i x nn ho
    exact ⟨fun _ => ⟨x, nn, ho⟩, fun _ => rfl⟩
  · rename_i hno
    constructor
    · intro h
      cases h
    · rintro ⟨x, nn, ho⟩
      exact absurd ho (hno x nn)

end Deed

/-- The number of random bytes that deeds drew since the machine last started over. -/
def drawn (ds : List Deed) : Nat := (ds.rtakeWhile fun d => !d.request.startsOver).countP Deed.draws

/-- One more deed starts the count anew, adds one to it or leaves it. -/
theorem drawn_concat (ds : List Deed) (d : Deed) :
    drawn (ds ++ [d]) =
      if d.request.startsOver then 0 else drawn ds + if d.draws then 1 else 0 :=
  countSince_concat ..

theorem Instruction.random_mem_writes_iff {i : Instruction} :
    .random ∈ i.writes ↔ ∃ x nn, i = .random x nn := by
  cases i <;> simp [Instruction.writes]

namespace Machine

variable {m : Machine}

/-! ## §2. Steps. -/

/-- A step that retires a drawing instruction takes the next byte of the source, masks it and puts it into
    the register; any other step leaves the source alone. -/
theorem random_of_step {s : Stepped} (h : m.StepsTo s) :
    (∀ x nn, s.outcome = .retired (.random x nn) →
      s.machine.random = m.random.next.2 ∧ s.machine.v x = m.random.next.1 &&& nn) ∧
    ((∀ x nn, s.outcome ≠ .retired (.random x nn)) → s.machine.random = m.random) := by
  constructor
  · intro x nn ho
    cases h with
    | stopped cause status => cases ho
    | unfetched live outside => cases ho
    | refused live w d cause fetches demand refusal => cases ho
    | completed live w flow after fetches granted performs shaped kept =>
      rw [outcome_settle] at ho
      rw [eq_of_settledOutcome ho] at performs
      obtain ⟨rfl, -⟩ := done_inj performs
      rw [machine_settle]
      refine ⟨rfl, ?_⟩
      show (m.registers.set x (m.random.next.1 &&& nn)).get x = _
      rw [Registers.get_set, if_pos rfl]
  · intro hno
    rcases same_of_step h with hsame | ⟨w, flow, _, _, ho, hsame⟩
    · exact hsame .random
    · refine hsame .random ?_
      intro hmem
      obtain ⟨x, nn, hi⟩ := Instruction.random_mem_writes_iff.mp hmem
      rw [hi] at ho
      exact hno x nn ho

/-- A word that draws is carried out by any machine that is not stopped. -/
theorem outcome_of_random {s : Stepped} (h : m.StepsTo s) (live : m.status.stoppedBy = none) {w : Word}
    (hf : m.Fetches w) {x : Register} {nn : UInt8} (hw : Instruction.decode w = .random x nn) :
    s.outcome = .retired (.random x nn) := by
  have hd : w.demand? = none := by
    rw [← demand?_decode, hw]
    rfl
  obtain ⟨flow, ho⟩ := h.exists_flow live hf hd
  rw [ho, hw]
  rfl

/-! ## §3. Deeds. -/

/-- A deed that drew moved the source on by one byte and put that byte, masked, into the register. -/
theorem draw_of_serve (hm : m.WellShaped) {r : Request} (single : r ≠ .tick) {s : Served}
    (serves : m.serve r = .ok s) {x : Register} {nn : UInt8}
    (ho : (Deed.mk m r s).outcome? = some (.retired (.random x nn))) :
    s.machine.random = m.random.next.2 ∧ s.machine.v x = m.random.next.1 &&& nn := by
  cases gives_of_serve hm single serves with
  | stepped step => exact (random_of_step (stepsTo_of_step hm step)).1 x nn (Option.some.inj ho)
  | _ => cases ho

/-- A deed that neither drew nor started over left the source alone. -/
theorem random_of_serve (hm : m.WellShaped) {r : Request} (single : r ≠ .tick) {s : Served}
    (serves : m.serve r = .ok s) (hd : (Deed.mk m r s).draws = false)
    (hgoes : r.startsOver = false) : s.machine.random = m.random := by
  cases gives_of_serve hm single serves with
  | @stepped t step =>
    refine (random_of_step (stepsTo_of_step hm step)).2 ?_
    intro x nn ho
    have ho' : (m.stepDeed t).outcome? = some (.retired (.random x nn)) := congrArg some ho
    have hdraws : (m.stepDeed t).draws = true := Deed.draws_eq_true_iff.mpr ⟨x, nn, ho'⟩
    exact absurd (hdraws.symm.trans hd) nofun
  | countedDown | keySet key held | loaded fits | unloaded large => rfl
  | reset | reloaded fits | unreloaded large => cases hgoes

/-- A request to start over takes the source back to the beginning. -/
theorem random_of_startsOver (hm : m.WellShaped) {r : Request} (hr : r.startsOver = true) {s : Served}
    (serves : m.serve r = .ok s) : s.machine.random = Random.Source.ofSeed m.config.seed := by
  have single : r ≠ .tick := by
    intro h
    rw [h] at hr
    cases hr
  cases gives_of_serve hm single serves with
  | reset | reloaded fits | unreloaded large => rfl
  | _ => cases hr

/-- A deed moves the source on by the byte that it draws, takes it back to the beginning or leaves it. -/
theorem follows_of_serve (hm : m.WellShaped) {r : Request} (single : r ≠ .tick) {s : Served}
    (serves : m.serve r = .ok s) {k : Nat} (hf : m.random.Follows m.config.seed k) :
    s.machine.random.Follows m.config.seed
      (if r.startsOver then 0 else k + if (Deed.mk m r s).draws then 1 else 0) := by
  by_cases hover : r.startsOver
  · rw [if_pos hover, random_of_startsOver hm hover serves]
    exact Random.Source.follows_ofSeed _
  · rw [if_neg hover]
    by_cases hd : (Deed.mk m r s).draws
    · obtain ⟨x, nn, ho⟩ := Deed.draws_eq_true_iff.mp hd
      rw [if_pos hd, (draw_of_serve hm single serves ho).1]
      exact hf.next.2
    · have hdraws : (Deed.mk m r s).draws = false := Bool.eq_false_iff.mpr hd
      rw [if_neg hd, random_of_serve hm single serves hdraws (Bool.eq_false_iff.mpr hover)]
      exact hf

/-- Behind deeds on a machine with a fresh source, the source stands at the byte whose number is the count
    of those drawn since the machine last started over. -/
theorem Linked.follows {ds : List Deed} (hm : m.WellShaped) (fresh : m.random.Follows m.config.seed 0) :
    m.Linked ds → (m.past ds).random.Follows m.config.seed (drawn ds) := by
  induction ds using List.reverseRecOn with
  | nil => exact fun _ => fresh
  | append_singleton ds d ih =>
    intro hl
    obtain ⟨hds, hd⟩ := hl.of_append
    have hi := hds.intact hm
    have hf := ih hds
    rw [past_append, drawn_concat, ← hi.config]
    rw [← hi.config] at hf
    generalize m.past ds = now at hd hi hf
    cases hd with
    | cons single serves rest => exact follows_of_serve hi.shaped single serves hf

/-! ## §4. Runs. -/

/-- The random bytes of a run are accounted for.  From a fresh machine, with or without an image, which is
    as good as an image that the first request loads, let any requests be served.  Of the deeds that they
    come to, those inside ticks included, look at any.  The source in front of it stands at the place in the
    sequence of the host's seed that is counted by the draws since the machine last started over; if the
    deed is a step at a word that draws, on a machine that is not stopped, the instruction retires; if it
    retires, its register holds the byte at that place, masked; and if it draws nothing and starts nothing
    over, it leaves the source as it is. -/
theorem random_accounted (config : Config) (rs : List Request) :
    ∃ served ds, (new config).Runs rs served ds ∧
      ∀ earlier d later, ds = earlier ++ d :: later →
        d.before.random.Follows config.seed (drawn earlier) ∧
        (∀ w x nn, d.request = .step → d.before.status.stoppedBy = none → d.before.Fetches w →
          Instruction.decode w = .random x nn → d.outcome? = some (.retired (.random x nn))) ∧
        (∀ x nn, d.outcome? = some (.retired (.random x nn)) →
          d.served.machine.v x = Random.byte config.seed (drawn earlier) &&& nn) ∧
        (d.draws = false → d.request.startsOver = false →
          d.served.machine.random = d.before.random) := by
  have hn := wellShaped_new config
  obtain ⟨served, ds, hruns⟩ := exists_runs rs hn
  refine ⟨served, ds, hruns, ?_⟩
  intro earlier d later hparts
  have hl := hruns.linked
  rw [hparts] at hl
  obtain ⟨hearlier, hrest⟩ := hl.of_append
  have hm := (hearlier.intact hn).shaped
  have hfollows := hearlier.follows hn (Random.Source.follows_ofSeed config.seed)
  generalize (new config).past earlier = now at hrest hm hfollows
  cases hrest with
  | @cons _ r s _ single serves rest =>
    refine ⟨hfollows, ?_, ?_, random_of_serve hm single serves⟩
    · intro w x nn hr live hf hw
      have hr' : r = .step := hr
      subst hr'
      cases gives_of_serve hm single serves with
      | stepped step => exact congrArg some (outcome_of_random (stepsTo_of_step hm step) live hf hw)
    · intro x nn ho
      have hbyte : now.random.next.1 = Random.byte config.seed (drawn earlier) := hfollows.next.1
      rw [← hbyte]
      exact (draw_of_serve hm single serves ho).2

/-- A program draws, passes over a word and draws again, the last two inside a tick; behind that a reload
    takes the source back, so that its first byte is drawn once more. -/
theorem random_accounted_replayed :
    let image : List UInt8 := [0xC1, 0xFF, 0x80, 0x08, 0xC2, 0x0F]
    let rs : List Request := [.load image, .step, .tick, .reload image, .step]
    ∃ served ds, (new .standard).Runs rs served ds ∧
      (∃ earlier d later, ds = earlier ++ d :: later ∧
        d.outcome? = some (.retired (.random 2 0x0F)) ∧
        d.served.machine.v 2 = Random.byte Config.defaultSeed 1 &&& 0x0F) ∧
      ∃ earlier d later, ds = earlier ++ d :: later ∧
        d.outcome? = some (.retired (.random 1 0xFF)) ∧
        d.served.machine.v 1 = Random.byte Config.defaultSeed 0 &&& 0xFF := by
  intro image rs
  obtain ⟨served, ds, hruns, haccount⟩ := random_accounted .standard rs
  have hrun : ((new .standard).deedsAll rs).map (fun ds =>
      (ds[3]?.bind Deed.outcome?, drawn (ds.take 3), ds[14]?.bind Deed.outcome?,
        drawn (ds.take 14))) =
      .ok (some (.retired (.random 2 0x0F)), 1, some (.retired (.random 1 0xFF)), 0) := by
    decide +kernel
  simp only [hruns.deeds, Except.map, Except.ok.injEq, Prod.mk.injEq] at hrun
  obtain ⟨hsecond, hone, hagain, hnone⟩ := hrun
  -- The deed of a certain number parts the run in two.
  have hparts : ∀ {k : Nat} {o : Outcome}, ds[k]?.bind Deed.outcome? = some o →
      ∃ d, ds = ds.take k ++ d :: ds.drop (k + 1) ∧ d.outcome? = some o := by
    intro k o ho
    obtain ⟨d, hd, hdo⟩ := Option.bind_eq_some_iff.mp ho
    obtain ⟨hk, rfl⟩ := List.getElem?_eq_some_iff.mp hd
    refine ⟨ds[k], ?_, hdo⟩
    rw [← List.drop_eq_getElem_cons hk, List.take_append_drop]
  obtain ⟨d, hd, ho⟩ := hparts hsecond
  obtain ⟨d', hd', ho'⟩ := hparts hagain
  obtain ⟨_, _, hv, _⟩ := haccount _ _ _ hd
  obtain ⟨_, _, hv', _⟩ := haccount _ _ _ hd'
  have hbyte := hv 2 0x0F ho
  have hbyte' := hv' 1 0xFF ho'
  rw [hone] at hbyte
  rw [hnone] at hbyte'
  exact ⟨served, ds, hruns, ⟨_, d, _, hd, ho, hbyte⟩, _, d', _, hd', ho', hbyte'⟩

end Machine

end Chip8
