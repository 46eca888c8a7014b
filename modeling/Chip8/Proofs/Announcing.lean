/-
  Chip8.Proofs.Announcing — what a page writes to its console.

  The lines of a page are those of the events of its machine, and the machine is not traced.  So between
  two machines with deeds in a row between them there are warnings, one for each word that was passed over,
  and then a line on the fault if the later machine is stopped and the earlier was not.  `Announces` says
  this of a stretch of deeds together with what makes it hold of longer ones: a stopped machine is silent
  and stays as it was stopped.  Announcements compose, so one is proved for a step and the rest are
  sequences, of deeds inside a frame and of visits to the page.  How each line is marked and what it says
  is written out here once more, word for word, apart from the code that writes it.

  Main statements: `Announces.trans` (stretches in a row), `announces_of_step`, `Linked.announces` (the
  steps of a frame), `faithful_of_visit` (what each visit writes) and `console_contract` (all visits).
-/
import Chip8.Proofs.Chronicling
import Chip8.Proofs.Repainting

namespace Chip8

open Console (Line linesOf)

/-! ## §1. Lines. -/

namespace Console.Line

/-- The line on a word that was passed over. -/
def skipped (pc word : UInt16) : Line :=
  { level := .warn
    text := "unknown opcode " ++ Hex.lower 4 word.toNat ++ " at " ++ Hex.lower 3 pc.toNat }

/-- The line on a fault: its number, its area and what it means, and where it happened. -/
def faulted (cause : Fault) (pc : UInt16) : Line :=
  { level := .error
    text := "fault " ++ Hex.lower 2 cause.code.toNat ++ " (" ++ cause.area.text ++ "): " ++
      cause.message ++ " at " ++ Hex.lower 3 pc.toNat }

/-- The line on an image that was loaded: its size in decimal. -/
def loaded (size : Nat) : Line :=
  { level := .log, text := "Loaded ROM (" ++ size.repr ++ " bytes)" }

end Console.Line

theorem Console.linesOf_append (events events' : List Event) :
    linesOf (events ++ events') = linesOf events ++ linesOf events' :=
  List.filterMap_append

/-- The warning on a step with a certain outcome: there is one if a word was passed over. -/
def Outcome.warning? (pc : UInt16) : Outcome → Option Line
  | .skippedUnknown word => some (.skipped pc word)
  | _ => none

/-- The warning on a deed, if it is a step and there is one. -/
def Deed.warning? (d : Deed) : Option Line := d.outcome?.bind (·.warning? d.before.registers.pc)

theorem Deed.level_of_warning? {d : Deed} {line : Line} (h : d.warning? = some line) :
    line.level = .warn := by
  obtain ⟨outcome, _, h⟩ := Option.bind_eq_some_iff.mp h
  unfold Outcome.warning? at h
  split at h
  · cases h
    rfl
  · cases h

namespace Machine

variable {m : Machine}

/-- The line on the fault between two machines: there is one if the later is stopped and the earlier was
    not. -/
def stopLines (m after : Machine) : List Line :=
  match m.status.stoppedBy, after.status.stoppedBy with
  | none, some cause => [.faulted cause after.registers.pc]
  | _, _ => []

theorem stopLines_of_live {after : Machine} (h : after.status.stoppedBy = none) :
    m.stopLines after = [] := by
  rw [stopLines, h]
  split
  · contradiction
  · rfl

theorem stopLines_of_stopped {after : Machine} {cause : Fault} (h : m.status.stoppedBy = some cause) :
    m.stopLines after = [] := by
  rw [stopLines, h]

/-- Of the earlier machine it only matters whether it was stopped. -/
theorem stopLines_congr {mid after : Machine} (h : m.status.stoppedBy = mid.status.stoppedBy) :
    m.stopLines after = mid.stopLines after := by
  rw [stopLines, h, stopLines]

theorem stopLines_stopped {after : Machine} {cause : Fault} (live : m.status.stoppedBy = none)
    (h : after.status.stoppedBy = some cause) :
    m.stopLines after = [.faulted cause after.registers.pc] := by
  rw [stopLines, live, h]

/-! ## §2. Announcements. -/

/-- Says of lines between two machines that they are warnings and then the line on the fault between
    them, if there is one; and that a stopped machine stays as it was stopped, without warnings. -/
structure Announces (m : Machine) (warnings lines : List Line) (after : Machine) : Prop where
  lines : lines = warnings ++ m.stopLines after
  absorbed : ∀ {cause}, m.status.stoppedBy = some cause →
    after.status.stoppedBy = some cause ∧ after.registers.pc = m.registers.pc ∧ warnings = []

/-- For a machine that is not stopped only the lines matter. -/
theorem announces_of_live (live : m.status.stoppedBy = none) {after : Machine} {ws ls : List Line}
    (lines : ls = ws ++ m.stopLines after) : m.Announces ws ls after where
  lines := lines
  absorbed := by
    intro cause h
    rw [live] at h
    cases h

/-- What goes on beside the steps is not announced. -/
theorem announces_nothing {after : Machine} (status : after.status = m.status)
    (pc : after.registers.pc = m.registers.pc) : m.Announces [] [] after where
  lines := by
    rcases h : m.status.stoppedBy with _ | cause
    · rw [stopLines_of_live (by rw [status, h])]
      rfl
    · rw [stopLines_of_stopped h]
      rfl
  absorbed := by
    intro cause h
    exact ⟨by rw [status, h], pc, rfl⟩

/-- Announcements in a row: the warnings of both, and then one fault at most. -/
theorem Announces.trans {mid after : Machine} {ws ws' ls ls' : List Line} (h : m.Announces ws ls mid)
    (h' : mid.Announces ws' ls' after) : m.Announces (ws ++ ws') (ls ++ ls') after := by
  rcases hm : m.status.stoppedBy with _ | cause
  · apply announces_of_live hm
    rcases hmid : mid.status.stoppedBy with _ | cause
    · rw [h.lines, h'.lines, stopLines_of_live hmid, List.append_nil,
        stopLines_congr (hm.trans hmid.symm), List.append_assoc]
    -- The fault is in the first part, so the second is silent.
    · obtain ⟨hafter, hpc, rfl⟩ := h'.absorbed hmid
      rw [h.lines, h'.lines, stopLines_stopped hm hmid, stopLines_of_stopped hmid,
        stopLines_stopped hm hafter, hpc, List.append_nil, List.append_nil, List.append_nil]
  · obtain ⟨hmid, hpc, rfl⟩ := h.absorbed hm
    obtain ⟨hafter, hpc', rfl⟩ := h'.absorbed hmid
    constructor
    · rw [h.lines, h'.lines, stopLines_of_stopped hm, stopLines_of_stopped hmid,
        stopLines_of_stopped hm]
      rfl
    · intro cause' hs
      rw [hm, Option.some.injEq] at hs
      rw [← hs]
      exact ⟨hafter, hpc'.trans hpc, rfl⟩

theorem length_stopLines_le (m after : Machine) : (m.stopLines after).length ≤ 1 := by
  unfold stopLines
  split
  · exact Nat.le_refl 1
  · exact Nat.zero_le 1

/-- Of what is announced, nothing stands behind an error. -/
theorem Announces.eq_nil {after : Machine} {ws ls : List Line} (h : m.Announces ws ls after)
    (warns : ∀ line ∈ ws, line.level = .warn) {xs ys : List Line} {line : Line}
    (hls : ls = xs ++ line :: ys) (error : line.level = .error) : ys = [] := by
  have hlast : ∀ zs, m.stopLines after = zs ++ line :: ys → ys = [] := by
    intro zs hz
    have hle := m.length_stopLines_le after
    rw [hz, List.length_append, List.length_cons] at hle
    exact List.length_eq_zero_iff.mp (by omega)
  rw [h.lines] at hls
  -- The error is the line on the fault, since the lines in front of that are warnings.
  rcases List.append_eq_append_iff.mp hls with ⟨zs, _, hz⟩ | ⟨zs, hw, hz⟩
  · exact hlast zs hz
  · cases zs with
    | nil => exact hlast [] hz.symm
    | cons z zs =>
      rw [List.cons_append, List.cons.injEq] at hz
      have hwarn := warns z (hw ▸ List.mem_append_right xs List.mem_cons_self)
      rw [← hz.1, error] at hwarn
      cases hwarn

/-! ## §3. Steps announce. -/

/-- A step that ends in a fault announces it. -/
theorem announces_of_fault (live : m.status.stoppedBy = none) {cause : Fault} {s : Stepped}
    (outcome : s.outcome = .fault cause) (events : s.events = [.faulted cause m.registers.pc])
    (status : s.machine.status = .stopped cause) (pc : s.machine.registers.pc = m.registers.pc) :
    m.Announces (s.outcome.warning? m.registers.pc).toList (linesOf s.events) s.machine := by
  apply announces_of_live live
  rw [outcome, events, stopLines_stopped live (stoppedBy_eq_some_iff.mpr status), pc]
  rfl

/-- The lines on a step that is no fault are the warning on it. -/
theorem linesOf_remarks {outcome : Outcome} (h : outcome.isFault = false) :
    linesOf (m.remarks outcome) = (outcome.warning? m.registers.pc).toList := by
  cases outcome with
  | retired i => rfl
  | skippedUnknown word => rfl
  | waiting x =>
    show linesOf m.waitEvents = []
    unfold waitEvents
    split <;> rfl
  | fault cause => cases h

/-- A step whose instruction completes announces a word that it passes over, and nothing else. -/
theorem announces_of_settled (live : m.status.stoppedBy = none) {i : Instruction} {flow : Flow}
    {s : Stepped} (outcome : s.outcome = settledOutcome i flow) (events : s.events = m.remarks s.outcome)
    (status : s.machine.status = settledStatus i flow) :
    m.Announces (s.outcome.warning? m.registers.pc).toList (linesOf s.events) s.machine := by
  have hf : s.outcome.isFault = false := by rw [outcome, isFault_settledOutcome]
  have hlive : s.machine.status.stoppedBy = none := by rw [status, stoppedBy_settledStatus]
  apply announces_of_live live
  rw [events, linesOf_remarks hf, stopLines_of_live hlive, List.append_nil]

/-- A step announces what it does, unless it is traced. -/
theorem announces_of_step (quiet : m.config.tracing = false) {s : Stepped} (h : m.step = .ok s) :
    m.Announces (s.outcome.warning? m.registers.pc).toList (linesOf s.events) s.machine := by
  have hstart : ∀ w, m.startEvents w = [] := by
    intro w
    rw [startEvents, quiet]
    rfl
  rcases step_cases h with ⟨cause, hs, rfl⟩ | ⟨live, cause, hw, rfl⟩ | ⟨live, w, hw, hd⟩
  · exact announces_nothing rfl rfl
  · exact announces_of_fault live rfl rfl rfl rfl
  · have hk := kept_perform m (Instruction.decode w)
    rcases dispatch_cases hd with ⟨flow, _, rfl⟩ | ⟨cause, _, rfl⟩
    · refine announces_of_settled live (outcome_settle ..) ?_ ?_
      · rw [events_settle, outcome_settle, hstart, List.nil_append]
      · rw [machine_settle]
    · refine announces_of_fault live rfl ?_ rfl hk.pc
      show m.startEvents w ++ _ = _
      rw [hstart, List.nil_append]

/-- Deeds in a row announce what they do, unless they are traced or start over. -/
theorem Linked.announces {ds : List Deed} (hl : m.Linked ds) :
    m.WellShaped → m.config.tracing = false → (∀ d ∈ ds, d.request.startsOver = false) →
      m.Announces (ds.filterMap Deed.warning?) (linesOf (told ds)) (m.past ds) := by
  induction hl with
  | nil m =>
    intro _ _ _
    exact announces_nothing rfl rfl
  | @cons m r s ds single serves rest ih =>
    intro hm quiet hgoes
    have hi := intact_of_serve hm serves
    have hr : r.startsOver = false := hgoes _ List.mem_cons_self
    have hrest := ih hi.shaped ((congrArg Config.tracing hi.config).trans quiet)
      fun d hmem => hgoes d (List.mem_cons_of_mem _ hmem)
    have hlines : linesOf (told (⟨m, r, s⟩ :: ds)) = linesOf s.events ++ linesOf (told ds) :=
      Console.linesOf_append s.events (told ds)
    have hwarnings : (⟨m, r, s⟩ :: ds : List Deed).filterMap Deed.warning? =
        (⟨m, r, s⟩ : Deed).warning?.toList ++ ds.filterMap Deed.warning? := by
      simp only [List.filterMap_eq_flatMap_toList, List.flatMap_cons]
    rw [hlines, hwarnings]
    refine Announces.trans ?_ hrest
    cases gives_of_serve hm single serves with
    | stepped step => exact announces_of_step quiet step
    | countedDown | keySet key held | loaded fits | unloaded large => exact announces_nothing rfl rfl
    | reset | reloaded fits | unreloaded large => cases hr

end Machine

namespace Page

/-! ## §4. Visits. -/

/-- What a page shows without being changed. -/
inductive Look where
  | soundOn
  | pc
  | width
  | height
  | pixels
  | picture
  deriving Repr, DecidableEq

/-- What is seen. -/
inductive Sight where
  | decision (yes : Bool)
  | address (address : UInt16)
  | size (size : Nat)
  | pixels (pixels : Array UInt8)
  | picture (colours : Array Colour)
  deriving Repr, DecidableEq

/-- Looks at a page. -/
def look (p : Page) : Look → Sight
  | .soundOn => .decision p.machine.soundOn
  | .pc => .address p.machine.registers.pc
  | .width => .size Framebuffer.width
  | .height => .size Framebuffer.height
  | .pixels => .pixels p.pixels
  | .picture => .picture p.machine.framebuffer.picture

/-- Whatever is done with a page. -/
inductive Visit where
  | call (call : Call)
  | look (look : Look)
  deriving Repr, DecidableEq

/-- Says whether a visit makes the machine start over. -/
def Visit.startsOver : Visit → Bool
  | .call c => c.startsOver
  | .look _ => false

/-- What comes back from a visit. -/
inductive Response where
  | answer (answer : Answer)
  | sight (sight : Sight)
  deriving Repr, DecidableEq

/-- Pays a visit.  A look writes nothing and leaves the page. -/
def visit (p : Page) : Visit → Except Breach (Reply Response)
  | .call c => (p.call c).map fun r => ⟨.answer r.answer, r.lines, r.page⟩
  | .look l => .ok ⟨.sight (p.look l), [], p⟩

/-- A visit, the page that it is paid to and what it gives. -/
structure Turn where
  before : Page
  visit : Visit
  reply : Reply Response

/-- Pays visits in order. -/
def turns (p : Page) : List Visit → Except Breach (List Turn)
  | [] => .ok []
  | v :: visits =>
    match p.visit v with
    | .error breach => .error breach
    | .ok r => (r.page.turns visits).map (⟨p, v, r⟩ :: ·)

/-- The lines that are written in turns, in order. -/
def written (turns : List Turn) : List Line := turns.flatMap (·.reply.lines)

variable {p : Page} {seed : UInt64}

/-- Calls other than to load an image write the lines of the events that their requests tell. -/
theorem lines_of_call {c : Call} (loads : ∀ image, c ≠ .loadImage image) {q : Request}
    (request : c.request? = some q) {s : Served} (serves : p.machine.serve q = .ok s)
    {r : Reply Answer} (h : p.call c = .ok r) : r.lines = linesOf s.events := by
  cases c with
  | loadImage image => exact absurd rfl (loads image)
  | step =>
    cases request
    obtain ⟨t, ht, rfl⟩ := Machine.exists_of_map_eq_ok serves
    simp only [call, step, ht, Except.map, Except.ok.injEq] at h
    rw [← h]
  | frame =>
    cases request
    obtain ⟨t, ht, rfl⟩ := Machine.exists_of_map_eq_ok serves
    simp only [call, frame, ht, Except.map, Except.ok.injEq] at h
    rw [← h]
  | reset =>
    cases request
    obtain ⟨cleared, hc, rfl⟩ := Machine.exists_of_map_eq_ok serves
    obtain ⟨after, _, rfl⟩ := Machine.exists_of_map_eq_ok h
    rfl
  | countDown | setKey key held =>
    cases request
    cases serves
    cases h
    rfl
  | keyDown name | keyUp name =>
    obtain ⟨key, _, rfl⟩ := Option.map_eq_some_iff.mp request
    cases serves
    cases h
    rfl
  | takeChanged => cases request

/-- Calls that make no request write nothing. -/
theorem lines_of_idle {c : Call} (request : c.request? = none) {r : Reply Answer}
    (h : p.call c = .ok r) : r.lines = [] := by
  cases c with
  | keyDown name | keyUp name | takeChanged =>
    cases h
    rfl
  | _ => cases request

/-! ## §5. What single visits write. -/

/-- Says of a turn that its machine did what it does on a request, and that this is what was written: the
    warnings of the deeds in order, then the line on the fault if the machine stopped. -/
structure Turn.Reports (t : Turn) (q : Request) (ds : List Deed) : Prop where
  deeds : t.before.machine.deeds q = .ok ds
  linked : t.before.machine.Linked ds
  past : t.before.machine.past ds = t.reply.page.machine
  lines : t.reply.lines =
    ds.filterMap Deed.warning? ++ t.before.machine.stopLines t.reply.page.machine

/-- Says of a turn that it writes what it should: a step and a frame what they did, an image one ordinary
    line with its size if it fits, and anything else nothing; an image that does not fit is thrown out with
    the reason, and the page is as in the beginning. -/
def Turn.Faithful (seed : UInt64) (t : Turn) : Prop :=
  match t.visit with
  | .call .step => ∃ ds, t.Reports .step ds
  | .call .frame => ∃ ds, t.Reports .tick ds
  | .call (.loadImage image) =>
    if image.length ≤ 3584 then
      t.reply.answer = .answer (.refusal none) ∧ t.reply.lines = [.loaded image.length]
    else
      t.reply =
        ⟨.answer (.refusal (some "fault 0x04 (Load): rom image larger than 3584 bytes")), [],
          withSeed seed⟩
  | _ => t.reply.lines = []

/-- A call that runs the machine without starting it over announces what the machine did. -/
theorem exists_deeds_of_call (hi : (withSeed seed).machine.Intact p.machine) {c : Call} {q : Request}
    (request : c.request? = some q) (goes : q.startsOver = false) {r : Reply Answer}
    (h : p.call c = .ok r) :
    ∃ ds, p.machine.deeds q = .ok ds ∧ p.machine.Linked ds ∧ p.machine.past ds = r.page.machine ∧
      p.machine.Announces (ds.filterMap Deed.warning?) r.lines r.page.machine := by
  have loads : ∀ image, c ≠ .loadImage image := by
    rintro image rfl
    cases request
    cases goes
  cases leaves_of_call h with
  | served request' serves machine =>
    rw [request, Option.some.injEq] at request'
    subst request'
    obtain ⟨ds, hds, hu⟩ := Machine.exists_deeds_of_serve serves
    have hann := hu.linked.announces hi.shaped (congrArg Config.tracing hi.config)
      fun d hd => (Machine.startsOver_of_mem_deeds hds hd).trans goes
    rw [hu.events, hu.machine, ← lines_of_call loads request serves h, ← machine] at hann
    exact ⟨ds, hds, hu.linked, hu.machine.trans machine.symm, hann⟩
  | idle none other same =>
    rw [none] at request
    cases request
  | asked question forgets =>
    rw [question] at request
    cases request

theorem faithful_of_visit (hi : (withSeed seed).machine.Intact p.machine) {v : Visit}
    {r : Reply Response} (h : p.visit v = .ok r) : Turn.Faithful seed ⟨p, v, r⟩ := by
  cases v with
  | look l =>
    cases h
    rfl
  | call c =>
    obtain ⟨r, hr, rfl⟩ := Machine.exists_of_map_eq_ok h
    cases c with
    | loadImage image =>
      have full := hi.shaped.size_memory
      by_cases hle : image.length ≤ 3584
      · simp only [call, loadImage, Machine.reload_of_le full hle, Except.map, Except.ok.injEq] at hr
        subst hr
        exact (if_pos hle).mpr ⟨rfl, rfl⟩
      · have hlt : Memory.maxImageSize < image.length := Nat.not_le.mp hle
        simp only [call, loadImage, Machine.reload_of_lt full hlt, Except.map, Except.ok.injEq] at hr
        subst hr
        refine (if_neg hle).mpr ?_
        rw [hi.config]
        rfl
    | step =>
      obtain ⟨ds, hds, hl, hp, hann⟩ := exists_deeds_of_call hi rfl rfl hr
      exact ⟨ds, hds, hl, hp, hann.lines⟩
    | frame =>
      obtain ⟨ds, hds, hl, hp, hann⟩ := exists_deeds_of_call hi rfl rfl hr
      exact ⟨ds, hds, hl, hp, hann.lines⟩
    | reset =>
      obtain ⟨after, _, rfl⟩ := Machine.exists_of_map_eq_ok hr
      rfl
    | _ =>
      cases hr
      rfl

/-- Visits that start nothing over announce what the machine did in them. -/
theorem exists_announces_of_visit (hi : (withSeed seed).machine.Intact p.machine) {v : Visit}
    (goes : v.startsOver = false) {r : Reply Response} (h : p.visit v = .ok r) :
    ∃ ws, (∀ line ∈ ws, line.level = .warn) ∧
      p.machine.Announces ws r.lines r.page.machine := by
  cases v with
  | look l =>
    cases h
    exact ⟨[], nofun, Machine.announces_nothing rfl rfl⟩
  | call c =>
    obtain ⟨r, hr, rfl⟩ := Machine.exists_of_map_eq_ok h
    rcases hq : c.request? with _ | q
    · have hl := lines_of_idle hq hr
      refine ⟨[], nofun, ?_⟩
      show p.machine.Announces [] r.lines r.page.machine
      rw [hl]
      cases leaves_of_call hr with
      | served request serves machine =>
        rw [hq] at request
        cases request
      | idle request other same =>
        rw [same]
        exact Machine.announces_nothing rfl rfl
      | asked question forgets =>
        rw [forgets]
        exact Machine.announces_nothing rfl rfl
    · have hgoes : q.startsOver = false := by
        rw [Visit.startsOver, Call.startsOver, hq] at goes
        exact goes
      obtain ⟨ds, _, _, _, hann⟩ := exists_deeds_of_call hi hq hgoes hr
      refine ⟨_, ?_, hann⟩
      intro line hline
      obtain ⟨d, _, hd⟩ := List.mem_filterMap.mp hline
      exact Deed.level_of_warning? hd

theorem exists_visit (hp : p.machine.WellShaped) (v : Visit) :
    ∃ r, p.visit v = .ok r ∧ p.machine.Intact r.page.machine := by
  cases v with
  | look l => exact ⟨_, rfl, hp.intact⟩
  | call c =>
    obtain ⟨r, hr⟩ := exists_call hp c
    exact ⟨_, congrArg (Except.map _) hr, (leaves_of_call hr).intact hp⟩

/-! ## §6. Turns in a row. -/

/-- Says of turns that each is paid to the page that the one before it left. -/
inductive Visited : Page → List Turn → Prop where
  | nil (p : Page) : Visited p []
  | cons {p : Page} {v : Visit} {r : Reply Response} {ts : List Turn} (visits : p.visit v = .ok r)
    (rest : Visited r.page ts) : Visited p (⟨p, v, r⟩ :: ts)

/-- The page that is left behind turns. -/
def behind (p : Page) : List Turn → Page
  | [] => p
  | t :: ts => t.reply.page.behind ts

theorem behind_append (ts ts' : List Turn) :
    ∀ p : Page, p.behind (ts ++ ts') = (p.behind ts).behind ts' := by
  induction ts with
  | nil =>
    intro p
    rfl
  | cons t ts ih =>
    intro p
    exact ih t.reply.page

/-- Turns in a row can be parted anywhere. -/
theorem Visited.of_append {ts ts' : List Turn} :
    ∀ {p : Page}, p.Visited (ts ++ ts') → p.Visited ts ∧ (p.behind ts).Visited ts' := by
  induction ts with
  | nil =>
    intro p h
    exact ⟨.nil p, h⟩
  | cons t ts ih =>
    intro p h
    cases h with
    | cons visits rest =>
      obtain ⟨hts, hts'⟩ := ih rest
      exact ⟨.cons visits hts, hts'⟩

theorem intact_of_visit (hi : (withSeed seed).machine.Intact p.machine) {v : Visit}
    {r : Reply Response} (h : p.visit v = .ok r) : (withSeed seed).machine.Intact r.page.machine := by
  obtain ⟨r', h', hi'⟩ := exists_visit hi.shaped v
  rw [h, Except.ok.injEq] at h'
  rw [h']
  exact hi.trans hi'

theorem Visited.intact {ts : List Turn} (h : p.Visited ts)
    (hi : (withSeed seed).machine.Intact p.machine) :
    (withSeed seed).machine.Intact (p.behind ts).machine := by
  induction h with
  | nil p => exact hi
  | cons visits rest ih => exact ih (intact_of_visit hi visits)

/-- Each of the turns writes what it should. -/
theorem Visited.faithful {ts : List Turn} (h : p.Visited ts) :
    (withSeed seed).machine.Intact p.machine → ∀ t ∈ ts, t.Faithful seed := by
  induction h with
  | nil p =>
    intro _ t ht
    cases ht
  | cons visits rest ih =>
    intro hi t ht
    rcases List.mem_cons.mp ht with rfl | ht
    · exact faithful_of_visit hi visits
    · exact ih (intact_of_visit hi visits) t ht

/-- Turns that start nothing over write warnings and then one error at most. -/
theorem Visited.exists_announces {ts : List Turn} (h : p.Visited ts) :
    (withSeed seed).machine.Intact p.machine → (∀ t ∈ ts, t.visit.startsOver = false) →
      ∃ ws, (∀ line ∈ ws, line.level = .warn) ∧
        p.machine.Announces ws (written ts) (p.behind ts).machine := by
  induction h with
  | nil p =>
    intro _ _
    exact ⟨[], nofun, Machine.announces_nothing rfl rfl⟩
  | cons visits rest ih =>
    intro hi hgoes
    obtain ⟨ws, hws, hann⟩ := exists_announces_of_visit hi (hgoes _ List.mem_cons_self) visits
    obtain ⟨ws', hws', hann'⟩ := ih (intact_of_visit hi visits)
      fun t ht => hgoes t (List.mem_cons_of_mem _ ht)
    refine ⟨ws ++ ws', ?_, hann.trans hann'⟩
    intro line hline
    exact (List.mem_append.mp hline).elim (hws line) (hws' line)

/-- Visits in a row succeed. -/
theorem exists_turns (visits : List Visit) :
    ∀ {p : Page}, p.machine.WellShaped → ∃ ts, p.turns visits = .ok ts ∧ p.Visited ts := by
  induction visits with
  | nil =>
    intro p _
    exact ⟨[], rfl, .nil p⟩
  | cons v visits ih =>
    intro p hp
    obtain ⟨r, hr, hi⟩ := exists_visit hp v
    obtain ⟨ts, hts, hv⟩ := ih hi.shaped
    refine ⟨⟨p, v, r⟩ :: ts, ?_, .cons hr hv⟩
    simp only [turns, hr, hts, Except.map]

/-- What a page writes to the console.  Whatever visits are paid to a page, in whatever order, a step and a
    frame write a warning for each of their steps that passed over a word, in order, then one error if the
    machine went from not stopped to stopped, and nothing else; an image that fits writes its length, one
    that does not is thrown out and leaves the page as in the beginning; and no other visit writes anything.
    Hence of turns in a row none of which starts over, nothing is written behind an error. -/
theorem console_contract (seed : UInt64) (visits : List Visit) :
    ∃ ts, (withSeed seed).turns visits = .ok ts ∧
      (∀ t ∈ ts, t.Faithful seed) ∧
      ∀ before between after, ts = before ++ between ++ after →
        (∀ t ∈ between, t.visit.startsOver = false) →
          ∀ xs line ys, written between = xs ++ line :: ys → line.level = .error → ys = [] := by
  have hi : (withSeed seed).machine.Intact (withSeed seed).machine := (wellShaped_withSeed seed).intact
  obtain ⟨ts, hts, hv⟩ := exists_turns visits hi.shaped
  refine ⟨ts, hts, hv.faithful hi, ?_⟩
  intro before between after hparts hgoes xs line ys hwritten error
  rw [hparts, List.append_assoc] at hv
  obtain ⟨hbefore, hrest⟩ := hv.of_append
  obtain ⟨ws, hws, hann⟩ := hrest.of_append.1.exists_announces (hbefore.intact hi) hgoes
  exact hann.eq_nil hws hwritten error

/-- A program of four bytes is loaded, passes over a word and returns with no call open, both in the first of
    two frames.  Nothing else is written, neither by the steps behind that nor when the page is reset and an
    image with a byte too many is thrown out. -/
theorem console_contract_returned :
    let visits : List Visit :=
      [.call (.loadImage [0x80, 0x08, 0x00, 0xEE]), .call .frame, .look .pc, .call .frame, .call .step,
        .call .reset, .call (.loadImage (List.replicate 3585 0))]
    ∃ ts, (withSeed 7).turns visits = .ok ts ∧
      (∀ t ∈ ts, t.Faithful 7) ∧
      ts.map (·.reply.lines) =
        [[⟨.log, "Loaded ROM (4 bytes)"⟩],
          [⟨.warn, "unknown opcode 0x8008 at 0x200"⟩,
            ⟨.error, "fault 0x01 (Stack): return executed with an empty call stack at 0x202"⟩],
          [], [], [], [], []] ∧
      ts = ts.take 1 ++ (ts.drop 1).take 4 ++ (ts.drop 1).drop 4 ∧
      (∀ t ∈ (ts.drop 1).take 4, t.visit.startsOver = false) ∧
      ∃ ys, written ((ts.drop 1).take 4) =
        [.skipped 0x200 0x8008] ++ .faulted .stackUnderflow 0x202 :: ys ∧ ys = [] := by
  intro visits
  obtain ⟨ts, hts, hfaithful, hlast⟩ := console_contract 7 visits
  have hrun : ((withSeed 7).turns visits).map (fun ts =>
      (ts.map (·.reply.lines), ((ts.drop 1).take 4).all (!·.visit.startsOver),
        written ((ts.drop 1).take 4))) =
        .ok ([[.loaded 4], [.skipped 0x200 0x8008, .faulted .stackUnderflow 0x202], [], [], [], [], []],
          true, [.skipped 0x200 0x8008, .faulted .stackUnderflow 0x202]) := by
    decide +kernel
  simp only [hts, Except.map, Except.ok.injEq, Prod.mk.injEq, List.all_eq_true,
    Bool.not_eq_true'] at hrun
  obtain ⟨hlines, hgoes, hwritten⟩ := hrun
  have hparts : ts = ts.take 1 ++ (ts.drop 1).take 4 ++ (ts.drop 1).drop 4 := by
    rw [List.append_assoc, List.take_append_drop, List.take_append_drop]
  exact ⟨ts, hts, hfaithful, hlines, hparts, hgoes, [], hwritten,
    hlast _ _ _ hparts hgoes [.skipped 0x200 0x8008] _ _ hwritten rfl⟩

end Page

end Chip8
