/-
  Chip8.Proofs.Pressing — which keys of a page are held.

  A key is held if it was pressed and not released since, and the machine did not start over in between.
  Nothing that a program does, and nothing else that is done with a page, presses a key or releases one.  A
  key is pressed by its number or by the name of a keyboard key, of which there are twenty; some keys have
  two, and capital letters do as well as small ones.

  Main statements: `key?_eq_some_iff` and `lowerCase_eq_iff` (names), `keypad_of_serve` and `keypad_of_call`
  (what requests and calls do to the keys), `Visited.isHeld` (turns) and `keys_accounted`.
-/
import Chip8.Proofs.Announcing
import Chip8.Proofs.Recalling
import Chip8.Proofs.Stopping
import Chip8.Proofs.Surroundings

namespace Chip8

/-! ## §1. Letters and names. -/

/-- Says of two characters that they are the same, but for one being a capital letter of the English
    alphabet and the other its small letter. -/
inductive SameLetter : Char → Char → Prop where
  | same (c : Char) : SameLetter c c
  | lowered {c d : Char} (capital : c.isUpper = true) (place : d.toNat = c.toNat + 32) : SameLetter c d
  | raised {c d : Char} (capital : d.isUpper = true) (place : c.toNat = d.toNat + 32) : SameLetter c d

theorem isUpper_iff {c : Char} : c.isUpper = true ↔ 65 ≤ c.toNat ∧ c.toNat ≤ 90 := decide_eq_true_iff

theorem toNat_toLower (c : Char) : c.toLower.toNat = if c.isUpper then c.toNat + 32 else c.toNat := by
  by_cases h : c.isUpper
  · have hbounds : c.val ≥ 'A'.val ∧ c.val ≤ 'Z'.val := decide_eq_true_iff.mp h
    have hle : c.val.toNat ≤ 90 := hbounds.2
    have hval : c.toLower.val = c.val + 32 := congrArg Char.val (dif_pos hbounds)
    rw [if_pos h]
    show c.toLower.val.toNat = c.val.toNat + 32
    rw [hval, UInt32.toNat_add]
    exact Nat.mod_eq_of_lt (by show _ + 32 < 2 ^ 32; omega)
  · have hsame : c.toLower = c := dif_neg fun hbounds => h (decide_eq_true_iff.mpr hbounds)
    rw [if_neg h, hsame]

/-- Two characters have the same small letter just if they are the same letter. -/
theorem toLower_eq_iff {c d : Char} : c.toLower = d.toLower ↔ SameLetter c d := by
  rw [← Char.toNat_inj, toNat_toLower, toNat_toLower]
  constructor
  · intro h
    by_cases hc : c.isUpper
    · rw [if_pos hc] at h
      by_cases hd : d.isUpper
      · rw [if_pos hd] at h
        obtain rfl : c = d := Char.toNat_inj.mp (by omega)
        exact .same c
      · rw [if_neg hd] at h
        exact .lowered hc h.symm
    · rw [if_neg hc] at h
      by_cases hd : d.isUpper
      · rw [if_pos hd] at h
        exact .raised hd h
      · rw [if_neg hd] at h
        obtain rfl := Char.toNat_inj.mp h
        exact .same c
  · -- The small letter of a capital one is no capital letter.
    intro h
    cases h with
    | same => rfl
    | lowered capital place =>
      have hd : ¬d.isUpper = true := by
        rw [isUpper_iff] at capital ⊢
        omega
      rw [if_pos capital, if_neg hd, place]
    | raised capital place =>
      have hc : ¬c.isUpper = true := by
        rw [isUpper_iff] at capital ⊢
        omega
      rw [if_pos capital, if_neg hc, place]

namespace Keymap

/-- The names of keyboard keys that stand for keys. -/
def names : List String := layout.map Prod.fst

/-- Says of two names that they are letter for letter the same. -/
def SameName (name name' : String) : Prop := List.Forall₂ SameLetter name.toList name'.toList

/-- Two names are the same in small letters just if they are letter for letter the same. -/
theorem lowerCase_eq_iff {name name' : String} :
    lowerCase name = lowerCase name' ↔ SameName name name' := by
  rw [← String.toList_inj, lowerCase, lowerCase, String.toList_map, String.toList_map,
    ← List.forall₂_eq_eq_eq, List.forall₂_map_left_iff, List.forall₂_map_right_iff]
  simp only [toLower_eq_iff]
  rfl

/-- A keyboard key stands for the key that the layout has at its name. -/
theorem key?_eq_some_iff {name : String} {key : UInt8} :
    key? name = some key ↔ (lowerCase name, key) ∈ layout := by
  have hlookup : ∀ e ∈ layout, layout.lookup e.1 = some e.2 := by decide
  constructor
  · intro h
    obtain ⟨front, back, hparts, _⟩ := List.lookup_eq_some_iff.mp h
    rw [hparts]
    exact List.mem_append_right _ List.mem_cons_self
  · exact hlookup _

/-- The keys of the layout are keys of the machine. -/
theorem toNat_lt_of_key? {name : String} {key : UInt8} (h : key? name = some key) : key.toNat < 16 := by
  have hlt : ∀ e ∈ layout, e.2.toNat < 16 := by decide
  exact hlt _ (key?_eq_some_iff.mp h)

theorem isSome_key?_iff {name : String} : (key? name).isSome = true ↔ lowerCase name ∈ names := by
  rw [Option.isSome_iff_exists, names, List.mem_map]
  constructor
  · rintro ⟨key, h⟩
    exact ⟨_, key?_eq_some_iff.mp h, rfl⟩
  · rintro ⟨⟨name', key⟩, h, rfl⟩
    exact ⟨key, key?_eq_some_iff.mpr h⟩

end Keymap

theorem Keypad.isHeld_released (key : UInt8) : released.isHeld key = false := by
  unfold isHeld
  split
  · exact Vector.getElem_replicate ..
  · rfl

namespace Machine

variable {m : Machine}

/-! ## §2. Keys of a machine. -/

/-- A step holds and releases no key. -/
theorem keypad_of_step {s : Stepped} (h : m.step = .ok s) : s.machine.keypad = m.keypad := by
  have hk : s.machine.keypad = (m.stepSurroundings m.surroundings).keypad :=
    congrArg Surroundings.keypad (surroundings_of_step h)
  rw [hk, stepSurroundings]
  rcases m.current? with _ | i
  · rfl
  · cases i <;> rfl

/-- The keys behind a request. -/
theorem keypad_of_serve (hm : m.WellShaped) {r : Request} {s : Served} (h : m.serve r = .ok s) :
    s.machine.keypad = if r.startsOver then .released else r.keysBehind m.keypad := by
  by_cases hr : r = .tick
  · subst hr
    obtain ⟨t, ht, rfl⟩ := exists_of_map_eq_ok h
    refine tick_preserves (P := fun a => a.keypad = m.keypad) ?_ (fun _ => id) rfl ht
    intro a t ha ht
    exact (keypad_of_step ht).trans ha
  · cases gives_of_serve hm hr h with
    | stepped step => exact keypad_of_step step
    | countedDown | keySet key held | loaded fits | unloaded large => rfl
    | reset | reloaded fits | unreloaded large => rfl

end Machine

namespace Page

variable {p : Page} {seed : UInt64}

/-! ## §3. Keys of a page. -/

/-- The key that a call presses or releases, and which of the two, if it does either. -/
def Call.key? : Call → Option (UInt8 × Bool)
  | .keyDown name => (Keymap.key? name).map (·, true)
  | .keyUp name => (Keymap.key? name).map (·, false)
  | .setKey key held => if key ≤ 15 then some (key, held) else none
  | _ => none

/-- The key that a visit presses or releases, and which of the two, if it does either. -/
def Visit.key? : Visit → Option (UInt8 × Bool)
  | .call c => c.key?
  | .look _ => none

/-- Says of a visit that presses or releases a certain key which of the two it does. -/
def Visit.presses? (key : UInt8) (v : Visit) : Option Bool :=
  v.key?.bind fun (other, held) => if other = key then some held else none

/-- The keys behind the request of a call are those that the call presses and releases. -/
theorem keysBehind_of_request? {c : Call} {q : Request} (request : c.request? = some q)
    (keypad : Keypad) :
    q.keysBehind keypad = c.key?.elim keypad fun (key, held) => keypad.set key held := by
  cases c with
  | keyDown name | keyUp name =>
    obtain ⟨key, hk, rfl⟩ := Option.map_eq_some_iff.mp request
    rw [Call.key?, hk]
    rfl
  | setKey key held =>
    cases request
    by_cases hle : key ≤ 15
    · rw [Call.key?, if_pos hle]
      rfl
    · have hout : ¬key.toNat < 16 := fun h => hle (UInt8.le_iff_toNat_le.mpr (Nat.le_of_lt_succ h))
      rw [Call.key?, if_neg hle]
      exact dif_neg hout
  | takeChanged => cases request
  | _ =>
    cases request
    rfl

/-- A call that makes no request presses and releases nothing. -/
theorem key?_of_request?_eq_none {c : Call} (request : c.request? = none) : c.key? = none := by
  cases c with
  | keyDown name | keyUp name =>
    rw [Call.key?, Option.map_eq_none_iff.mp request]
    rfl
  | setKey key held => cases request
  | _ => rfl

/-- The keys behind a call. -/
theorem keypad_of_call (hp : p.machine.WellShaped) {c : Call} {r : Reply Answer} (h : p.call c = .ok r) :
    r.page.machine.keypad =
      if c.startsOver then .released
      else c.key?.elim p.machine.keypad fun (key, held) => p.machine.keypad.set key held := by
  cases leaves_of_call h with
  | served request serves machine =>
    rw [machine, Machine.keypad_of_serve hp serves, Call.startsOver, request,
      keysBehind_of_request? request]
    rfl
  | idle request other same =>
    rw [same, Call.startsOver, request, key?_of_request?_eq_none request]
    rfl
  | asked question forgets =>
    rw [question, forgets]
    rfl

theorem keypad_of_visit (hp : p.machine.WellShaped) {v : Visit} {r : Reply Response}
    (h : p.visit v = .ok r) :
    r.page.machine.keypad =
      if v.startsOver then .released
      else v.key?.elim p.machine.keypad fun (key, held) => p.machine.keypad.set key held := by
  cases v with
  | look l =>
    cases h
    rfl
  | call c =>
    obtain ⟨r', hr, rfl⟩ := Machine.exists_of_map_eq_ok h
    exact keypad_of_call hp hr

theorem Call.toNat_lt_of_key? {c : Call} {key : UInt8} {held : Bool} (h : c.key? = some (key, held)) :
    key.toNat < 16 := by
  cases c with
  | keyDown name | keyUp name =>
    obtain ⟨_, hk, rfl, rfl⟩ := Option.map_eq_some_iff.mp h
    exact Keymap.toNat_lt_of_key? hk
  | setKey other held =>
    obtain ⟨hle, heq⟩ := Option.ite_none_right_eq_some.mp h
    cases heq
    exact Nat.lt_succ_of_le (UInt8.le_iff_toNat_le.mp hle)
  | _ => cases h

theorem Visit.toNat_lt_of_key? {v : Visit} {key : UInt8} {held : Bool} (h : v.key? = some (key, held)) :
    key.toNat < 16 := by
  cases v with
  | call c => exact Call.toNat_lt_of_key? h
  | look l => cases h

/-- A visit presses or releases a key, or it leaves the key as it is, unless the machine starts over. -/
theorem isHeld_of_visit (hp : p.machine.WellShaped) {v : Visit} {r : Reply Response}
    (h : p.visit v = .ok r) (key : UInt8) :
    r.page.machine.keypad.isHeld key =
      if v.startsOver then false else (v.presses? key).getD (p.machine.keypad.isHeld key) := by
  rw [keypad_of_visit hp h]
  cases v.startsOver with
  | true => exact Keypad.isHeld_released key
  | false =>
    show (v.key?.elim _ _ : Keypad).isHeld key = (v.presses? key).getD _
    rw [Visit.presses?]
    rcases hk : v.key? with _ | ⟨other, held⟩
    · rfl
    · have hlt := Visit.toNat_lt_of_key? hk
      show (p.machine.keypad.set other held).isHeld key = (if other = key then some held else none).getD _
      rw [Keypad.isHeld_set]
      by_cases he : other = key
      · rw [if_pos ⟨he, hlt⟩, if_pos he]
        rfl
      · rw [if_neg fun h => he h.1, if_neg he]
        rfl

/-! ## §4. Turns. -/

/-- Behind turns on a page with no key held, a key is held if it was pressed last, unless the machine
    started over since then. -/
theorem Visited.isHeld {ts : List Turn} (hi : (withSeed seed).machine.Intact p.machine)
    (released : p.machine.keypad = .released) (key : UInt8) :
    p.Visited ts →
      (p.behind ts).machine.keypad.isHeld key =
        (latest (·.visit.startsOver) (·.visit.presses? key) ts).getD false := by
  induction ts using List.reverseRecOn with
  | nil =>
    intro _
    show p.machine.keypad.isHeld key = false
    rw [released]
    exact Keypad.isHeld_released key
  | append_singleton ts t ih =>
    intro hv
    obtain ⟨hts, ht⟩ := hv.of_append
    have hnow := (hts.intact hi).shaped
    have hheld := ih hts
    rw [behind_append, latest_concat]
    generalize p.behind ts = now at ht hnow hheld
    cases ht with
    | @cons _ v r _ visits rest =>
      show r.page.machine.keypad.isHeld key = _
      rw [isHeld_of_visit hnow visits, hheld]
      cases v.startsOver with
      | true => rfl
      | false => cases v.presses? key <;> rfl

theorem map_visit_of_turns (visits : List Visit) :
    ∀ {p : Page} {ts : List Turn}, p.turns visits = .ok ts → ts.map Turn.visit = visits := by
  induction visits with
  | nil =>
    intro p ts h
    cases h
    rfl
  | cons v visits ih =>
    intro p ts h
    rw [turns] at h
    split at h
    · cases h
    · obtain ⟨rest, hrest, rfl⟩ := Machine.exists_of_map_eq_ok h
      rw [List.map_cons, ih hrest]

/-- A turn that presses and releases nothing leaves the keys, unless the machine starts over. -/
theorem Visited.keypad_of_mem {ts : List Turn} (hv : p.Visited ts)
    (hi : (withSeed seed).machine.Intact p.machine) {t : Turn} (ht : t ∈ ts)
    (goes : t.visit.startsOver = false) (idle : t.visit.key? = none) :
    t.reply.page.machine.keypad = t.before.machine.keypad := by
  obtain ⟨front, back, rfl⟩ := List.append_of_mem ht
  obtain ⟨hfront, hrest⟩ := hv.of_append
  have hnow := (hfront.intact hi).shaped
  generalize p.behind front = now at hrest hnow
  cases hrest with
  | cons visits rest =>
    rw [keypad_of_visit hnow visits, goes, idle]
    rfl

theorem setNamedKey_eq (p : Page) (name : String) (held : Bool) :
    (p.setNamedKey name held).1 = (Keymap.key? name).isSome := by
  unfold setNamedKey
  split
  · rename_i hk
    rw [hk]
    rfl
  · rename_i hk
    rw [hk]
    rfl

/-- The keys are accounted for.  Whatever visits are paid to a page, in whatever order, each key is held
    just if the last visit that pressed or released it, since the machine last started over, pressed it;
    a visit that presses and releases no key, such as a step, a frame, a count of the timers, a question or
    a look, leaves all of them.  A keyboard key is taken just if its name in small letters is one of the
    twenty of the layout; it stands for the key that the layout has there; and capital letters make no
    difference. -/
theorem keys_accounted (seed : UInt64) (visits : List Visit) :
    (∃ ts, (withSeed seed).turns visits = .ok ts ∧
      (∀ key, ((withSeed seed).behind ts).machine.keypad.isHeld key =
        (latest Visit.startsOver (Visit.presses? key) visits).getD false) ∧
      ∀ t ∈ ts, t.visit.startsOver = false → t.visit.key? = none →
        t.reply.page.machine.keypad = t.before.machine.keypad) ∧
    (∀ (p : Page) name,
      ((p.keyDown name).1 = true ↔ Keymap.lowerCase name ∈ Keymap.names) ∧
      ((p.keyUp name).1 = true ↔ Keymap.lowerCase name ∈ Keymap.names)) ∧
    Keymap.names.length = 20 ∧ Keymap.names.Nodup ∧
    (∀ name key, Keymap.key? name = some key ↔ (Keymap.lowerCase name, key) ∈ Keymap.layout) ∧
    ∀ name name', Keymap.SameName name name' → Keymap.key? name = Keymap.key? name' := by
  have hi : (withSeed seed).machine.Intact (withSeed seed).machine := (wellShaped_withSeed seed).intact
  obtain ⟨ts, hts, hv⟩ := exists_turns visits hi.shaped
  have htaken : ∀ (p : Page) name held,
      (p.setNamedKey name held).1 = true ↔ Keymap.lowerCase name ∈ Keymap.names := by
    intro p name held
    rw [setNamedKey_eq]
    exact Keymap.isSome_key?_iff
  refine ⟨⟨ts, hts, ?_, fun t ht => hv.keypad_of_mem hi ht⟩, ?_, rfl, by decide, ?_, ?_⟩
  · intro key
    rw [← map_visit_of_turns visits hts, latest_map]
    exact hv.isHeld hi rfl key
  · intro p name
    exact ⟨htaken p name true, htaken p name false⟩
  · intro name key
    exact Keymap.key?_eq_some_iff
  · intro name name' h
    rw [Keymap.key?, Keymap.key?, Keymap.lowerCase_eq_iff.mpr h]

/-- Two keys are pressed by their arrows, among a step and a frame; then one is released by its other name
    and the second pressed once more.  Behind that a key that was held before a reset is not held. -/
theorem keys_accounted_arrows :
    let visits : List Visit :=
      [.call (.keyDown "x"), .call .reset, .call (.keyDown "ArrowUp"), .call .step,
        .call (.keyDown "arrowleft"), .call .frame, .call (.keyUp "2"), .call (.setKey 16 true),
        .call (.keyDown "Q"), .call (.keyUp "F5"), .look .pixels]
    ∃ ts, (withSeed 7).turns visits = .ok ts ∧
      ((withSeed 7).behind ts).machine.keypad.isHeld 4 = true ∧
      ((withSeed 7).behind ts).machine.keypad.isHeld 2 = false ∧
      ((withSeed 7).behind ts).machine.keypad.isHeld 0 = false ∧
      (∀ t ∈ ts, t.visit = .call .frame →
        t.reply.page.machine.keypad = t.before.machine.keypad) ∧
      ((withSeed 7).keyDown "F5").1 = false ∧
      Keymap.SameName "ArrowUp" "ARROWUP" ∧ Keymap.key? "ArrowUp" = Keymap.key? "ARROWUP" := by
  intro visits
  obtain ⟨⟨ts, hts, hheld, hidle⟩, htaken, _, _, _, hsame⟩ := keys_accounted 7 visits
  have hmixed : Keymap.lowerCase "ArrowUp" = "arrowup" := by decide +kernel
  have hcapital : Keymap.lowerCase "ARROWUP" = "arrowup" := by decide +kernel
  have hname : Keymap.SameName "ArrowUp" "ARROWUP" :=
    Keymap.lowerCase_eq_iff.mp (hmixed.trans hcapital.symm)
  refine ⟨ts, hts, ?_, ?_, ?_, ?_, ?_, hname, hsame _ _ hname⟩
  · rw [hheld]
    decide +kernel
  · rw [hheld]
    decide +kernel
  · rw [hheld]
    decide +kernel
  · intro t ht hframe
    exact hidle t ht (by rw [hframe]; rfl) (by rw [hframe]; rfl)
  · rw [Bool.eq_false_iff]
    intro h
    exact absurd ((htaken _ _).1.mp h) (by decide +kernel)

end Page

end Chip8
