/-
  Chip8.Proofs.Layering — images in a machine, one over the other.

  An image is written into a machine as it is, so under it lies whatever was there before: the zeros of a
  fresh machine, or what programs and earlier images left behind.  Each load lays one more sheet over the
  place of the program, flush at its start; an address shows the topmost sheet that is long enough to
  cover it.  A sheet that would stick out at the end of memory is not laid down at all, not even in part.

  Main statements: `load_eq_ok_iff` and `loaded_withImage` (one sheet), `layered_of_loadAll` (any number of
  them) and `load_exact`.
-/
import Chip8.Proofs.Serving

namespace Chip8

/-! ## §1. A written memory, piece by piece. -/

/-- A write that fits leaves what is before and what is behind it. -/
theorem Memory.toList_overlay {memory : Array UInt8} {start : Nat} {bytes : List UInt8}
    (h : start + bytes.length ≤ memory.size) :
    (overlay memory start bytes).toList =
      memory.toList.take start ++ bytes ++ memory.toList.drop (start + bytes.length) := by
  apply List.ext_getElem?
  intro i
  have hstart : (memory.toList.take start).length = start := by
    rw [List.length_take, Array.length_toList]
    omega
  rw [Array.getElem?_toList, getElem?_overlay, List.append_assoc]
  by_cases hbefore : i < start
  · rw [if_neg (by omega), List.getElem?_append_left (by omega), List.getElem?_take_of_lt hbefore,
      Array.getElem?_toList]
  · rw [List.getElem?_append_right (by omega), hstart]
    by_cases hinside : i < start + bytes.length
    · rw [if_pos (by omega), List.getElem?_append_left (by omega)]
    · rw [if_neg (by omega), List.getElem?_append_right (by omega), List.getElem?_drop,
        Array.getElem?_toList, show start + bytes.length + (i - start - bytes.length) = i by omega]

namespace Machine

variable {m : Machine}

/-- The memory of a fresh machine is the font and zeros. -/
theorem toList_memory_new (config : Config) :
    (new config).memory.toList = Font.glyphs ++ List.replicate (0x1000 - 0x50) 0 := by
  have hfits : Font.start.toNat + Font.glyphs.length ≤ Memory.blank.size := by
    rw [Memory.size_blank]
    decide
  show (Memory.overlay Memory.blank Font.start.toNat Font.glyphs).toList = _
  rw [Memory.toList_overlay hfits, show Font.start.toNat = 0 from rfl, List.take_zero,
    List.nil_append, Memory.blank, Array.toList_replicate, List.drop_replicate, Font.length_glyphs,
    Memory.capacity]

/-- The memory of a fresh machine with an image is the font, zeros, the image and zeros. -/
theorem toList_memory_withImage_new (config : Config) {image : List UInt8}
    (h : image.length ≤ Memory.maxImageSize) :
    ((new config).withImage image).memory.toList =
      Font.glyphs ++ List.replicate (0x200 - 0x50) 0 ++ image ++
        List.replicate (0xE00 - image.length) 0 := by
  have hlength : image.length ≤ 0xE00 := h
  have hfits : 0x200 + image.length ≤ (new config).memory.size := by
    rw [(wellShaped_new config).size_memory, Memory.capacity]
    omega
  have hbefore : (Font.glyphs ++ List.replicate (0x1000 - 0x50) 0).take 0x200 =
      Font.glyphs ++ List.replicate (0x200 - 0x50) 0 := by
    rw [List.take_append, Font.length_glyphs, List.take_replicate,
      List.take_of_length_le (by rw [Font.length_glyphs]; omega)]
    rfl
  have hbehind : (Font.glyphs ++ List.replicate (0x1000 - 0x50) 0).drop (0x200 + image.length) =
      List.replicate (0xE00 - image.length) 0 := by
    rw [List.drop_append, Font.length_glyphs, List.drop_replicate,
      List.drop_eq_nil_of_le (by rw [Font.length_glyphs]; omega), List.nil_append]
    congr 1
    omega
  show (Memory.overlay (new config).memory 0x200 image).toList = _
  rw [Memory.toList_overlay hfits, toList_memory_new, hbefore, hbehind]

/-! ## §2. One image. -/

/-- Says that a machine is an earlier one with an image at the place of the program, and with nothing else
    changed. -/
structure Loaded (m : Machine) (image : List UInt8) (after : Machine) : Prop where
  /-- Every byte of the image is at its address. -/
  placed : ∀ k, k < image.length → after.memory[0x200 + k]? = image[k]?
  /-- What is before the image and behind it is as it was. -/
  spared : ∀ a, a < 0x200 ∨ 0x200 + image.length ≤ a → after.memory[a]? = m.memory[a]?
  /-- Nothing but memory has changed. -/
  elsewhere : after = { m with memory := after.memory }

/-- An image that fits lies where a program is. -/
theorem loaded_withImage (full : m.memory.size = Memory.capacity) {image : List UInt8}
    (h : image.length ≤ Memory.maxImageSize) : m.Loaded image (m.withImage image) where
  placed := by
    intro k hk
    have hlength : image.length ≤ 0xE00 := h
    have hin : 0x200 ≤ 0x200 + k ∧ 0x200 + k < 0x200 + image.length ∧ 0x200 + k < m.memory.size := by
      rw [full, Memory.capacity]
      omega
    rw [getElem?_withImage]
    refine (if_pos hin).trans ?_
    show image[0x200 + k - 0x200]? = _
    rw [Nat.add_sub_cancel_left]
  spared := by
    intro a ha
    have hout : ¬(0x200 ≤ a ∧ a < 0x200 + image.length ∧ a < m.memory.size) := by omega
    rw [getElem?_withImage]
    exact if_neg hout
  elsewhere := rfl

/-- A load succeeds exactly if the image fits. -/
theorem load_eq_ok_iff (full : m.memory.size = Memory.capacity) {image : List UInt8}
    {after : Machine} :
    m.load image = .ok after ↔ image.length ≤ Memory.maxImageSize ∧ after = m.withImage image := by
  rcases Nat.lt_or_ge Memory.maxImageSize image.length with hlt | hle
  · rw [load_of_lt hlt]
    simp only [reduceCtorEq, false_iff]
    omega
  · rw [load_of_le full hle, Except.ok.injEq]
    exact ⟨fun h => ⟨hle, h.symm⟩, fun h => h.2.symm⟩

theorem exists_load_iff (full : m.memory.size = Memory.capacity) {image : List UInt8} :
    (∃ after, m.load image = .ok after) ↔ image.length ≤ Memory.maxImageSize := by
  simp only [load_eq_ok_iff full, exists_and_left, exists_eq, and_true]

/-- A load that fails is refused, and a host that asked for it has the same machine. -/
theorem refused_of_load (full : m.memory.size = Memory.capacity) {image : List UInt8}
    (h : ∀ after, m.load image ≠ .ok after) :
    m.load image = .error (.fault .imageTooLarge) ∧
      m.serve (.load image) = .ok ⟨.refusal (some .imageTooLarge), [], m⟩ := by
  have hlt : Memory.maxImageSize < image.length := by
    rw [← Nat.not_le, ← exists_load_iff full]
    exact fun ⟨after, hafter⟩ => h after hafter
  refine ⟨load_of_lt hlt, ?_⟩
  simp only [serve, load_of_lt hlt]

/-! ## §3. Images in a row. -/

/-- Loads images in order, each into the machine that the one before it left. -/
def loadAll (m : Machine) : List (List UInt8) → Except Trap Machine
  | [] => .ok m
  | image :: images =>
    match m.load image with
    | .error trap => .error trap
    | .ok loaded => loaded.loadAll images

/-- The last of several images that is long enough to have a byte at a place. -/
def lastReaching (k : Nat) (images : List (List UInt8)) : Option (List UInt8) :=
  (images.filter fun image => k < image.length).getLast?

/-- The first image counts only for a place that none of the others reaches. -/
theorem lastReaching_cons (k : Nat) (image : List UInt8) (images : List (List UInt8)) :
    lastReaching k (image :: images) =
      (lastReaching k images).or (if k < image.length then some image else none) := by
  unfold lastReaching
  rw [List.filter_cons]
  by_cases hk : k < image.length
  · rw [if_pos (decide_eq_true hk), if_pos hk, List.getLast?_cons]
    cases (images.filter fun image => k < image.length).getLast? with
    | none => rfl
    | some last => rfl
  · rw [if_neg (by simpa using hk), if_neg hk, Option.or_none]

/-- Says that a machine is an earlier one with images at the place of the program, the later over the
    earlier, and with nothing else changed. -/
structure Layered (m : Machine) (images : List (List UInt8)) (after : Machine) : Prop where
  /-- An address shows the last image that reaches it, or what was there before all of them. -/
  topmost : ∀ k, after.memory[0x200 + k]? =
    match lastReaching k images with
    | some image => image[k]?
    | none => m.memory[0x200 + k]?
  /-- What is before the program is as it was. -/
  below : ∀ a, a < 0x200 → after.memory[a]? = m.memory[a]?
  /-- Nothing but memory has changed. -/
  elsewhere : after = { m with memory := after.memory }

theorem Layered.nil : m.Layered [] m where
  topmost := fun _ => rfl
  below := fun _ _ => rfl
  elsewhere := rfl

/-- Images over one that already lies there are images over it. -/
theorem Layered.cons {image : List UInt8} {images : List (List UInt8)} {loaded after : Machine}
    (hl : m.Loaded image loaded) (h : loaded.Layered images after) :
    m.Layered (image :: images) after where
  topmost := by
    intro k
    rw [h.topmost, lastReaching_cons]
    cases lastReaching k images with
    | some last => rfl
    | none =>
      by_cases hk : k < image.length
      · rw [if_pos hk]
        exact hl.placed k hk
      · rw [if_neg hk]
        exact hl.spared _ (.inr (by omega))
  below := by
    intro a ha
    rw [h.below a ha]
    exact hl.spared a (.inl ha)
  elsewhere := by
    rw [h.elsewhere, hl.elsewhere]

/-- What a number of loads leaves behind, if all of them succeed. -/
theorem layered_of_loadAll {images : List (List UInt8)} :
    ∀ {m after : Machine}, m.memory.size = Memory.capacity → m.loadAll images = .ok after →
      m.Layered images after := by
  induction images with
  | nil =>
    intro m after _ h
    cases h
    exact .nil
  | cons image images ih =>
    intro m after full h
    rw [loadAll] at h
    split at h
    · cases h
    · rename_i loaded hload
      obtain ⟨hle, rfl⟩ := (load_eq_ok_iff full).mp hload
      exact .cons (loaded_withImage full hle) (ih ((Memory.size_overlay ..).trans full) h)

/-- Loads in a row succeed exactly if each image fits. -/
theorem exists_loadAll_iff {images : List (List UInt8)} :
    ∀ {m : Machine}, m.memory.size = Memory.capacity →
      ((∃ after, m.loadAll images = .ok after) ↔
        ∀ image ∈ images, image.length ≤ Memory.maxImageSize) := by
  induction images with
  | nil =>
    intro m _
    exact iff_of_true ⟨m, rfl⟩ (List.forall_mem_nil _)
  | cons image images ih =>
    intro m full
    rw [List.forall_mem_cons, loadAll]
    rcases Nat.lt_or_ge Memory.maxImageSize image.length with hlt | hle
    · rw [load_of_lt hlt]
      simp only [reduceCtorEq, exists_false, false_iff]
      omega
    · rw [load_of_le full hle]
      show (∃ after, (m.withImage image).loadAll images = .ok after) ↔ _
      rw [ih ((Memory.size_overlay ..).trans full)]
      exact (and_iff_right hle).symm

/-! ## §4. Exact and all or nothing. -/

/-- Loading is exact, and it happens wholly or not at all.  On a well-shaped machine, wherever in a run it
    is and whether or not it is stopped, a load succeeds exactly if the image has no more than 3584 bytes;
    the image is then at the place of the program, and no other byte and no other part of the machine is
    changed.  An image that is larger is refused as such, and the machine is the same as before.  So a
    machine that is made with an image has in its memory the font, zeros, the image and zeros, and nothing
    else; and loads in a row leave at each address from the place of the program on the byte of the last
    image that reaches it, or the byte that was there before, if none does. -/
theorem load_exact (hm : m.WellShaped) :
    (∀ image : List UInt8,
      ((∃ after, m.load image = .ok after) ↔ image.length ≤ 3584) ∧
      (∀ after, m.load image = .ok after →
        m.Loaded image after ∧ m.serve (.load image) = .ok ⟨.refusal none, [], after⟩) ∧
      ((∀ after, m.load image ≠ .ok after) →
        m.load image = .error (.fault .imageTooLarge) ∧
        m.serve (.load image) = .ok ⟨.refusal (some .imageTooLarge), [], m⟩)) ∧
    (∀ (config : Config) (image : List UInt8),
      ((∃ made, ofImage config image = .ok made) ↔ image.length ≤ 3584) ∧
      ∀ made, ofImage config image = .ok made →
        made = { new config with memory := made.memory } ∧
        made.memory.toList =
          Font.glyphs ++ List.replicate (0x200 - 0x50) 0 ++ image ++
            List.replicate (0xE00 - image.length) 0) ∧
    ∀ images : List (List UInt8),
      ((∃ after, m.loadAll images = .ok after) ↔ ∀ image ∈ images, image.length ≤ 3584) ∧
      ∀ after, m.loadAll images = .ok after → m.Layered images after := by
  have full := hm.size_memory
  refine ⟨?_, ?_, ?_⟩
  · intro image
    refine ⟨exists_load_iff full, ?_, refused_of_load full⟩
    intro after h
    refine ⟨?_, by simp only [serve, h]⟩
    obtain ⟨hle, rfl⟩ := (load_eq_ok_iff full).mp h
    exact loaded_withImage full hle
  · intro config image
    have fresh := (wellShaped_new config).size_memory
    refine ⟨exists_load_iff fresh, ?_⟩
    intro made h
    obtain ⟨hle, rfl⟩ := (load_eq_ok_iff fresh).mp h
    exact ⟨rfl, toList_memory_withImage_new config hle⟩
  · intro images
    exact ⟨exists_loadAll_iff full, fun after => layered_of_loadAll full⟩

/-- A stopped machine full of old bytes takes a long image and a short one over it, which leaves the end of
    the long one in view, and refuses one that has a byte too many. -/
theorem load_exact_worn :
    let worn : Machine :=
      { new .standard with
        memory := Array.replicate 4096 0xAA
        status := .stopped .stackUnderflow
        random := (Random.Source.ofSeed 1).next.2 }
    worn.WellShaped ∧
      (∃ after, worn.loadAll [[1, 2, 3], [], [9]] = .ok after ∧
        after.memory[0x1FF]? = some 0xAA ∧ after.memory[0x200]? = some 9 ∧
        after.memory[0x201]? = some 2 ∧ after.memory[0x203]? = some 0xAA ∧
        after.status = .stopped .stackUnderflow ∧ after.random = worn.random) ∧
      worn.serve (.load (List.replicate 3585 0)) =
        .ok ⟨.refusal (some .imageTooLarge), [], worn⟩ := by
  intro worn
  have hworn : worn.WellShaped :=
    (wellShaped_new .standard).of_parts
      (Array.size_replicate.trans (wellShaped_new .standard).size_memory.symm)
      (wellShaped_new .standard).regular (wellShaped_new .standard).depth_le
  have hold : ∀ a, a < 4096 → worn.memory[a]? = some 0xAA := by
    intro a ha
    exact Array.getElem?_replicate.trans (if_pos ha)
  obtain ⟨hload, _, hloads⟩ := load_exact hworn
  obtain ⟨hfit, hlayered⟩ := hloads [[1, 2, 3], [], [9]]
  obtain ⟨after, hafter⟩ := hfit.mpr (by decide)
  have h := hlayered after hafter
  refine ⟨hworn, ⟨after, hafter, ?_, h.topmost 0, h.topmost 1, ?_, ?_, ?_⟩, ?_⟩
  · rw [h.below _ (by decide), hold _ (by decide)]
  · exact (h.topmost 3).trans (hold _ (by decide))
  · rw [h.elsewhere]
  · rw [h.elsewhere]
  · obtain ⟨hiff, _, hrefused⟩ := hload (List.replicate 3585 0)
    refine (hrefused ?_).2
    intro loaded hl
    have hle := hiff.mp ⟨loaded, hl⟩
    rw [List.length_replicate] at hle
    omega

end Machine

end Chip8
