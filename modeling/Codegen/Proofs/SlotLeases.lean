import Codegen.Proofs.Agreement
import Codegen.Proofs.SlotLayout
import Mathlib.Algebra.Group.Nat.Defs

/-! Spill slots do not overlap. Whatever was asked for and put back, the slots that are out are different slots of the
sizes asked for, and a layout gives each slot of the pool bytes of its own. -/
namespace Codegen.SlotPool
open List

/-- What calls on a new pool lead to: the pool, the slots it gave out so far, and those of them that were not put back
since, with the sizes asked for. Only slots that were given out are put back. -/
inductive Leases : SlotPool → List SlotId → List (SlotId × Nat) → Prop
  | new : Leases .empty [] []
  | acquire {p given held} (h : Leases p given held) (n : Nat) :
      Leases (p.acquire n).2 ((p.acquire n).1 :: given) (((p.acquire n).1, n) :: held)
  | release {p given held slot} (h : Leases p given held) (hs : slot ∈ given) :
      Leases (p.release slot) given (held.filter (·.1 ≠ slot))

variable {p : SlotPool} {slot : SlotId} {c : Cursor}
variable {given : List SlotId} {held : List (SlotId × Nat)}

theorem slotSize?_acquire_self (p : SlotPool) (n : Nat) : (p.acquire n).2.slotSize? (p.acquire n).1 = some n := by
  unfold acquire
  cases hf : p.free.find? fun s => p.slotSize? s == some n with
  | some s =>
    have hs := find?_some hf
    exact eq_of_beq hs
  | none => simp [slotSize?, size]

theorem slotSize?_acquire (h : slot.index < p.size) (n : Nat) : (p.acquire n).2.slotSize? slot = p.slotSize? slot := by
  unfold acquire
  cases p.free.find? fun s => p.slotSize? s == some n with
  | some => rfl
  | none => simp [slotSize?, Array.getElem?_push, Nat.ne_of_lt (show slot.index < p.slots.size from h)]

theorem slotSize?_release (p : SlotPool) (a b : SlotId) : (p.release a).slotSize? b = p.slotSize? b := by
  unfold release
  split <;> rfl

theorem size_acquire (p : SlotPool) (n : Nat) : p.size ≤ (p.acquire n).2.size := by
  unfold acquire
  split
  · exact Nat.le_refl _
  · simp [size]

/-- The slots that are out are different slots of the sizes asked for, and not free. -/
structure Leased (p : SlotPool) (given : List SlotId) (held : List (SlotId × Nat)) : Prop where
  sound : p.Sound
  made : ∀ s ∈ given, s.index < p.size
  taken : ∀ e ∈ held, p.Taken e.1 ∧ p.slotSize? e.1 = some e.2
  nodup : (held.map Prod.fst).Nodup

theorem Leased.acquire (h : Leased p given held) (n : Nat) :
    Leased (p.acquire n).2 ((p.acquire n).1 :: given) (((p.acquire n).1, n) :: held) := by
  obtain ⟨hsound, htaken, hnew, hold⟩ := acquire_sound h.sound n
  refine ⟨hsound, forall_mem_cons.mpr ⟨htaken.1, fun s hs => Nat.lt_of_lt_of_le (h.made s hs) (p.size_acquire n)⟩,
    forall_mem_cons.mpr ⟨⟨htaken, p.slotSize?_acquire_self n⟩, fun e he => ?_⟩, nodup_cons.mpr ⟨fun hm => ?_, h.nodup⟩⟩
  · obtain ⟨ht, hsize⟩ := h.taken e he
    exact ⟨hold ht, (slotSize?_acquire ht.1 n).trans hsize⟩
  · obtain ⟨e, he, heq⟩ := mem_map.mp hm
    exact hnew (heq ▸ (h.taken e he).1)

theorem Leased.release (h : Leased p given held) (hs : slot ∈ given) :
    Leased (p.release slot) given (held.filter (·.1 ≠ slot)) := by
  by_cases hfree : slot ∈ p.free
  · -- the slot was put back before, and nobody has it
    have hheld : held.filter (·.1 ≠ slot) = held := filter_eq_self.mpr fun e he => by
      have := (h.taken e he).1.2
      simp only [ne_eq, decide_eq_true_eq]
      rintro rfl
      exact this hfree
    have hp : p.release slot = p := if_pos (by simpa using hfree)
    rwa [hheld, hp]
  · obtain ⟨hsound, hold⟩ := release_sound h.sound ⟨h.made slot hs, hfree⟩
    have hsize : (p.release slot).size = p.size := by
      unfold SlotPool.release
      split <;> rfl
    refine ⟨hsound, (hsize.symm ▸ h.made), fun e he => ?_, (filter_sublist.map _).nodup h.nodup⟩
    obtain ⟨he, hne⟩ := mem_filter.mp he
    obtain ⟨ht, hn⟩ := h.taken e he
    exact ⟨hold ht (by simpa using hne), (slotSize?_release ..).trans hn⟩

theorem Leases.leased (h : Leases p given held) : Leased p given held := by
  induction h with
  | new =>
    exact ⟨⟨nodup_nil, fun s hs => (not_mem_nil hs).elim⟩, fun s hs => (not_mem_nil hs).elim,
      fun e he => (not_mem_nil he).elim, nodup_nil⟩
  | acquire _ n ih => exact ih.acquire n
  | release _ hs ih => exact ih.release hs

/-- The areas of the common sizes end where the next area starts. -/
structure Cursor.Ordered (c : Cursor) (l : List Slot) : Prop where
  le8 : c.at16 + 16 * l.countP (·.size == 16) ≤ c.at8
  le4 : c.at8 + 8 * l.countP (·.size == 8) ≤ c.at4
  leOther : c.at4 + 4 * l.countP (·.size == 4) ≤ c.atOther

/-- None of the slots that are still to be placed gets one of the `n` bytes from `o` on. -/
structure Cursor.Avoids (c : Cursor) (l : List Slot) (o n : Nat) : Prop where
  apart16 : o + n ≤ c.at16 ∨ c.at16 + 16 * l.countP (·.size == 16) ≤ o
  apart8 : o + n ≤ c.at8 ∨ c.at8 + 8 * l.countP (·.size == 8) ≤ o
  apart4 : o + n ≤ c.at4 ∨ c.at4 + 4 * l.countP (·.size == 4) ≤ o
  below : o + n ≤ c.atOther

theorem Cursor.Ordered.place (h : c.Ordered (s :: l)) :
    (c.place s.size).2.Ordered l ∧ (c.place s.size).2.Avoids l (c.place s.size).1 s.size := by
  obtain ⟨h8, h4, hx⟩ := h
  simp only [countP_cons, beq_iff_eq] at h8 h4 hx
  unfold Cursor.place
  split
  case h_4 =>
    have hsize := le_roundOther s.size s.size
    have hat := le_roundOther c.atOther s.size
    refine ⟨⟨?_, ?_, ?_⟩, ?_, ?_, ?_, ?_⟩ <;> dsimp only <;> omega
  all_goals
    rename_i hs
    simp only [hs] at h8 h4 hx
    refine ⟨⟨?_, ?_, ?_⟩, ?_, ?_, ?_, ?_⟩ <;> simp at h8 h4 hx ⊢ <;> omega

theorem Cursor.Avoids.place (h : c.Avoids (s :: l) o n) : (c.place s.size).2.Avoids l o n ∧
    (o + n ≤ (c.place s.size).1 ∨ (c.place s.size).1 + s.size ≤ o) := by
  obtain ⟨h16, h8, h4, hx⟩ := h
  simp only [countP_cons, beq_iff_eq] at h16 h8 h4
  unfold Cursor.place
  split
  case h_4 =>
    have hat := le_roundOther c.atOther s.size
    refine ⟨⟨?_, ?_, ?_, ?_⟩, ?_⟩ <;> dsimp only <;> omega
  all_goals
    rename_i hs
    simp only [hs] at h16 h8 h4
    refine ⟨⟨?_, ?_, ?_, ?_⟩, ?_⟩ <;> simp at h16 h8 h4 ⊢ <;> omega

/-- Two placed slots share no byte. -/
def Apart (s t : Slot) : Prop :=
  ∃ o o', s.offset = some o ∧ t.offset = some o' ∧ (o + s.size ≤ o' ∨ o' + t.size ≤ o)

theorem placeAll_avoids (h : c.Avoids l o n) (ht : t ∈ (placeAll c l).1) :
    ∃ o', t.offset = some o' ∧ (o + n ≤ o' ∨ o' + t.size ≤ o) := by
  induction l generalizing c with
  | nil => cases ht
  | cons s l ih =>
    obtain ⟨hnext, hs⟩ := h.place
    rcases mem_cons.mp ht with rfl | ht
    · exact ⟨_, rfl, hs⟩
    · exact ih hnext ht

theorem placeAll_apart (h : c.Ordered l) : (placeAll c l).1.Pairwise Apart := by
  induction l generalizing c with
  | nil => exact .nil
  | cons s l ih =>
    obtain ⟨hnext, havoid⟩ := h.place
    refine .cons (fun t ht => ?_) (ih hnext)
    obtain ⟨o', ho', hor⟩ := placeAll_avoids havoid ht
    exact ⟨_, o', rfl, ho', hor⟩

theorem placeAll_congr (h : l.map (·.size) = l'.map (·.size)) : placeAll c l = placeAll c l' := by
  induction l generalizing c l' with
  | nil =>
    obtain rfl : l' = [] := by simpa using h.symm
    rfl
  | cons s l ih =>
    obtain ⟨s', l', rfl, hs, hl⟩ := map_eq_cons_iff.mp h.symm
    simp only [placeAll, hs, ih hl.symm]

theorem layout_layout (p : SlotPool) : p.layout.2.layout = p.layout := by
  have hsizes : p.layout.2.slots.toList.map (·.size) = p.slots.toList.map (·.size) := map_size_placeAll ..
  have hplaced : placeAll p.layout.2.start p.layout.2.slots.toList = placeAll p.start p.slots.toList :=
    placeAll_congr hsizes
  unfold layout at hplaced ⊢
  simp only [hplaced]

theorem start_ordered (p : SlotPool) : p.start.Ordered p.slots.toList := by
  have := p.counted
  have := le_alignUp16 (p.count16 * 16 + p.count8 * 8 + p.count4 * 4)
  constructor <;> simp only [start, Array.countP_toList] <;> omega

theorem apart_of_lt {i j o' m : Nat} (hij : i < j) (hi : p.layout.2.slots[i]? = some ⟨n, some o⟩)
    (hj : p.layout.2.slots[j]? = some ⟨m, some o'⟩) : o + n ≤ o' ∨ o' + m ≤ o := by
  have hi' : (placeAll p.start p.slots.toList).1[i]? = some ⟨n, some o⟩ := by simpa [layout] using hi
  have hj' : (placeAll p.start p.slots.toList).1[j]? = some ⟨m, some o'⟩ := by simpa [layout] using hj
  obtain ⟨hilt, hi'⟩ := List.getElem?_eq_some_iff.mp hi'
  obtain ⟨hjlt, hj'⟩ := List.getElem?_eq_some_iff.mp hj'
  have hpair := pairwise_iff_getElem.mp (placeAll_apart p.start_ordered) i j hilt hjlt hij
  rw [hi', hj'] at hpair
  obtain ⟨_, _, ⟨⟩, ⟨⟩, hor⟩ := hpair
  exact hor

/-- The slot as it is laid out. -/
theorem layout_get (h : p.slotSize? slot = some n) :
    ∃ o, p.layout.2.slots[slot.index]? = some ⟨n, some o⟩ ∧ p.layout.2.offset? slot = some o := by
  have hsizes : (p.layout.2.slots.toList.map (·.size))[slot.index]? = (p.slots.toList.map (·.size))[slot.index]? :=
    congrArg (·[slot.index]?) (map_size_placeAll ..)
  simp only [getElem?_map, Array.getElem?_toList] at hsizes
  obtain ⟨t, ht, rfl⟩ := Option.map_eq_some_iff.mp (hsizes.trans h)
  obtain ⟨o, ho, -⟩ := layout_within (Array.mem_of_getElem? ht)
  obtain ⟨size, offset⟩ := t
  obtain rfl : offset = some o := ho
  exact ⟨o, ht, by simp [offset?, ht]⟩

/-- Slots that are out are different slots of the sizes asked for. A layout gives all slots of the pool bytes of their
own within its extent, at multiples of 16, 8 and 4 bytes, and the next layout gives the same ones. The extent is bounded,
so that no offset leaves a word of 32 bits. -/
theorem layout_separates (h : Leases p given held) (hsmall : p.layout.1 < 2 ^ 31) :
    (held.map Prod.fst).Nodup ∧ (∀ e ∈ held, p.slotSize? e.1 = some e.2) ∧
      (∀ slot n, p.slotSize? slot = some n → ∃ o, p.layout.2.offset? slot = some o ∧ o + n ≤ p.layout.1 ∧ o + n < 2 ^ 31 ∧
        (16 ≤ n → o % 16 = 0) ∧ (n = 8 → o % 8 = 0) ∧ (n = 4 → o % 4 = 0) ∧
        ∀ slot' n', slot' ≠ slot → p.slotSize? slot' = some n' →
          ∃ o', p.layout.2.offset? slot' = some o' ∧ (o + n ≤ o' ∨ o' + n' ≤ o)) ∧
      p.layout.2.layout = p.layout := by
  refine ⟨h.leased.nodup, fun e he => (h.leased.taken e he).2, fun slot n hn => ?_, p.layout_layout⟩
  obtain ⟨o, hget, ho⟩ := layout_get hn
  have hmem := Array.mem_of_getElem? hget
  obtain ⟨_, ⟨⟩, hin⟩ := layout_within hmem
  obtain ⟨_, ⟨⟩, h16, h8, h4⟩ := layout_multiple hmem
  refine ⟨o, ho, hin, Nat.lt_of_le_of_lt hin hsmall, h16, h8, h4, fun slot' n' hne hn' => ?_⟩
  obtain ⟨o', hget', ho'⟩ := layout_get hn'
  refine ⟨o', ho', ?_⟩
  rcases Nat.lt_or_gt_of_ne fun he : slot'.index = slot.index => hne (congrArg SlotId.mk he) with hlt | hlt
  · exact (apart_of_lt hlt hget' hget).symm
  · exact apart_of_lt hlt hget hget'

/-- Slots of 4, 10, 20 and 4 bytes, of which the first was put back before it was given out again. -/
def mixedPool : SlotPool := (((((empty.acquire 4).2.acquire 10).2.release ⟨0⟩).acquire 20).2.acquire 4).2

theorem layout_separates_mixed : Leases mixedPool [⟨0⟩, ⟨2⟩, ⟨1⟩, ⟨0⟩] [(⟨0⟩, 4), (⟨2⟩, 20), (⟨1⟩, 10)] ∧
    mixedPool.layout.1 = 64 ∧ mixedPool.layout.2.layout = mixedPool.layout ∧
    ∃ o, mixedPool.layout.2.offset? ⟨2⟩ = some o ∧ o + 20 ≤ 64 ∧ o % 16 = 0 := by
  have h : Leases mixedPool [⟨0⟩, ⟨2⟩, ⟨1⟩, ⟨0⟩] [(⟨0⟩, 4), (⟨2⟩, 20), (⟨1⟩, 10)] :=
    (((Leases.new.acquire 4).acquire 10).release (show ⟨0⟩ ∈ _ by decide)).acquire 20 |>.acquire 4
  obtain ⟨-, -, hslots, hagain⟩ := layout_separates h (by decide)
  obtain ⟨o, ho, hin, -, h16, -⟩ := hslots ⟨2⟩ 20 (by decide)
  exact ⟨h, by decide, hagain, o, ho, hin, h16 (by decide)⟩

end Codegen.SlotPool
