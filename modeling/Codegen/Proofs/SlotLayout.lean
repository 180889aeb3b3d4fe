import Codegen.Frame.Slots

/-! The spill slots lie inside the bytes that their layout extends over. -/
namespace Codegen.SlotPool
variable {c : Cursor} {slot : Slot} {p : SlotPool}

/-- The areas of the common sizes have room for the slots that are still to be placed. -/
structure Cursor.Room (c : Cursor) (l : List Slot) : Prop where
  room16 : c.at16 + 16 * l.countP (·.size == 16) ≤ c.extent
  room8 : c.at8 + 8 * l.countP (·.size == 8) ≤ c.extent
  room4 : c.at4 + 4 * l.countP (·.size == 4) ≤ c.extent

theorem room_start (p : SlotPool) : p.start.Room p.slots.toList := by
  have := p.counted
  constructor <;> simp only [start, Array.countP_toList] <;> omega

theorem le_roundOther (n size : Nat) : n ≤ if 16 ≤ size then alignUp16 n else n := by
  split
  · exact le_alignUp16 n
  · exact Nat.le_refl n

theorem Cursor.Room.place (h : c.Room (s :: l)) : (c.place s.size).2.Room l ∧
    c.extent ≤ (c.place s.size).2.extent ∧ (c.place s.size).1 + s.size ≤ (c.place s.size).2.extent := by
  obtain ⟨h16, h8, h4⟩ := h
  simp only [List.countP_cons, beq_iff_eq] at h16 h8 h4
  unfold Cursor.place
  split
  case h_4 hn16 hn8 hn4 =>
    -- a slot of another size moves the extent up to its own end
    have hsize := le_roundOther s.size s.size
    have hroom : c.Room l := ⟨by omega, by omega, by omega⟩
    refine ⟨⟨?_, ?_, ?_⟩, Nat.le_max_left _ _, ?_⟩
    · exact Nat.le_trans hroom.room16 (Nat.le_max_left _ _)
    · exact Nat.le_trans hroom.room8 (Nat.le_max_left _ _)
    · exact Nat.le_trans hroom.room4 (Nat.le_max_left _ _)
    · exact Nat.le_trans (Nat.add_le_add_left hsize _) (Nat.le_max_right _ _)
  all_goals refine ⟨⟨?_, ?_, ?_⟩, Nat.le_refl _, ?_⟩ <;> simp_all <;> omega

theorem placeAll_within (h : c.Room l) : c.extent ≤ (placeAll c l).2.extent ∧
    ∀ slot ∈ (placeAll c l).1, ∃ offset, slot.offset = some offset ∧ offset + slot.size ≤ (placeAll c l).2.extent := by
  induction l generalizing c with
  | nil => exact ⟨Nat.le_refl _, fun slot hs => absurd hs List.not_mem_nil⟩
  | cons s l ih =>
    obtain ⟨hroom, hle, hend⟩ := h.place
    obtain ⟨hle', hrest⟩ := ih hroom
    refine ⟨Nat.le_trans hle hle', fun slot hs => ?_⟩
    rcases List.mem_cons.mp hs with rfl | hs
    · exact ⟨_, rfl, Nat.le_trans hend hle'⟩
    · exact hrest slot hs

theorem layout_within (hs : slot ∈ p.layout.2.slots) :
    ∃ offset, slot.offset = some offset ∧ offset + slot.size ≤ p.layout.1 :=
  (placeAll_within p.room_start).2 slot (by simpa [layout] using hs)

theorem placeAll_aligned (h16 : c.at16 % 16 = 0) (h8 : c.at8 % 8 = 0) (h4 : c.at4 % 4 = 0)
    (hs : slot ∈ (placeAll c l).1) : ∃ offset, slot.offset = some offset ∧
      (16 ≤ slot.size → offset % 16 = 0) ∧ (slot.size = 8 → offset % 8 = 0) ∧ (slot.size = 4 → offset % 4 = 0) := by
  induction l generalizing c with
  | nil => cases hs
  | cons s l ih =>
    have halign := alignUp16_mod c.atOther
    obtain ⟨h16, h8, h4, hplace⟩ : (c.place s.size).2.at16 % 16 = 0 ∧ (c.place s.size).2.at8 % 8 = 0 ∧
        (c.place s.size).2.at4 % 4 = 0 ∧ (16 ≤ s.size → (c.place s.size).1 % 16 = 0) ∧
        (s.size = 8 → (c.place s.size).1 % 8 = 0) ∧ (s.size = 4 → (c.place s.size).1 % 4 = 0) := by
      unfold Cursor.place
      split
      case h_4 _ hn8 hn4 =>
        exact ⟨h16, h8, h4, fun h => by simp only [if_pos h, halign], fun h => (hn8 h).elim, fun h => (hn4 h).elim⟩
      all_goals
        dsimp only
        omega
    rcases List.mem_cons.mp hs with rfl | hs
    · exact ⟨_, rfl, hplace⟩
    · exact ih h16 h8 h4 hs

theorem layout_multiple (hs : slot ∈ p.layout.2.slots) : ∃ offset, slot.offset = some offset ∧
    (16 ≤ slot.size → offset % 16 = 0) ∧ (slot.size = 8 → offset % 8 = 0) ∧ (slot.size = 4 → offset % 4 = 0) := by
  refine placeAll_aligned rfl ?_ ?_ (by simpa [layout] using hs) <;> simp only [start] <;> omega

theorem layout_aligned (hs : slot ∈ p.layout.2.slots) :
    ∃ offset, slot.offset = some offset ∧ (slot.size = 16 → offset % 16 = 0) ∧ (slot.size = 8 → offset % 8 = 0) := by
  obtain ⟨offset, ho, h16, h8, -⟩ := layout_multiple hs
  exact ⟨offset, ho, fun h => h16 (Nat.le_of_eq h.symm), h8⟩

end Codegen.SlotPool
