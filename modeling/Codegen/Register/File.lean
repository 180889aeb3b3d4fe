import Codegen.Handle
import Codegen.Register.Mask

/-! Which variable occupies which register. -/
namespace Codegen

/-- The occupants of the registers, class by class. -/
abbrev Occupants := PerClass (Vector (Option VarId) 16)

namespace Occupants

def occupant (o : Occupants) (r : Reg) : Option VarId := (o.get r.cls)[r.index]?.join

/-- The occupied registers with their occupants, by class and number. -/
def toList (o : Occupants) : List (Reg × VarId) :=
  RegClass.all.flatMap fun c => (List.range 16).filterMap fun i =>
    (o.occupant ⟨c, i⟩).map fun v => (⟨c, i⟩, v)

/-- The occupied registers of a class. -/
def mask (o : Occupants) (c : RegClass) : RegMask :=
  .ofList ((List.range 16).filter fun i => (o.occupant ⟨c, i⟩).isSome)

theorem contains_mask (o : Occupants) (c : RegClass) (i : Nat) :
    (o.mask c).contains i = (o.occupant ⟨c, i⟩).isSome := by
  rw [Bool.eq_iff_iff, mask, RegMask.contains_ofList, List.mem_filter, List.mem_range]
  refine ⟨fun h => h.1.2, fun h => ?_⟩
  have hi : i < 16 := Decidable.byContradiction fun hn => by
    simp [occupant, Vector.getElem?_eq_none (Nat.le_of_not_lt hn)] at h
  exact ⟨⟨hi, h⟩, Nat.lt_trans hi (by decide)⟩

end Occupants

/-- The occupants of the registers and the masks of the occupied ones. The masks mirror the occupants. -/
structure RegFile where
  banks : Occupants
  masks : PerClass RegMask
  mirrors : ∀ c i, (masks.get c).contains i = (banks.get c)[i]?.join.isSome
  deriving DecidableEq, Repr

namespace RegFile

def empty : RegFile where
  banks := .all (Vector.replicate 16 none)
  masks := .all .empty
  mirrors c i := by
    rw [PerClass.get_all, PerClass.get_all, RegMask.contains_empty, Vector.getElem?_replicate]
    split <;> rfl

/-- The file with these occupants, whose masks are computed anew. -/
def load (banks : Occupants) : RegFile where
  banks
  masks := ⟨banks.mask .gp, banks.mask .mm, banks.mask .xmm⟩
  mirrors c i := by cases c <;> exact banks.contains_mask _ i

def occupant (f : RegFile) (r : Reg) : Option VarId := f.banks.occupant r

/-- Bind the register to the variable, whoever held it before. -/
def assign (f : RegFile) (r : Reg) (v : VarId) : RegFile where
  banks := f.banks.modify r.cls fun bank => bank.setIfInBounds r.index (some v)
  masks := f.masks.modify r.cls fun mask => if r.index < 16 then mask.insert r.index else mask
  mirrors c i := by
    by_cases hc : c = r.cls
    · rw [hc, PerClass.get_modify_self, PerClass.get_modify_self, Vector.getElem?_setIfInBounds]
      by_cases hi : r.index = i <;> by_cases hr : r.index < 16
      · simp [← hi, hr, RegMask.contains_insert _ (Nat.lt_trans hr (by decide : 16 < 32))]
      · simp [← hi, hr, f.mirrors]
      · simp [hi, hr, RegMask.contains_insert _ (Nat.lt_trans hr (by decide : 16 < 32)), f.mirrors]
      · simp [hi, hr, f.mirrors]
    · rw [PerClass.get_modify_of_ne _ hc, PerClass.get_modify_of_ne _ hc, f.mirrors]

def release (f : RegFile) (r : Reg) : RegFile where
  banks := f.banks.modify r.cls fun bank => bank.setIfInBounds r.index none
  masks := f.masks.modify r.cls (·.erase r.index)
  mirrors c i := by
    by_cases hc : c = r.cls
    · rw [hc, PerClass.get_modify_self, PerClass.get_modify_self, Vector.getElem?_setIfInBounds]
      by_cases hi : r.index = i
      · rw [← hi, RegMask.contains_erase_self, if_pos rfl]
        split <;> rfl
      · rw [RegMask.contains_erase_of_ne _ hi, if_neg hi, f.mirrors]
    · rw [PerClass.get_modify_of_ne _ hc, PerClass.get_modify_of_ne _ hc, f.mirrors]

/-- The occupied registers of a class. -/
def used (f : RegFile) (c : RegClass) : RegMask := f.masks.get c

def isFree (f : RegFile) (r : Reg) : Bool := !(f.used r.cls).contains r.index

/-- The occupants tell what the masks are. -/
theorem load_banks (f : RegFile) : load f.banks = f := by
  obtain ⟨banks, masks, mirrors⟩ := f
  have hmask : ∀ c, banks.mask c = masks.get c := fun c => RegMask.ext_contains fun i => by
    rw [banks.contains_mask, mirrors]
    rfl
  obtain ⟨gp, mm, xmm⟩ := masks
  simp only [load, RegFile.mk.injEq, PerClass.mk.injEq, true_and]
  exact ⟨hmask .gp, hmask .mm, hmask .xmm⟩

@[simp] theorem occupant_empty (r : Reg) : empty.occupant r = none := by
  unfold occupant Occupants.occupant empty
  rw [PerClass.get_all]
  by_cases h : r.index < 16
  · simp [h]
  · simp [Vector.getElem?_eq_none (Nat.le_of_not_lt h)]

theorem occupant_assign_self (f : RegFile) {r : Reg} (h : r.index < 16) (v : VarId) :
    (f.assign r v).occupant r = some v := by
  simp [occupant, Occupants.occupant, assign, h]

theorem occupant_assign_of_ne (f : RegFile) {r s : Reg} (h : s ≠ r) (v : VarId) :
    (f.assign r v).occupant s = f.occupant s := by
  unfold occupant Occupants.occupant assign
  by_cases hc : s.cls = r.cls
  · have hi : r.index ≠ s.index := fun hi => h (by cases r; cases s; simp_all)
    rw [hc, PerClass.get_modify_self, Vector.getElem?_setIfInBounds_ne hi]
  · rw [PerClass.get_modify_of_ne _ hc]

theorem occupant_release_self (f : RegFile) (r : Reg) : (f.release r).occupant r = none := by
  by_cases h : r.index < 16
  · simp [occupant, Occupants.occupant, release, h]
  · simp [occupant, Occupants.occupant, Vector.getElem?_eq_none (Nat.le_of_not_lt h)]

theorem occupant_release_of_ne (f : RegFile) {r s : Reg} (h : s ≠ r) :
    (f.release r).occupant s = f.occupant s := by
  unfold occupant Occupants.occupant release
  by_cases hc : s.cls = r.cls
  · have hi : r.index ≠ s.index := fun hi => h (by cases r; cases s; simp_all)
    rw [hc, PerClass.get_modify_self, Vector.getElem?_setIfInBounds_ne hi]
  · rw [PerClass.get_modify_of_ne _ hc]

end RegFile

end Codegen
