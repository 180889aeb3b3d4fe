import Codegen.Register.Basic

/-! Sets of register numbers within one class, kept as the bits of a 32-bit word. -/
namespace Codegen

/-- A set of register numbers below 32. -/
structure RegMask where
  bits : BitVec 32
  deriving DecidableEq, Repr

namespace RegMask

def empty : RegMask := ⟨0#32⟩

def single (index : Nat) : RegMask := ⟨1#32 <<< index⟩

/-- The first `count` registers. -/
def firstN (count : Nat) : RegMask := ⟨(1#32 <<< count) - 1#32⟩

def contains (m : RegMask) (index : Nat) : Bool := m.bits.getLsbD index

def union (a b : RegMask) : RegMask := ⟨a.bits ||| b.bits⟩

def inter (a b : RegMask) : RegMask := ⟨a.bits &&& b.bits⟩

def compl (a : RegMask) : RegMask := ⟨~~~a.bits⟩

/-- The members of `a` that are not in `b`. -/
def diff (a b : RegMask) : RegMask := a.inter b.compl

def insert (m : RegMask) (index : Nat) : RegMask := m.union (single index)

def erase (m : RegMask) (index : Nat) : RegMask := m.diff (single index)

def isEmpty (m : RegMask) : Bool := m.bits == 0#32

/-- The members, lowest first. -/
def toList (m : RegMask) : List Nat := (List.range 32).filter m.contains

def count (m : RegMask) : Nat := m.toList.length

/-- The lowest member. -/
def first? (m : RegMask) : Option Nat := m.toList.head?

def ofList (l : List Nat) : RegMask := l.foldl insert empty

/-- The lowest member that is also in `preferred`, else the lowest member. -/
def firstPreferred? (m preferred : RegMask) : Option Nat :=
  ((m.inter preferred).first?).orElse fun _ => m.first?

@[simp] theorem contains_empty (i : Nat) : empty.contains i = false := by
  simp [contains, empty]

@[simp] theorem contains_union (a b : RegMask) (i : Nat) :
    (a.union b).contains i = (a.contains i || b.contains i) := by
  simp [contains, union]

@[simp] theorem contains_inter (a b : RegMask) (i : Nat) :
    (a.inter b).contains i = (a.contains i && b.contains i) := by
  simp [contains, inter]

theorem contains_single (i j : Nat) : (single i).contains j = (decide (j < 32) && decide (i = j)) := by
  by_cases h : j < 32
  · by_cases e : i = j
    · subst e
      simp [contains, single, h]
    · simp only [contains, single, BitVec.getLsbD_shiftLeft, h, e, decide_true, decide_false,
        Bool.true_and]
      by_cases l : j < i
      · simp [l]
      · have : j - i ≠ 0 := by omega
        simp [l, BitVec.getLsbD_one, this]
  · simp [contains, h, BitVec.getLsbD_of_ge _ _ (Nat.le_of_not_lt h)]

theorem contains_diff {a b : RegMask} {i : Nat} :
    (a.diff b).contains i = true ↔ a.contains i = true ∧ b.contains i = false := by
  have hc : b.compl.contains i = (decide (i < 32) && !b.contains i) := BitVec.getLsbD_not
  rw [diff, contains_inter, hc]
  by_cases hi : i < 32
  · simp [hi]
  · have : a.contains i = false := BitVec.getLsbD_of_ge _ _ (Nat.le_of_not_lt hi)
    simp [this]

theorem contains_of_erase {a : RegMask} {i j : Nat} (h : (a.erase j).contains i = true) :
    a.contains i = true :=
  (contains_diff.mp h).1

theorem contains_insert (m : RegMask) {i j : Nat} (hj : j < 32) :
    (m.insert j).contains i = (m.contains i || decide (j = i)) := by
  rw [insert, contains_union, contains_single]
  by_cases h : j = i
  · simp [h, h ▸ hj]
  · simp [h]

theorem contains_erase_self (m : RegMask) (i : Nat) : (m.erase i).contains i = false := by
  rw [← Bool.not_eq_true, erase, contains_diff, contains_single]
  rintro ⟨hi, hs⟩
  simp [BitVec.lt_of_getLsbD hi] at hs

theorem contains_erase_of_ne (m : RegMask) {i j : Nat} (h : j ≠ i) : (m.erase j).contains i = m.contains i := by
  rw [Bool.eq_iff_iff, erase, contains_diff, contains_single]
  simp [h]

theorem contains_foldl_insert {m : RegMask} {l : List Nat} {i : Nat} :
    (l.foldl insert m).contains i = true ↔ m.contains i = true ∨ (i ∈ l ∧ i < 32) := by
  induction l generalizing m with
  | nil => simp
  | cons a l ih =>
    rw [List.foldl_cons, ih, insert, contains_union, contains_single, List.mem_cons]
    simp only [Bool.or_eq_true, Bool.and_eq_true, decide_eq_true_eq]
    constructor
    · rintro ((h | ⟨hi, rfl⟩) | ⟨h, hi⟩)
      · exact .inl h
      · exact .inr ⟨.inl rfl, hi⟩
      · exact .inr ⟨.inr h, hi⟩
    · rintro (h | ⟨rfl | h, hi⟩)
      · exact .inl (.inl h)
      · exact .inl (.inr ⟨hi, rfl⟩)
      · exact .inr ⟨h, hi⟩

theorem contains_ofList {l : List Nat} {i : Nat} : (ofList l).contains i = true ↔ i ∈ l ∧ i < 32 := by
  rw [ofList, contains_foldl_insert]
  simp

theorem ext_contains {a b : RegMask} (h : ∀ i, a.contains i = true ↔ b.contains i = true) : a = b := by
  obtain ⟨a⟩ := a
  congr 1
  exact BitVec.eq_of_getLsbD_eq fun i _ => Bool.eq_iff_iff.mpr (h i)

theorem mem_toList {m : RegMask} {i : Nat} : i ∈ m.toList ↔ m.contains i = true := by
  refine ⟨fun h => (List.mem_filter.mp h).2, fun h => List.mem_filter.mpr ⟨?_, h⟩⟩
  rw [List.mem_range]
  exact BitVec.lt_of_getLsbD h

theorem count_le (m : RegMask) : m.count ≤ 32 := List.length_filter_le _ (List.range 32)

end RegMask

end Codegen
