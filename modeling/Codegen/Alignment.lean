/-! Rounding to alignments. -/
namespace Codegen

/-- The least multiple of 16 that is not below `n`. -/
def alignUp16 (n : Nat) : Nat := (n + 15) / 16 * 16

/-- Is `n` an alignment, that is a power of two? -/
def isAlignment (n : Nat) : Bool := n != 0 && n &&& (n - 1) == 0

theorem le_alignUp16 (n : Nat) : n ≤ alignUp16 n := by
  unfold alignUp16
  omega

theorem alignUp16_mod (n : Nat) : alignUp16 n % 16 = 0 := by
  unfold alignUp16
  omega

theorem alignUp16_lt (n : Nat) : alignUp16 n < n + 16 := by
  unfold alignUp16
  omega

end Codegen
