/-! Displacements of memory operands, which are signed words of 32 bits. -/
namespace Codegen

/-- The displacement that has the low 32 bits of `n`. Sizes from 2³¹ on read as negative. -/
def displacement (n : Nat) : Int := (n : Int).bmod 4294967296

theorem displacement_of_lt {n : Nat} (h : n < 2147483648) : displacement n = n := by
  unfold displacement
  rw [Int.bmod_def]
  omega

theorem le_displacement (n : Nat) : -2147483648 ≤ displacement n := by
  unfold displacement
  rw [Int.bmod_def]
  omega

theorem displacement_lt (n : Nat) : displacement n < 2147483648 := by
  unfold displacement
  rw [Int.bmod_def]
  omega

theorem displacement_le (n : Nat) : displacement n ≤ n := by
  unfold displacement
  rw [Int.bmod_def]
  omega

theorem displacement_emod (n : Nat) : displacement n % 4294967296 = (n : Int) % 4294967296 := by
  unfold displacement
  rw [Int.bmod_def]
  omega

end Codegen
