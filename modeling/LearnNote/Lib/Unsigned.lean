import Mathlib.Algebra.Group.Nat.Defs
import Mathlib.Order.Lattice

namespace LearnNote

/-- Unsigned arithmetic wraps at 64 bits. -/
def sizeT (n : Nat) : Nat := n % 2 ^ 64

theorem sizeT_of_lt {n : Nat} (h : n < 2 ^ 64) : sizeT n = n := Nat.mod_eq_of_lt h

theorem sizeT_sub {a b : Nat} (h : b ≤ a) (ha : a < 2 ^ 64) : sizeT (a + (2 ^ 64 - b)) = a - b := by
  unfold sizeT
  omega

/-- An int wraps at 32 bits. -/
def int32 (n : Int) : Int := n.bmod 4294967296

theorem int32_lt (n : Int) : -2147483648 ≤ int32 n ∧ int32 n < 2147483648 := by
  rw [int32, Int.bmod_def]
  omega

theorem int32_le (n : Nat) : int32 n ≤ n := by
  rw [int32, Int.bmod_def]
  omega

theorem int32_of_mem {n : Int} (h : -2147483648 ≤ n) (h' : n < 2147483648) : int32 n = n := by
  rw [int32, Int.bmod_def]
  omega

/-- The index of the last of n elements as an int, where the number of elements is unsigned. -/
def lastIndex (n : Nat) : Int := int32 (sizeT (n + (2 ^ 64 - 1)))

theorem lastIndex_lt (n : Nat) : lastIndex n < n := by
  rcases Nat.eq_zero_or_pos n with rfl | hpos
  · decide
  · have hle := int32_le (sizeT (n + (2 ^ 64 - 1)))
    have hsub : sizeT (n + (2 ^ 64 - 1)) ≤ n - 1 := by
      rw [sizeT]
      omega
    rw [lastIndex]
    omega

theorem lastIndex_of_le {n : Nat} (h : n ≤ 2 ^ 31) : lastIndex n = n - 1 := by
  rcases Nat.eq_zero_or_pos n with rfl | hpos
  · decide
  · rw [lastIndex, sizeT_sub hpos (by omega), int32_of_mem (by omega) (by omega)]
    omega

end LearnNote
