import Mathlib.Algebra.BigOperators.Intervals
import Mathlib.Algebra.Order.BigOperators.Group.Finset
import Mathlib.Data.Nat.Periodic

namespace LearnNote.Lib.Circuits

open Finset Function

variable {α : Type*} [AddCommGroup α] [LinearOrder α] [IsOrderedAddMonoid α] {f : Nat → α} {n p k : Nat}

def Circuit (f : Nat → α) (n p : Nat) : Prop := ∀ k ≤ n, 0 ≤ ∑ j ∈ range k, f (p + j)

theorem circuit_iff : Circuit f n p ↔ ∀ k ≤ n, ∑ j ∈ range p, f j ≤ ∑ j ∈ range (p + k), f j := by
  refine forall₂_congr fun k _ => ?_
  rw [sum_range_add, le_add_iff_nonneg_right]

omit [LinearOrder α] [IsOrderedAddMonoid α] in
theorem sum_period (hf : Periodic f n) (k : Nat) :
    ∑ j ∈ range (n + k), f j = ∑ j ∈ range n, f j + ∑ j ∈ range k, f j := by
  rw [sum_range_add]
  congr 1
  apply sum_congr rfl
  intro j _
  rw [add_comm, hf]

theorem Circuit.sum_nonneg (hf : Periodic f n) (h : Circuit f n p) : 0 ≤ ∑ j ∈ range n, f j := by
  have hround := circuit_iff.mp h n le_rfl
  rwa [add_comm, sum_period hf, le_add_iff_nonneg_left] at hround

/-- From where the sums are lowest. Once around, they begin again from a total that is not negative. -/
theorem circuit_of_lowest (hf : Periodic f n) (htotal : 0 ≤ ∑ j ∈ range n, f j) (hp : p ≤ n)
    (hlow : ∀ q ≤ n, ∑ j ∈ range p, f j ≤ ∑ j ∈ range q, f j) : Circuit f n p := by
  apply circuit_iff.mpr
  intro k hk
  by_cases hround : p + k ≤ n
  · exact hlow (p + k) hround
  · obtain ⟨m, hm⟩ := Nat.exists_eq_add_of_le (not_le.mp hround).le
    rw [hm, sum_period hf]
    calc ∑ j ∈ range p, f j ≤ ∑ j ∈ range m, f j := hlow m (by omega)
      _ ≤ ∑ j ∈ range n, f j + ∑ j ∈ range m, f j := le_add_of_nonneg_left htotal

omit [IsOrderedAddMonoid α] in
theorem circuit_mod (hf : Periodic f n) : Circuit f n (p % n) ↔ Circuit f n p := by
  refine forall₂_congr fun k _ => ?_
  have hsum : ∑ j ∈ range k, f (p % n + j) = ∑ j ∈ range k, f (p + j) := by
    apply sum_congr rfl
    intro j _
    rw [← hf.map_mod_nat, Nat.mod_add_mod, hf.map_mod_nat]
  rw [hsum]

end LearnNote.Lib.Circuits
