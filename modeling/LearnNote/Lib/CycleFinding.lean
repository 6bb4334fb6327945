import Mathlib.Data.Fintype.Pigeonhole
import Mathlib.Dynamics.PeriodicPts.Defs

namespace LearnNote.Lib.CycleFinding

open Function

variable {α : Type*} {f : α → α} {x a : α} {i j k : Nat}

theorem periodic_of_eq (hlt : i < j) (h : f^[i] x = f^[j] x) : f^[i] x ∈ periodicPts f := by
  refine ⟨j - i, Nat.sub_pos_of_lt hlt, ?_⟩
  rw [IsPeriodicPt, IsFixedPt, ← iterate_add_apply, Nat.sub_add_cancel hlt.le, h]

/-- A walk inside a finite set comes to a point that it comes back to. -/
theorem exists_periodic (s : Finset α) (h : ∀ i, f^[i] x ∈ s) : ∃ j, f^[j] x ∈ periodicPts f := by
  obtain ⟨i, j, hne, he⟩ := Finite.exists_ne_map_eq_of_infinite fun i => (⟨f^[i] x, h i⟩ : s)
  have hwalk : f^[i] x = f^[j] x := congrArg Subtype.val he
  rcases Nat.lt_or_gt_of_ne hne with hlt | hgt
  · exact ⟨i, periodic_of_eq hlt hwalk⟩
  · exact ⟨j, periodic_of_eq hgt hwalk.symm⟩

theorem exists_meeting (h : f^[j] x ∈ periodicPts f) : ∃ k, 0 < k ∧ f^[k] x = f^[2 * k] x := by
  obtain ⟨n, hn, hperiod⟩ := h
  have hle : j ≤ (j + 1) * n := by
    calc j ≤ (j + 1) * 1 := by omega
      _ ≤ (j + 1) * n := Nat.mul_le_mul_left _ hn
  refine ⟨(j + 1) * n, Nat.mul_pos (Nat.succ_pos j) hn, ?_⟩
  have hback : IsPeriodicPt f ((j + 1) * n) (f^[(j + 1) * n] x) := by
    obtain ⟨m, hm⟩ := Nat.exists_eq_add_of_le' hle
    have hlater := (hperiod.const_mul (j + 1)).apply_iterate m
    rwa [← iterate_add_apply, ← hm] at hlater
  rw [Nat.two_mul, iterate_add_apply]
  exact hback.symm

theorem periodic_of_meeting (h : f^[k] x = f^[2 * k] x) : IsPeriodicPt f k (f^[k] x) := by
  rw [IsPeriodicPt, IsFixedPt, ← iterate_add_apply, ← Nat.two_mul, h]

theorem iterate_ne_of_meeting (h : f^[k] x = f^[2 * k] x) (hk : 0 < k) (hne : ∀ i < 2 * k, f^[i] x ≠ a) (i : Nat) :
    f^[i] x ≠ a := by
  induction i using Nat.strong_induction_on with
  | _ i ih =>
      by_cases hlt : i < 2 * k
      · exact hne i hlt
      · obtain ⟨m, rfl⟩ := Nat.exists_eq_add_of_le' (not_lt.mp hlt)
        have hsame : f^[m + 2 * k] x = f^[m + k] x := by
          rw [iterate_add_apply, ← h, ← iterate_add_apply]
        rw [hsame]
        exact ih (m + k) (by omega)

/-- A second walk from the meeting point agrees with one from the start exactly where that is on the cycle. -/
theorem eq_later_iff (h : f^[k] x = f^[2 * k] x) (hk : 0 < k) : f^[j] x = f^[j + k] x ↔ f^[j] x ∈ periodicPts f := by
  have hshift : f^[j + k] x = f^[k] (f^[j] x) := by rw [Nat.add_comm, iterate_add_apply]
  constructor
  · intro he
    exact ⟨k, hk, by rw [IsPeriodicPt, IsFixedPt, ← hshift, he]⟩
  · rintro ⟨n, hn, hperiod⟩
    have hle : k ≤ j + k * n := by
      calc k = k * 1 := (Nat.mul_one k).symm
        _ ≤ k * n := Nat.mul_le_mul_left _ hn
        _ ≤ j + k * n := Nat.le_add_left _ _
    obtain ⟨m, hm⟩ := Nat.exists_eq_add_of_le' hle
    have hcycle : f^[j] x = f^[m] (f^[k] x) := by
      calc f^[j] x = f^[k * n] (f^[j] x) := (hperiod.const_mul k).symm
        _ = f^[m] (f^[k] x) := by rw [← iterate_add_apply, ← iterate_add_apply, Nat.add_comm, hm]
    have hback := (periodic_of_meeting h).apply_iterate m
    rw [hshift, hcycle]
    exact hback.symm

end LearnNote.Lib.CycleFinding
