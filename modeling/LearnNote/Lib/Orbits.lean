import Mathlib.Dynamics.PeriodicPts.Defs

namespace LearnNote.Lib.Orbits

variable {α : Type*} [LinearOrder α] {f : α → α} {i : α}

/-- Following f from i comes back to i before anything below. -/
def Closes (f : α → α) (i : α) : Prop := ∃ k, f^[k + 1] i = i ∧ ∀ m < k, i < f^[m + 1] i

/-- Following f from i comes below i, or to a fixed point. -/
def Escapes (f : α → α) (i : α) : Prop := ∃ k, f^[k + 1] i < i ∨ f (f^[k + 1] i) = f^[k + 1] i

/-- After so many steps and one more the walk from i is above i, and goes on. -/
def Passes (f : α → α) (i : α) (k : Nat) : Prop := i < f^[k + 1] i ∧ f (f^[k + 1] i) ≠ f^[k + 1] i

theorem Closes.le (h : Closes f i) (m : Nat) : i ≤ f^[m] i := by
  obtain ⟨k, hk, hbetween⟩ := h
  have hperiod : Function.IsPeriodicPt f (k + 1) i := hk
  rw [← hperiod.iterate_mod_apply m]
  have hlt : m % (k + 1) < k + 1 := Nat.mod_lt m (Nat.succ_pos k)
  cases hm : m % (k + 1) with
  | zero => exact le_rfl
  | succ l =>
      rw [hm] at hlt
      exact (hbetween l (Nat.lt_of_succ_lt_succ hlt)).le

/-- Only the identity has every point at the bottom of its cycle. -/
theorem eq_self_of_closes (h : ∀ i, Closes f i) (i : α) : f i = i := by
  obtain ⟨k, hk, -⟩ := h i
  have hback : f^[k] (f i) = i := hk
  apply le_antisymm
  · calc f i ≤ f^[k] (f i) := (h (f i)).le k
      _ = i := hback
  · exact (h i).le 1

theorem closes_of_eq_self (h : f i = i) : Closes f i := ⟨0, h, fun _ hm => absurd hm (Nat.not_lt_zero _)⟩

theorem Closes.passes (h : Closes f i) : ∃ k, f^[k + 1] i = i ∧ ∀ m < k, Passes f i m := by
  obtain ⟨k, hk, hbetween⟩ := h
  refine ⟨k, hk, fun m hm => ⟨hbetween m hm, fun hfixed => ?_⟩⟩
  have hstay : f^[k + 1] i = f^[m + 1] i := by
    have hsplit : k + 1 = (k - m) + (m + 1) := by omega
    rw [hsplit, Function.iterate_add_apply, Function.iterate_fixed hfixed]
  exact absurd (hk.symm.trans hstay) (hbetween m hm).ne

theorem first_stop (h : ∃ k, ¬ Passes f i k) :
    ∃ k, (f^[k + 1] i ≤ i ∨ f (f^[k + 1] i) = f^[k + 1] i) ∧ ∀ m < k, Passes f i m := by
  classical
  refine ⟨Nat.find h, ?_, fun m hm => not_not.mp (Nat.find_min h hm)⟩
  have hstop := Nat.find_spec h
  rw [Passes, not_and_or, not_lt, not_not] at hstop
  exact hstop

theorem Escapes.passes (h : Escapes f i) (hopen : ¬ Closes f i) :
    ∃ k, (f^[k + 1] i < i ∨ i < f^[k + 1] i ∧ f (f^[k + 1] i) = f^[k + 1] i) ∧ ∀ m < k, Passes f i m := by
  have hsome : ∃ k, ¬ Passes f i k := by
    obtain ⟨k, hk⟩ := h
    refine ⟨k, fun hpass => ?_⟩
    rcases hk with hlt | hfixed
    · exact lt_asymm hlt hpass.1
    · exact hpass.2 hfixed
  obtain ⟨k, hk, hbefore⟩ := first_stop hsome
  have hne : f^[k + 1] i ≠ i := fun he => hopen ⟨k, he, fun m hm => (hbefore m hm).1⟩
  refine ⟨k, ?_, hbefore⟩
  rcases hk with hle | hfixed
  · exact .inl (lt_of_le_of_ne hle hne)
  · rcases lt_or_gt_of_ne hne with hlt | hgt
    · exact .inl hlt
    · exact .inr ⟨hgt, hfixed⟩

theorem passes_forever (hopen : ¬ Closes f i) (hkept : ¬ Escapes f i) (k : Nat) : Passes f i k := by
  by_contra hstop
  obtain ⟨k, hk, hbefore⟩ := first_stop ⟨k, hstop⟩
  rcases hk with hle | hfixed
  · rcases hle.lt_or_eq with hlt | he
    · exact hkept ⟨k, .inl hlt⟩
    · exact hopen ⟨k, he, fun m hm => (hbefore m hm).1⟩
  · exact hkept ⟨k, .inr hfixed⟩

end LearnNote.Lib.Orbits
