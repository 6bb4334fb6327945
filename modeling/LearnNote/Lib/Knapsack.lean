import Mathlib.Algebra.BigOperators.Fin
import Mathlib.Algebra.Order.BigOperators.Group.Finset
import Mathlib.Data.Set.Card
import Mathlib.Order.CompletePartialOrder

namespace LearnNote.Lib.Knapsack

variable {n : Nat} {M : Type*} [AddCommGroup M] {a : Fin n → M} {start i : Nat} {p : Fin n} {t : M}

def SomeSum (a : Fin n → M) (i : Nat) (t : M) : Prop :=
  ∃ S : Finset (Fin n), (∀ p ∈ S, p.val < i) ∧ ∑ p ∈ S, a p = t

theorem someSum_zero : SomeSum a 0 t ↔ t = 0 := by
  constructor
  · rintro ⟨S, hS, rfl⟩
    rw [Finset.eq_empty_of_forall_notMem fun p hp => absurd (hS p hp) (Nat.not_lt_zero _), Finset.sum_empty]
  · rintro rfl
    exact ⟨∅, fun p hp => absurd hp (Finset.notMem_empty p), Finset.sum_empty⟩

theorem someSum_self : SomeSum a i 0 := ⟨∅, fun p hp => absurd hp (Finset.notMem_empty p), Finset.sum_empty⟩

theorem SomeSum.mono (h : SomeSum a i t) : SomeSum a (i + 1) t := by
  obtain ⟨S, hS, hsum⟩ := h
  exact ⟨S, fun p hp => Nat.lt_succ_of_lt (hS p hp), hsum⟩

theorem someSum_succ (p : Fin n) : SomeSum a (p.val + 1) t ↔ SomeSum a p.val t ∨ SomeSum a p.val (t - a p) := by
  constructor
  · rintro ⟨S, hS, rfl⟩
    have hbelow : ∀ q ∈ S.erase p, q.val < p.val := by
      intro q hq
      obtain ⟨hne, hmem⟩ := Finset.mem_erase.mp hq
      have hlt := hS q hmem
      have hval : q.val ≠ p.val := fun he => hne (Fin.ext he)
      omega
    by_cases hp : p ∈ S
    · refine .inr ⟨S.erase p, hbelow, ?_⟩
      rw [← Finset.add_sum_erase S a hp, add_sub_cancel_left]
    · rw [Finset.erase_eq_of_notMem hp] at hbelow
      exact .inl ⟨S, hbelow, rfl⟩
  · rintro (h | ⟨S, hS, hsum⟩)
    · exact h.mono
    · have hp : p ∉ S := fun hp => absurd (hS p hp) (Nat.lt_irrefl _)
      refine ⟨insert p S, fun q hq => ?_, ?_⟩
      · rcases Finset.mem_insert.mp hq with rfl | hq
        · exact Nat.lt_succ_self _
        · exact Nat.lt_succ_of_lt (hS q hq)
      · rw [Finset.sum_insert hp, hsum, add_sub_cancel]

/-- How often each value is taken, of those from start to i, for them to add up to t. -/
def ways (a : Fin n → M) (start i : Nat) (t : M) : Set (Fin n → Nat) :=
  {k | (∀ p, k p ≠ 0 → start ≤ p.val ∧ p.val < i) ∧ ∑ p, k p • a p = t}

theorem eq_zero_of_nowhere {k : Fin n → Nat} (h : ∀ p, k p ≠ 0 → start ≤ p.val ∧ p.val < start) : k = 0 := by
  funext p
  by_contra hp
  have hlt := h p hp
  omega

theorem zero_mem_ways : (0 : Fin n → Nat) ∈ ways a start i 0 :=
  ⟨fun p hp => absurd rfl hp, by simp⟩

theorem ways_start_of_ne (h : t ≠ 0) : ways a start start t = ∅ := by
  rw [Set.eq_empty_iff_forall_notMem]
  rintro k ⟨hk, hsum⟩
  rw [eq_zero_of_nowhere hk] at hsum
  exact h (by simpa using hsum.symm)

def more (p : Fin n) (k : Fin n → Nat) : Fin n → Nat := Function.update k p (k p + 1)

theorem sum_more (p : Fin n) (k : Fin n → Nat) : ∑ q, more p k q • a q = ∑ q, k q • a q + a p := by
  have hrest : ∑ q ∈ Finset.univ.erase p, more p k q • a q = ∑ q ∈ Finset.univ.erase p, k q • a q :=
    Finset.sum_congr rfl fun q hq => by rw [more, Function.update_of_ne (Finset.ne_of_mem_erase hq)]
  rw [← Finset.add_sum_erase _ _ (Finset.mem_univ p), ← Finset.add_sum_erase _ (fun q => k q • a q) (Finset.mem_univ p),
    hrest, more, Function.update_self, succ_nsmul, add_right_comm]

theorem more_injective (p : Fin n) : Function.Injective (more p) := by
  intro k l h
  funext q
  have hq := congrFun h q
  by_cases he : q = p
  · subst he
    simpa [more] using hq
  · simpa [more, he] using hq

/-- The value at p is not taken, or once less than now. -/
theorem ways_succ (hp : start ≤ p.val) :
    ways a start (p.val + 1) t = ways a start p.val t ∪ more p '' ways a start (p.val + 1) (t - a p) := by
  ext k
  constructor
  · rintro ⟨hk, hsum⟩
    cases hkp : k p with
    | zero =>
        refine .inl ⟨fun q hq => ?_, hsum⟩
        have hlt := hk q hq
        have hval : q.val ≠ p.val := fun he => hq (Fin.ext he ▸ hkp)
        omega
    | succ m =>
        have hback : more p (Function.update k p m) = k := by
          rw [more, Function.update_self, Function.update_idem, ← hkp, Function.update_eq_self]
        refine .inr ⟨Function.update k p m, ⟨fun q hq => ?_, ?_⟩, hback⟩
        · by_cases he : q = p
          · subst he
            omega
          · rw [Function.update_of_ne he] at hq
            exact hk q hq
        · rw [← hback, sum_more] at hsum
          exact eq_sub_of_add_eq hsum
  · rintro (⟨hk, hsum⟩ | ⟨k, ⟨hk, hsum⟩, rfl⟩)
    · refine ⟨fun q hq => ?_, hsum⟩
      have hlt := hk q hq
      omega
    · refine ⟨fun q hq => ?_, ?_⟩
      · by_cases he : q = p
        · subst he
          omega
        · rw [more, Function.update_of_ne he] at hq
          exact hk q hq
      · rw [sum_more, hsum, sub_add_cancel]

theorem ways_disjoint (p : Fin n) :
    Disjoint (ways a start p.val t) (more p '' ways a start (p.val + 1) (t - a p)) := by
  rw [Set.disjoint_left]
  rintro _ ⟨hk, -⟩ ⟨k, -, rfl⟩
  have hlt := hk p (by simp [more])
  omega

theorem encard_ways_succ (hp : start ≤ p.val) : (ways a start (p.val + 1) t).encard =
    (ways a start p.val t).encard + (ways a start (p.val + 1) (t - a p)).encard := by
  rw [ways_succ hp, Set.encard_union_eq (ways_disjoint p), (more_injective p).encard_image]

theorem nonempty_ways_succ (hp : start ≤ p.val) : (ways a start (p.val + 1) t).Nonempty ↔
    (ways a start p.val t).Nonempty ∨ (ways a start (p.val + 1) (t - a p)).Nonempty := by
  rw [ways_succ hp, Set.union_nonempty, Set.image_nonempty]

theorem nonempty_ways_of_zero (hp : start ≤ p.val) (hzero : a p = 0) :
    (ways a start (p.val + 1) t).Nonempty ↔ (ways a start p.val t).Nonempty := by
  refine ⟨?_, fun h => (nonempty_ways_succ hp).mpr (.inl h)⟩
  rintro ⟨k, hk, hsum⟩
  refine ⟨Function.update k p 0, fun q hq => ?_, ?_⟩
  · by_cases he : q = p
    · subst he
      simp at hq
    · rw [Function.update_of_ne he] at hq
      have hlt := hk q hq
      have hval : q.val ≠ p.val := fun h => he (Fin.ext h)
      omega
  · rw [← hsum]
    refine Finset.sum_congr rfl fun q _ => ?_
    by_cases he : q = p
    · subst he
      simp [hzero]
    · rw [Function.update_of_ne he]

section order

variable {a : Fin n → Int} {t : Int}

theorem ways_of_neg (ha : ∀ p, 0 ≤ a p) (ht : t < 0) : ways a start i t = ∅ := by
  rw [Set.eq_empty_iff_forall_notMem]
  rintro k ⟨-, rfl⟩
  exact absurd ht (not_lt.mpr (Finset.sum_nonneg fun p _ => nsmul_nonneg (ha p) (k p)))

theorem ways_zero (ha : ∀ p, 0 < a p) : ways a start i 0 = {0} := by
  ext k
  constructor
  · rintro ⟨-, hsum⟩
    have hterm := (Finset.sum_eq_zero_iff_of_nonneg fun p _ => nsmul_nonneg (ha p).le (k p)).mp hsum
    refine funext fun p => ?_
    by_contra hk
    exact absurd (hterm p (Finset.mem_univ p)) (nsmul_pos (ha p) hk).ne'
  · rintro rfl
    exact zero_mem_ways

end order

end LearnNote.Lib.Knapsack
