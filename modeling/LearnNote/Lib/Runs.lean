import Mathlib.Data.List.Dedup
import Mathlib.Data.List.Destutter
import Mathlib.Order.Lattice

namespace LearnNote.Lib.Runs

variable {α : Type*} {R : α → α → Prop} [DecidableRel R] {a b c : α} {l : List α}

theorem destutter'_concat (h : (l.destutter' R a).getLast? = some c) :
    (l ++ [b]).destutter' R a = if R c b then l.destutter' R a ++ [b] else l.destutter' R a := by
  induction l generalizing a with
  | nil =>
      obtain rfl := Option.some_inj.mp h
      exact List.destutter'_singleton R
  | cons x l ih =>
      rw [List.cons_append]
      by_cases hx : R a x
      · rw [List.destutter'_cons_pos _ hx, List.getLast?_cons_of_ne_nil (List.destutter'_ne_nil l R)] at h
        rw [List.destutter'_cons_pos _ hx, List.destutter'_cons_pos _ hx, ih h, List.cons_append,
          apply_ite (List.cons a)]
      · rw [List.destutter'_cons_neg _ hx] at h
        rw [List.destutter'_cons_neg _ hx, List.destutter'_cons_neg _ hx, ih h]

theorem destutter_concat (h : (l.destutter R).getLast? = some c) :
    (l ++ [b]).destutter R = if R c b then l.destutter R ++ [b] else l.destutter R := by
  cases l with
  | nil => cases h
  | cons a l => exact destutter'_concat h

/-- Of a sequence in order the distinct values are kept, in order. -/
theorem destutter_of_sorted [LinearOrder α] (h : l.Pairwise (· ≤ ·)) :
    (l.destutter (· ≠ ·)).Pairwise (· < ·) ∧ ∀ v, v ∈ l.destutter (· ≠ ·) ↔ v ∈ l := by
  rw [h.destutter_eq_dedup]
  refine ⟨?_, fun v => List.mem_dedup⟩
  have hle := h.sublist (List.dedup_sublist l)
  exact (hle.and (List.nodup_dedup l)).imp fun hab => lt_of_le_of_ne hab.1 hab.2

end LearnNote.Lib.Runs
