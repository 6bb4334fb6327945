import Mathlib.Algebra.BigOperators.Group.Finset.Basic
import Mathlib.Algebra.BigOperators.Group.List.Basic
import Mathlib.Algebra.Ring.Nat
import Mathlib.Data.Fintype.BigOperators

namespace LearnNote.Lib.Ledger

variable {M α : Type*} [AddCommGroup M] {l : List M} {a : Nat}

def credit (a : Nat) (x : M) (l : List M) : List M := l.modify a (· + x)

@[simp] theorem length_credit (a : Nat) (x : M) (l : List M) : (credit a x l).length = l.length :=
  List.length_modify _ _ _

theorem sum_drop_credit (ha : a < l.length) (x : M) (k : Nat) :
    ((credit a x l).drop k).sum = (l.drop k).sum + if k ≤ a then x else 0 := by
  induction l generalizing a k with
  | nil => cases ha
  | cons y l ih =>
      cases k with
      | zero =>
          cases a with
          | zero => simp [credit, add_right_comm]
          | succ a =>
              have hl := ih (a := a) (by simpa using ha) 0
              simp only [credit, List.drop_zero, if_pos (Nat.zero_le _)] at hl
              simp [credit, hl, add_assoc]
      | succ k =>
          cases a with
          | zero => simp [credit]
          | succ a =>
              have hl := ih (a := a) (by simpa using ha) k
              simpa [credit] using hl

theorem sum_credit (ha : a < l.length) (x : M) : (credit a x l).sum = l.sum + x := by
  have hdrop := sum_drop_credit ha x 0
  rwa [List.drop_zero, List.drop_zero, if_pos (Nat.zero_le a)] at hdrop

theorem sum_map_set (f : α → M) {l : List α} {i : Nat} {x : α} (hi : l[i]? = some x) (y : α) :
    ((l.set i y).map f).sum = (l.map f).sum - f x + f y := by
  obtain ⟨hlt, rfl⟩ := List.getElem?_eq_some_iff.mp hi
  rw [List.map_set, List.sum_set', dif_pos (by simpa using hlt), List.getElem_map,
    sub_eq_add_neg, add_assoc]

theorem sum_map_set_lt (f : α → Nat) {l : List α} {i : Nat} {x y : α} (hi : l[i]? = some x) (hlt : f y < f x) :
    ((l.set i y).map f).sum < (l.map f).sum := by
  induction l generalizing i with
  | nil => cases hi
  | cons z l ih =>
      cases i with
      | zero =>
          cases hi
          rw [List.set_cons_zero, List.map_cons, List.map_cons, List.sum_cons, List.sum_cons]
          exact Nat.add_lt_add_right hlt _
      | succ i =>
          rw [List.set_cons_succ, List.map_cons, List.map_cons, List.sum_cons, List.sum_cons]
          exact Nat.add_lt_add_left (ih hi) _

theorem sum_comp_update {θ : Type*} [Fintype θ] [DecidableEq θ] (f : α → M) (g : θ → α) (t : θ) (x : α) :
    ∑ u, f (Function.update g t x u) = ∑ u, f (g u) - f (g t) + f x := by
  have hrest : ∑ u ∈ Finset.univ.erase t, f (Function.update g t x u) = ∑ u ∈ Finset.univ.erase t, f (g u) := by
    apply Finset.sum_congr rfl
    intro u hu
    rw [Function.update_of_ne (Finset.ne_of_mem_erase hu)]
  rw [← Finset.add_sum_erase _ _ (Finset.mem_univ t), hrest, Function.update_self,
    ← Finset.add_sum_erase Finset.univ (fun u => f (g u)) (Finset.mem_univ t), add_sub_cancel_left, add_comm]

end LearnNote.Lib.Ledger
