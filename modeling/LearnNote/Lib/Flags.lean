import Mathlib.Data.List.Basic

namespace LearnNote.Lib.Flags

variable {l : List Bool} {i : Nat}

theorem value (l : List Bool) (hi : i < l.length) : l[i]? = some true ∨ l[i]? = some false := by
  cases hb : l[i] <;> simp [List.getElem?_eq_getElem hi, hb]

theorem set_set_false (h : l[i]? = some false) : (l.set i true).set i false = l := by
  obtain ⟨hlt, hvalue⟩ := List.getElem?_eq_some_iff.mp h
  rw [List.set_set, ← hvalue, List.set_getElem_self]

theorem count_set_true (h : l[i]? = some false) : (l.set i true).count false < l.count false := by
  obtain ⟨hlt, hvalue⟩ := List.getElem?_eq_some_iff.mp h
  have hpos : 0 < l.count false := List.count_pos_iff.mpr (hvalue ▸ List.getElem_mem hlt)
  rw [List.count_set hlt, hvalue]
  simp only [BEq.rfl, if_true, beq_false, Bool.not_true, Bool.false_eq_true, if_false]
  omega

def unmarked (l : List Bool) : List Nat := (List.range l.length).filter fun i => l[i]? = some false

theorem mem_unmarked : i ∈ unmarked l ↔ l[i]? = some false := by
  simp only [unmarked, List.mem_filter, List.mem_range, decide_eq_true_eq, and_iff_right_iff_imp]
  exact fun h => (List.getElem?_eq_some_iff.mp h).choose

theorem nodup_unmarked (l : List Bool) : (unmarked l).Nodup := List.nodup_range.filter _

theorem unmarked_set (h : l[i]? = some false) : unmarked (l.set i true) = (unmarked l).erase i := by
  obtain ⟨hlt, -⟩ := List.getElem?_eq_some_iff.mp h
  rw [(nodup_unmarked l).erase_eq_filter, unmarked, unmarked, List.filter_filter, List.length_set]
  refine List.filter_congr fun j _ => ?_
  by_cases he : i = j
  · subst he
    simp [hlt]
  · simp [List.getElem?_set_ne he, Ne.symm he]

theorem length_unmarked_set (h : l[i]? = some false) : (unmarked (l.set i true)).length + 1 = (unmarked l).length := by
  rw [unmarked_set h, List.length_erase_of_mem (mem_unmarked.mpr h)]
  have hpos := List.length_pos_of_mem (mem_unmarked.mpr h)
  omega

theorem unmarked_replicate (n : Nat) : unmarked (List.replicate n false) = List.range n := by
  rw [unmarked, List.length_replicate, List.filter_eq_self]
  intro i hi
  rw [List.mem_range] at hi
  simp [hi]

end LearnNote.Lib.Flags
