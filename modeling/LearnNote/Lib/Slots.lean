import Mathlib.Data.List.Perm.Basic

namespace LearnNote.Lib.Slots

variable {α β : Type*} {l : List α} {i : Nat} {x : α}

theorem filterMap_set (f : α → Option β) (y : α) (hi : l[i]? = some x) :
    ((f x).toList ++ (l.set i y).filterMap f).Perm ((f y).toList ++ l.filterMap f) := by
  induction l generalizing i with
  | nil => cases hi
  | cons z l ih =>
      cases i with
      | zero =>
          obtain rfl : z = x := by simpa using hi
          rw [List.set_cons_zero, List.filterMap_cons, List.filterMap_cons]
          cases f z <;> cases f y <;> simp [List.Perm.swap]
      | succ i =>
          have hl := ih (i := i) (by simpa using hi)
          rw [List.set_cons_succ, List.filterMap_cons, List.filterMap_cons]
          cases f z with
          | none => exact hl
          | some b =>
              apply List.perm_middle.trans
              exact (hl.cons b).trans List.perm_middle.symm

theorem getElem?_modify (f : α → α) (l : List α) (i j : Nat) :
    (l.modify i f)[j]? = if i = j then l[j]?.map f else l[j]? := by
  rw [List.getElem?_modify]
  split <;> simp

end LearnNote.Lib.Slots
