import Mathlib.Order.Lattice

namespace LearnNote

def intMax : Int := 2147483647

def intMin : Int := -2147483648

/-- The result of an operation on ints. Where it overflows there is none. -/
def checkedInt (n : Int) : Option Int := if intMin ≤ n ∧ n ≤ intMax then some n else none

variable {n m : Int}

theorem checkedInt_of_mem (h : intMin ≤ n) (h' : n ≤ intMax) : checkedInt n = some n := if_pos ⟨h, h'⟩

theorem checkedInt_eq_some : checkedInt n = some m ↔ (intMin ≤ n ∧ n ≤ intMax) ∧ n = m := by
  rw [checkedInt, Option.ite_none_right_eq_some, Option.some_inj]

end LearnNote
