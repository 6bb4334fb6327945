import Mathlib.Logic.Function.Basic
import Mathlib.Order.Lattice

namespace LearnNote.Lib.LeastSolution

variable {V : Type*} {Φ : (V → Nat) → V → Nat} {p q : V → Nat} {v : V}

/-- More of the unknowns is not less of what they are to be. -/
def Grows (Φ : (V → Nat) → V → Nat) : Prop := ∀ p q : V → Nat, (∀ v, p v ≤ q v) → ∀ v, Φ p v ≤ Φ q v

def Below (Φ : (V → Nat) → V → Nat) (p : V → Nat) : Prop := ∀ q, Φ q = q → ∀ v, p v ≤ q v

/-- The smallest numbers that solve the equations. -/
structure Least (Φ : (V → Nat) → V → Nat) (p : V → Nat) : Prop where
  solves : Φ p = p
  below : Below Φ p

theorem Least.unique (hp : Least Φ p) (hq : Least Φ q) : p = q := by
  funext v
  exact le_antisymm (hp.below q hq.solves v) (hq.below p hp.solves v)

theorem Below.zero : Below Φ fun _ => 0 := fun _ _ _ => Nat.zero_le _

theorem Below.raise [DecidableEq V] (hΦ : Grows Φ) (h : Below Φ p) (hv : p v < Φ p v) :
    Below Φ (Function.update p v (p v + 1)) := by
  intro q hq u
  by_cases he : u = v
  · subst he
    rw [Function.update_self]
    calc p u + 1 ≤ Φ p u := hv
      _ ≤ Φ q u := hΦ p q (h q hq) u
      _ = q u := congrFun hq u
  · rw [Function.update_of_ne he]
    exact h q hq u

end LearnNote.Lib.LeastSolution
