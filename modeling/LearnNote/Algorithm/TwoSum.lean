import Mathlib.Data.Int.ConditionallyCompleteOrder
import Mathlib.Order.ConditionallyCompleteLattice.Basic
import Mathlib.Order.Fin.Basic
import LearnNote.Lib.CheckedInt
import LearnNote.Lib.Table
import LearnNote.Lib.Unsigned

namespace LearnNote.Algorithm.TwoSum

open Lib

variable {len : Nat}

/-- No result, here and below, is an access outside the vector, a sum that overflows, or out of fuel. -/
def sumAt (nums : Fin len → Int) (left right : Int) : Option Int :=
  (elementAt nums left).bind fun x => (elementAt nums right).bind fun y => checkedInt (x + y)

def whileApart (nums : Fin len → Int) (tgt : Int) : Nat → Int → Int → Option (Int × Int)
  | 0, _, _ => none
  | fuel + 1, left, right =>
      if left < right then
        (sumAt nums left right).bind fun sum =>
          if sum = tgt then some (left, right)
          else if sum < tgt then whileApart nums tgt fuel (left + 1) right
          else whileApart nums tgt fuel left (right - 1)
      else some (-1, -1)

def twoSum (fuel : Nat) (nums : Fin len → Int) (tgt : Int) : Option (Int × Int) :=
  whileApart nums tgt fuel 0 (lastIndex len)

def Solution (nums : Fin len → Int) (tgt : Int) (p q : Fin len) : Prop := p < q ∧ nums p + nums q = tgt

def Answer (nums : Fin len → Int) (tgt : Int) (r : Int × Int) : Prop :=
  (∃ p q : Fin len, Solution nums tgt p q ∧ r = ((p.val : Int), (q.val : Int))) ∨
    (∀ p q, ¬ Solution nums tgt p q) ∧ r = (-1, -1)

def Finds (nums : Fin len → Int) (tgt : Int) : Prop :=
  ∃ N r, (∀ fuel, N ≤ fuel → twoSum fuel nums tgt = some r) ∧ Answer nums tgt r

def Enclosed (nums : Fin len → Int) (tgt left right : Int) : Prop :=
  ∀ p q : Fin len, Solution nums tgt p q → left ≤ p.val ∧ (q.val : Int) ≤ right

variable {nums : Fin len → Int} {tgt left right : Int} {a b : Fin len} {fuel : Nat}

theorem sumAt_of_mem (ha : (a.val : Int) = left) (hb : (b.val : Int) = right)
    (hsum : intMin ≤ nums a + nums b ∧ nums a + nums b ≤ intMax) : sumAt nums left right = some (nums a + nums b) := by
  rw [sumAt, elementAt_of_mem a ha, Option.bind_some, elementAt_of_mem b hb, Option.bind_some,
    checkedInt_of_mem hsum.1 hsum.2]

theorem Enclosed.pass_left (h : Enclosed nums tgt a b.val) (hsorted : Monotone nums) (hlt : nums a + nums b < tgt) :
    Enclosed nums tgt (a.val + 1) b.val := by
  intro p q hpq
  obtain ⟨hap, hqb⟩ := h p q hpq
  have hne : p ≠ a := by
    rintro rfl
    have hle : nums q ≤ nums b := hsorted (Fin.le_def.mpr (by omega))
    have hsum := hpq.2
    omega
  have hval : p.val ≠ a.val := fun he => hne (Fin.ext he)
  omega

theorem Enclosed.pass_right (h : Enclosed nums tgt a b.val) (hsorted : Monotone nums) (hlt : tgt < nums a + nums b) :
    Enclosed nums tgt a.val (b.val - 1) := by
  intro p q hpq
  obtain ⟨hap, hqb⟩ := h p q hpq
  have hne : q ≠ b := by
    rintro rfl
    have hle : nums a ≤ nums p := hsorted (Fin.le_def.mpr (by omega))
    have hsum := hpq.2
    omega
  have hval : q.val ≠ b.val := fun he => hne (Fin.ext he)
  omega

theorem Enclosed.answer (h : Enclosed nums tgt left right) (hdone : right ≤ left) : Answer nums tgt (-1, -1) := by
  refine Or.inr ⟨fun p q hpq => ?_, rfl⟩
  obtain ⟨hleft, hright⟩ := h p q hpq
  have hlt := Fin.lt_def.mp hpq.1
  omega

theorem whileApart_returns (hsorted : Monotone nums)
    (hsums : ∀ p q, p < q → intMin ≤ nums p + nums q ∧ nums p + nums q ≤ intMax) {d : Nat}
    (hd : (right - left).toNat = d) (hleft : 0 ≤ left) (hright : right < len) (h : Enclosed nums tgt left right) :
    ∃ r, (∀ fuel, d < fuel → whileApart nums tgt fuel left right = some r) ∧ Answer nums tgt r := by
  induction d generalizing left right with
  | zero =>
      refine ⟨(-1, -1), Loops.returns_last fun fuel => ?_, h.answer (by omega)⟩
      rw [whileApart, if_neg (by omega)]
  | succ d ih =>
      have hlt : left < right := by omega
      obtain ⟨a, ha⟩ : ∃ a : Fin len, (a.val : Int) = left := ⟨⟨left.toNat, by omega⟩, Int.toNat_of_nonneg hleft⟩
      obtain ⟨b, hb⟩ : ∃ b : Fin len, (b.val : Int) = right := ⟨⟨right.toNat, by omega⟩, Int.toNat_of_nonneg (by omega)⟩
      subst ha hb
      have hab : a < b := Fin.lt_def.mpr (by omega)
      have hat := sumAt_of_mem rfl rfl (hsums a b hab)
      rcases lt_trichotomy (nums a + nums b) tgt with hsum | hsum | hsum
      · obtain ⟨r, hloop, hr⟩ := ih (by omega) (by omega) hright (h.pass_left hsorted hsum)
        refine ⟨r, Loops.returns_succ (fun fuel => ?_) hloop, hr⟩
        rw [whileApart, if_pos hlt, hat, Option.bind_some, if_neg hsum.ne, if_pos hsum]
      · refine ⟨(a.val, b.val), Loops.returns_last fun fuel => ?_, Or.inl ⟨a, b, ⟨hab, hsum⟩, rfl⟩⟩
        rw [whileApart, if_pos hlt, hat, Option.bind_some, if_pos hsum]
      · obtain ⟨r, hloop, hr⟩ := ih (by omega) hleft (by omega) (h.pass_right hsorted hsum)
        refine ⟨r, Loops.returns_succ (fun fuel => ?_) hloop, hr⟩
        rw [whileApart, if_pos hlt, hat, Option.bind_some, if_neg hsum.ne', if_neg hsum.le.not_gt]

theorem finds_of_sorted (hlen : len ≤ 2 ^ 31) (hsorted : Monotone nums)
    (hsums : ∀ p q, p < q → intMin ≤ nums p + nums q ∧ nums p + nums q ≤ intMax) (tgt : Int) : Finds nums tgt := by
  have hall : Enclosed nums tgt 0 (len - 1) := fun p q _ => by omega
  have hd : ((len : Int) - 1 - 0).toNat = len - 1 := by omega
  obtain ⟨r, hloop, hr⟩ := whileApart_returns hsorted hsums hd le_rfl (by omega) hall
  refine ⟨len - 1 + 1, r, fun fuel hfuel => ?_, hr⟩
  rw [twoSum, lastIndex_of_le hlen]
  exact hloop fuel hfuel

theorem finds_of_sorted_three : Finds (fun p : Fin 3 => (p.val : Int)) 3 :=
  finds_of_sorted (by decide) (fun _ _ h => Int.ofNat_le.mpr h) (by decide) 3

/-- 2 ^ 31 + 1 zeros. As an int the last index is negative. -/
theorem long_vector_not_found : ¬ ∀ (n : Nat) (nums : Fin n → Int), Monotone nums →
    (∀ p q, p < q → intMin ≤ nums p + nums q ∧ nums p + nums q ≤ intMax) → ∀ tgt, Finds nums tgt := by
  intro hall
  obtain ⟨N, r, hcall, hr⟩ := hall (2 ^ 31 + 1) (fun _ => 0) (fun _ _ _ => le_rfl) (fun _ _ _ => by decide) 0
  have hright : lastIndex (2 ^ 31 + 1) = -2147483648 := by decide
  have hreturn := hcall (N + 1) N.le_succ
  rw [twoSum, hright, whileApart, if_neg (by omega), Option.some_inj] at hreturn
  subst hreturn
  rcases hr with ⟨p, q, -, heq⟩ | ⟨hnone, -⟩
  · have hleft := congrArg Prod.fst heq
    simp only at hleft
    omega
  · exact hnone ⟨0, by omega⟩ ⟨1, by omega⟩ ⟨Fin.lt_def.mpr Nat.one_pos, rfl⟩

end LearnNote.Algorithm.TwoSum
