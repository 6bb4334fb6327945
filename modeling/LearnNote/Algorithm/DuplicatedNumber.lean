import Mathlib.Data.List.FinRange
import Mathlib.Data.Fin.VecNotation
import LearnNote.Lib.Orbits

namespace LearnNote.Algorithm

open Lib.Orbits

namespace DuplicatedNumber

variable {n : Nat}

/-- The while loop at i: whether it returned true, and the array. No result is out of fuel. -/
def whileNot (i : Fin n) : Nat → (Fin n → Fin n) → Option (Bool × (Fin n → Fin n))
  | 0, _ => none
  | fuel + 1, array =>
      if array i = i then some (false, array)
      else if array (array i) = array i then some (true, array)
      else
        let temp := array (array i)
        let array := Function.update array (array i) temp
        whileNot i fuel (Function.update array i temp)

def forEach (fuel : Nat) : List (Fin n) → (Fin n → Fin n) → Option Bool
  | [], _ => some false
  | i :: is, array => (whileNot i fuel array).bind fun r => if r.1 then some true else forEach fuel is r.2

/-- No array is the null pointer. -/
def isDuplicatedNumber (fuel : Nat) : Option (Fin n → Fin n) → Option Bool
  | none => some false
  | some array => forEach fuel (List.finRange n) array

def Duplicated (a : Fin n → Fin n) : Prop := ∃ i j, i ≠ j ∧ a i = a j

/-- The call returns, and says whether a value occurs twice. -/
def Decides (a : Fin n → Fin n) : Prop :=
  ∃ N r, (∀ fuel, N ≤ fuel → isDuplicatedNumber fuel (some a) = some r) ∧ (r = true ↔ Duplicated a)

/-- The array when the places below t have been settled. -/
def settled (a : Fin n → Fin n) (t : Nat) (v : Fin n) : Fin n := if v < t then v else a v

def walked (a : Fin n → Fin n) (i : Fin n) (k : Nat) : Fin n → Fin n :=
  Function.update (settled a i) i (a^[k + 1] i)

variable {a : Fin n → Fin n} {i v : Fin n} {k t fuel : Nat}

theorem settled_zero (a : Fin n → Fin n) : settled a 0 = a := by
  funext v
  exact if_neg (Nat.not_lt_zero _)

theorem settled_below (h : v.val < t) : settled a t v = v := if_pos h

theorem settled_above (h : t ≤ v.val) : settled a t v = a v := if_neg (Nat.not_lt.mpr h)

theorem walked_zero (a : Fin n → Fin n) (i : Fin n) : walked a i 0 = settled a i := by
  funext v
  by_cases hv : v = i
  · subst hv
    rw [walked, Function.update_self, settled_above le_rfl]
    rfl
  · exact Function.update_of_ne hv _ _

theorem walked_closed (h : a^[k + 1] i = i) : walked a i k = settled a (i + 1) := by
  funext v
  by_cases hv : v = i
  · subst hv
    rw [walked, Function.update_self, h, settled_below (Nat.lt_succ_self _)]
  · rw [walked, Function.update_of_ne hv]
    have hval : v.val ≠ i.val := fun he => hv (Fin.ext he)
    by_cases hlt : v.val < i.val
    · rw [settled_below hlt, settled_below (Nat.lt_succ_of_lt hlt)]
    · rw [settled_above (Nat.not_lt.mp hlt), settled_above (by omega)]

theorem walked_at (a : Fin n → Fin n) (i : Fin n) (k : Nat) : walked a i k i = a^[k + 1] i := Function.update_self _ _ _

theorem walked_next (h : i < a^[k + 1] i) : walked a i k (a^[k + 1] i) = a^[k + 2] i := by
  rw [walked, Function.update_of_ne h.ne', settled_above (Nat.le_of_lt h), Function.iterate_succ_apply' a (k + 1)]

theorem whileNot_closed (h : a^[k + 1] i = i) :
    whileNot i (fuel + 1) (walked a i k) = some (false, settled a (i + 1)) := by
  rw [whileNot, walked_at, if_pos h, walked_closed h]

theorem whileNot_stopped (h : a^[k + 1] i < i ∨ i < a^[k + 1] i ∧ a (a^[k + 1] i) = a^[k + 1] i) :
    whileNot i (fuel + 1) (walked a i k) = some (true, walked a i k) := by
  have hne : a^[k + 1] i ≠ i := h.elim (fun hlt => hlt.ne) (fun hgt => hgt.1.ne')
  have hfixed : walked a i k (a^[k + 1] i) = a^[k + 1] i := by
    rcases h with hlt | ⟨hgt, hfixed⟩
    · rw [walked, Function.update_of_ne hne, settled_below hlt]
    · rw [walked_next hgt, Function.iterate_succ_apply' a (k + 1), hfixed]
  rw [whileNot, walked_at, if_neg hne, if_pos hfixed]

theorem whileNot_passed (h : Passes a i k) :
    whileNot i (fuel + 1) (walked a i k) = whileNot i fuel (walked a i (k + 1)) := by
  obtain ⟨hlt, hfixed⟩ := h
  have hnext := walked_next hlt
  have hmove : walked a i k (a^[k + 1] i) ≠ a^[k + 1] i := by
    rw [hnext, Function.iterate_succ_apply' a (k + 1)]
    exact hfixed
  rw [whileNot, walked_at, if_neg hlt.ne', if_neg hmove]
  dsimp only
  -- the first assignment stores what is there already
  rw [Function.update_eq_self, hnext, walked, walked, Function.update_idem]

theorem whileNot_rounds (h : ∀ m < k, Passes a i m) :
    whileNot i (fuel + k) (settled a i) = whileNot i fuel (walked a i k) := by
  rw [← walked_zero]
  induction k generalizing fuel with
  | zero => rfl
  | succ k ih =>
      rw [Nat.add_succ, ← Nat.succ_add, ih (fun m hm => h m (Nat.lt_succ_of_lt hm)),
        whileNot_passed (h k k.lt_succ_self)]

theorem whileNot_closes (h : Closes a i) :
    ∃ N, ∀ fuel, N ≤ fuel → whileNot i fuel (settled a i) = some (false, settled a (i + 1)) := by
  obtain ⟨k, hk, hpasses⟩ := h.passes
  refine ⟨k + 1, fun fuel hfuel => ?_⟩
  obtain ⟨d, rfl⟩ : ∃ d, fuel = d + 1 + k := ⟨fuel - (k + 1), by omega⟩
  rw [whileNot_rounds hpasses, whileNot_closed hk]

theorem whileNot_escapes (h : Escapes a i) (hopen : ¬ Closes a i) :
    ∃ N array, ∀ fuel, N ≤ fuel → whileNot i fuel (settled a i) = some (true, array) := by
  obtain ⟨k, hk, hpasses⟩ := h.passes hopen
  refine ⟨k + 1, walked a i k, fun fuel hfuel => ?_⟩
  obtain ⟨d, rfl⟩ : ∃ d, fuel = d + 1 + k := ⟨fuel - (k + 1), by omega⟩
  rw [whileNot_rounds hpasses, whileNot_stopped hk]

theorem whileNot_forever (hopen : ¬ Closes a i) (hkept : ¬ Escapes a i) (fuel : Nat) :
    whileNot i fuel (settled a i) = none := by
  have hrounds : whileNot i (0 + fuel) (settled a i) = whileNot i 0 (walked a i fuel) :=
    whileNot_rounds fun m _ => passes_forever hopen hkept m
  rw [Nat.zero_add] at hrounds
  exact hrounds

def remaining (n t : Nat) : List (Fin n) := (List.finRange n).drop t

theorem remaining_cons (h : t < n) : remaining n t = ⟨t, h⟩ :: remaining n (t + 1) := by
  rw [remaining, List.drop_eq_getElem_cons (by simpa using h)]
  simp [remaining]

theorem remaining_nil (h : n ≤ t) : remaining n t = [] := List.drop_eq_nil_of_le (by simpa using h)

theorem forEach_closed (h : t < n) (hc : Closes a ⟨t, h⟩) :
    ∃ N, ∀ fuel, N ≤ fuel →
      forEach fuel (remaining n t) (settled a t) = forEach fuel (remaining n (t + 1)) (settled a (t + 1)) := by
  obtain ⟨N, hN⟩ := whileNot_closes hc
  refine ⟨N, fun fuel hfuel => ?_⟩
  have hwhile : whileNot ⟨t, h⟩ fuel (settled a t) = some (false, settled a (t + 1)) := hN fuel hfuel
  rw [remaining_cons h, forEach, hwhile]
  rfl

theorem forEach_closes (h : ∀ i : Fin n, i.val < t → Closes a i) (ht : t ≤ n) :
    ∃ N, ∀ fuel, N ≤ fuel →
      isDuplicatedNumber fuel (some a) = forEach fuel (remaining n t) (settled a t) := by
  induction t with
  | zero =>
      refine ⟨0, fun fuel _ => ?_⟩
      rw [settled_zero]
      rfl
  | succ t ih =>
      obtain ⟨N, hN⟩ := ih (fun i hi => h i (Nat.lt_succ_of_lt hi)) (Nat.le_of_succ_le ht)
      obtain ⟨M, hM⟩ := forEach_closed ht (h ⟨t, ht⟩ t.lt_succ_self)
      refine ⟨max N M, fun fuel hfuel => ?_⟩
      rw [hN fuel (by omega), hM fuel (by omega)]

theorem returns_false (h : ∀ i, Closes a i) :
    ∃ N, ∀ fuel, N ≤ fuel → isDuplicatedNumber fuel (some a) = some false := by
  obtain ⟨N, hN⟩ := forEach_closes (fun i _ => h i) le_rfl
  refine ⟨N, fun fuel hfuel => ?_⟩
  rw [hN fuel hfuel, remaining_nil le_rfl]
  rfl

theorem returns_true (h : ∀ j < i, Closes a j) (hopen : ¬ Closes a i) (hescapes : Escapes a i) :
    ∃ N, ∀ fuel, N ≤ fuel → isDuplicatedNumber fuel (some a) = some true := by
  obtain ⟨N, hN⟩ := forEach_closes h i.isLt.le
  obtain ⟨M, array, hM⟩ := whileNot_escapes hescapes hopen
  refine ⟨max N M, fun fuel hfuel => ?_⟩
  rw [hN fuel (by omega), remaining_cons i.isLt, forEach, hM fuel (by omega)]
  rfl

/-- From some fuel on, and so with any fuel that would have to be enough, there is no result. -/
theorem returns_never (h : ∀ j < i, Closes a j) (hopen : ¬ Closes a i) (hkept : ¬ Escapes a i) :
    ∃ N, ∀ fuel, N ≤ fuel → isDuplicatedNumber fuel (some a) = none := by
  obtain ⟨N, hN⟩ := forEach_closes h i.isLt.le
  refine ⟨N, fun fuel hfuel => ?_⟩
  rw [hN fuel hfuel, remaining_cons i.isLt, forEach, whileNot_forever hopen hkept]
  rfl

theorem exists_first_open (h : ¬ ∀ i, Closes a i) : ∃ i, ¬ Closes a i ∧ ∀ j < i, Closes a j := by
  obtain ⟨i₀, hi₀⟩ := not_forall.mp h
  obtain ⟨i, hi, hmin⟩ := wellFounded_lt.has_min {i | ¬ Closes a i} ⟨i₀, hi₀⟩
  exact ⟨i, hi, fun j hj => not_not.mp fun hopen => hmin j hopen hj⟩

theorem Decides.unique {r : Bool} (h : Decides a)
    (hr : ∃ N, ∀ fuel, N ≤ fuel → isDuplicatedNumber fuel (some a) = some r) : r = true ↔ Duplicated a := by
  obtain ⟨N, r', hN, hiff⟩ := h
  obtain ⟨M, hM⟩ := hr
  obtain rfl : r = r' := Option.some.inj ((hM (max N M) (by omega)).symm.trans (hN _ (by omega)))
  exact hiff

/-- The answer is right for the identity, and for an array with a value that occurs twice if
from its first place that is not the least of a cycle the walk comes to a fixed point or below. -/
theorem decides_iff (a : Fin n → Fin n) :
    Decides a ↔ (∀ i, a i = i) ∨
      Duplicated a ∧ ∀ i, ¬ Closes a i → (∀ j < i, Closes a j) → Escapes a i := by
  by_cases hall : ∀ i, Closes a i
  · have hid := eq_self_of_closes hall
    obtain ⟨N, hN⟩ := returns_false hall
    refine iff_of_true ⟨N, false, hN, ?_⟩ (.inl hid)
    refine iff_of_false Bool.false_ne_true ?_
    rintro ⟨i, j, hne, hij⟩
    rw [hid, hid] at hij
    exact hne hij
  · obtain ⟨i, hopen, hbelow⟩ := exists_first_open hall
    have hnotid : ¬ ∀ i, a i = i := fun hid => hopen (closes_of_eq_self (hid i))
    rw [or_iff_right hnotid]
    by_cases hescapes : Escapes a i
    · have htrue := returns_true hbelow hopen hescapes
      constructor
      · intro hd
        refine ⟨(hd.unique htrue).mp rfl, fun i' hopen' hbelow' => ?_⟩
        obtain rfl : i' = i := le_antisymm (not_lt.mp fun hlt => hopen (hbelow' i hlt))
          (not_lt.mp fun hlt => hopen' (hbelow i' hlt))
        exact hescapes
      · rintro ⟨hdup, -⟩
        obtain ⟨N, hN⟩ := htrue
        exact ⟨N, true, hN, iff_of_true rfl hdup⟩
    · refine iff_of_false ?_ (fun h => hescapes (h.2 i hopen hbelow))
      rintro ⟨N, r, hN, -⟩
      obtain ⟨M, hM⟩ := returns_never hbelow hopen hescapes
      cases (hM (max N M) (by omega)).symm.trans (hN _ (by omega))

/-- Of two places that hold each other's number the second is taken for a duplicate. -/
theorem exchanged_pair_reported :
    (∀ fuel, 3 ≤ fuel → isDuplicatedNumber fuel (some ![(1 : Fin 2), 0]) = some true) ∧
      ¬ Duplicated ![(1 : Fin 2), 0] ∧ ¬ Decides ![(1 : Fin 2), 0] := by
  have hrun : ∀ fuel, 3 ≤ fuel → isDuplicatedNumber fuel (some ![(1 : Fin 2), 0]) = some true := by
    intro fuel hfuel
    obtain ⟨d, rfl⟩ : ∃ d, fuel = d + 3 := ⟨fuel - 3, by omega⟩
    rfl
  have hinj : ¬ Duplicated ![(1 : Fin 2), 0] := by
    rw [Duplicated]
    decide
  exact ⟨hrun, hinj, fun hd => hinj ((hd.unique ⟨3, hrun⟩).mp rfl)⟩

end DuplicatedNumber

end LearnNote.Algorithm
