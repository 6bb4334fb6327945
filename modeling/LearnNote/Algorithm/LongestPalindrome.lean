import Mathlib.Data.List.Infix
import Mathlib.Data.List.Palindrome
import LearnNote.Algorithm.CommonSubstring
import LearnNote.Lib.Table

namespace LearnNote.Algorithm.LongestPalindrome

open Lib
open CommonSubstring (charAt charAt_of_lt)

structure Vars where
  dp : Table Int
  max_len : Int

def asSize (n : Int) : Nat := (n % 2 ^ 64).toNat

/-- What an entry is set to where the two characters are equal. The difference is one of sizes. -/
def extend (dp : Table Int) (i : Nat) (j : Int) : Option (Table Int) :=
  let distance := sizeT (asSize j + (2 ^ 64 - i))
  if distance = 1 then dp.set i j 2
  else if 1 < distance then (dp.get (sizeT (i + 1)) (j - 1)).bind fun x => dp.set i j (x + 2)
  else some dp

/-- The body of the inner loop. No result, here and below, is an access outside the string or dp, a
negative size, or out of fuel. -/
def compare (a : List UInt8) (i : Nat) (s : Vars) (j : Int) : Option Vars :=
  (charAt a i).bind fun c => (charAt a (asSize j)).bind fun d =>
    if c = d then (extend s.dp i j).bind fun dp => (dp.get i j).map fun x => ⟨dp, max s.max_len x⟩
    else (s.dp.set i j 0).map fun dp => { s with dp := dp }

/-- One round of the outer loop. j begins with i + 1 as an int. -/
def round (a : List UInt8) (n : Int) (i : Nat) (s : Vars) : Option Vars :=
  (Int.range (int32 (sizeT (i + 1))) n).foldlM (compare a i) s

/-- The outer loop. i is a size, and so its condition always holds, and after 0 comes 2 ^ 64 - 1. -/
def forDown (a : List UInt8) (n : Int) : Nat → Nat → Vars → Option Vars
  | 0, _, _ => none
  | fuel + 1, i, s =>
      if 0 ≤ i then (round a n i s).bind (forDown a n fuel (sizeT (i + (2 ^ 64 - 1)))) else some s

def longestPalindromicSubString (fuel : Nat) (a : List UInt8) : Option Int :=
  let n := int32 a.length
  (Table.make n n 0).bind fun dp =>
    ((Int.range 0 n).foldlM (fun (dp : Table Int) i => dp.set i i 1) dp).bind fun dp =>
      (forDown a n fuel (asSize (n - 2)) ⟨dp, 1⟩).map Vars.max_len

/-- The length of the longest contiguous part that is a palindrome. -/
structure Longest (a : List UInt8) (r : Int) : Prop where
  exists_palindrome : ∃ t : List UInt8, t <:+: a ∧ t.Palindrome ∧ r = t.length
  le : ∀ t : List UInt8, t <:+: a → t.Palindrome → (t.length : Int) ≤ r

def Finds (a : List UInt8) : Prop :=
  ∃ N, ∀ fuel, N ≤ fuel → ∃ r, longestPalindromicSubString fuel a = some r ∧ Longest a r

variable {a : List UInt8} {n : Int} {i fuel : Nat} {s : Vars}

theorem forDown_eq_none (fuel i : Nat) (s : Vars) : forDown a n fuel i s = none := by
  induction fuel generalizing i s with
  | zero => rfl
  | succ fuel ih =>
      rw [forDown, if_pos (Nat.zero_le i)]
      cases round a n i s with
      | none => rfl
      | some s => exact ih _ s

theorem asSize_of_mem {j : Int} (h : 0 ≤ j) (h' : j < 2 ^ 64) : asSize j = j.toNat := by
  rw [asSize, Int.emod_eq_of_lt h h']

def Square (n : Int) (dp : Table Int) : Prop := dp.rows = n ∧ dp.cols = n

theorem Square.get {dp : Table Int} (h : Square n dp) {i j : Int} (hi : 0 ≤ i ∧ i < n) (hj : 0 ≤ j ∧ j < n) :
    ∃ x, dp.get i j = some x := ⟨_, if_pos (by rw [h.1, h.2]; exact ⟨hi, hj⟩)⟩

theorem Square.set {dp : Table Int} (h : Square n dp) {i j : Int} (hi : 0 ≤ i ∧ i < n) (hj : 0 ≤ j ∧ j < n) (x : Int) :
    ∃ dp', dp.set i j x = some dp' ∧ Square n dp' := ⟨_, if_pos (by rw [h.1, h.2]; exact ⟨hi, hj⟩), h⟩

theorem Square.extend {dp : Table Int} (h : Square n dp) (hmax : n < 2 ^ 31) {j : Int} (hij : i + 1 ≤ j) (hj : j < n) :
    ∃ dp', extend dp i j = some dp' ∧ Square n dp' := by
  have hnext : sizeT (i + 1) = i + 1 := sizeT_of_lt (by omega)
  rw [LongestPalindrome.extend]
  split_ifs
  · exact h.set (by omega) (by omega) 2
  · obtain ⟨x, hx⟩ := h.get (i := (i + 1 : Nat)) (j := j - 1) (by omega) (by omega)
    rw [hnext, hx, Option.bind_some]
    exact h.set (by omega) (by omega) (x + 2)
  · exact ⟨dp, rfl, h⟩

theorem compare_returns (hlen : n ≤ a.length) (hmax : n < 2 ^ 31) (hdp : Square n s.dp) {j : Int}
    (hij : i + 1 ≤ j) (hj : j < n) : ∃ t, compare a i s j = some t ∧ Square n t.dp := by
  obtain ⟨c, hc⟩ := charAt_of_lt (by omega : i < a.length)
  obtain ⟨d, hd⟩ := charAt_of_lt (by omega : j.toNat < a.length)
  rw [compare, hc, Option.bind_some, asSize_of_mem (by omega) (by omega), hd, Option.bind_some]
  split_ifs
  · obtain ⟨dp, hext, hsquare⟩ := hdp.extend hmax hij hj
    obtain ⟨x, hx⟩ := hsquare.get (i := i) (j := j) (by omega) (by omega)
    exact ⟨_, by rw [hext, Option.bind_some, hx, Option.map_some], hsquare⟩
  · obtain ⟨dp, hset, hsquare⟩ := hdp.set (i := i) (j := j) (by omega) (by omega) 0
    exact ⟨_, by rw [hset, Option.map_some], hsquare⟩

theorem round_returns (hlen : n ≤ a.length) (hmax : n < 2 ^ 31) (hdp : Square n s.dp) (hi : i < n) :
    ∃ t, round a n i s = some t ∧ Square n t.dp := by
  have hnext : int32 (sizeT (i + 1)) = i + 1 := by
    rw [sizeT_of_lt (by omega), int32_of_mem (by omega) (by omega)]
    omega
  have hstart : (i : Int) + 1 ≤ n := by omega
  rw [round, hnext]
  exact Loops.forInt_spec (I := fun _ (t : Vars) => Square n t.dp) hstart hdp fun j hij hj t ht =>
    compare_returns hlen hmax ht hij hj

/-- After the round for 0 the outer loop goes on with 2 ^ 64 - 1, where the string has no character. -/
theorem rounds_then_outside (hn : 0 < n) (hlen : n ≤ a.length) (hmax : a.length < 2 ^ 31) (hdp : Square n s.dp)
    (hi : i < n) : ∃ t, (∀ fuel, forDown a n (fuel + (i + 1)) i s = forDown a n fuel (2 ^ 64 - 1) t) ∧
      round a n (2 ^ 64 - 1) t = none := by
  induction i generalizing s with
  | zero =>
      obtain ⟨t, ht, -⟩ := round_returns (i := 0) hlen (by omega) hdp hi
      refine ⟨t, fun fuel => ?_, ?_⟩
      · rw [forDown, if_pos le_rfl, ht, Option.bind_some]
        rfl
      · have hfirst : Int.range (int32 (sizeT (2 ^ 64 - 1 + 1))) n = 0 :: Int.range 1 n := Loops.range_eq_cons hn
        have houtside : charAt a (2 ^ 64 - 1) = none := by
          rw [charAt, if_neg (by omega), List.getElem?_eq_none (by omega)]
        rw [round, hfirst, List.foldlM_cons, compare, houtside]
        rfl
  | succ i ih =>
      obtain ⟨t, ht, hsquare⟩ := round_returns (i := i + 1) hlen (by omega) hdp hi
      obtain ⟨u, hu, houtside⟩ := ih hsquare (by omega)
      refine ⟨u, fun fuel => ?_, houtside⟩
      have hdown : sizeT (i + 1 + (2 ^ 64 - 1)) = i := sizeT_sub (Nat.le_add_left 1 i) (by omega)
      rw [← hu, ← Nat.add_assoc, forDown, if_pos (Nat.zero_le _), ht, Option.bind_some, hdown]

theorem never_finds (a : List UInt8) : ¬ Finds a := by
  rintro ⟨N, hN⟩
  obtain ⟨r, hr, -⟩ := hN N le_rfl
  rw [longestPalindromicSubString] at hr
  obtain ⟨dp, -, hr⟩ := Option.bind_eq_some_iff.mp hr
  obtain ⟨dp, -, hr⟩ := Option.bind_eq_some_iff.mp hr
  obtain ⟨s, hs, -⟩ := Option.map_eq_some_iff.mp hr
  cases hs.symm.trans (forDown_eq_none N _ _)

theorem one_not_found : ¬ ∀ a : List UInt8, a ≠ [] → Finds a := fun h => never_finds [97] (h [97] (List.cons_ne_nil _ _))

end LearnNote.Algorithm.LongestPalindrome
