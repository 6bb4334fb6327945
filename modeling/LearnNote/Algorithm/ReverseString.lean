import LearnNote.Algorithm.QuickSort
import LearnNote.Lib.Loops
import LearnNote.Lib.Table

namespace LearnNote.Algorithm.ReverseString

open Lib
open QuickSort (slot)

variable {len : Nat}

/-- No result, here and below, is an access outside the vector or out of fuel. -/
def swap (left right : Int) (s : Fin len → UInt8) : Option (Fin len → UInt8) :=
  (slot len left).bind fun k => (slot len right).map fun l => s ∘ Equiv.swap k l

def whileSwap : Nat → Int → Int → (Fin len → UInt8) → Option (Fin len → UInt8)
  | 0, _, _, _ => none
  | fuel + 1, left, right, s =>
      if left < right then (swap left right s).bind (whileSwap fuel (left + 1) (right - 1)) else some s

def reverseString (fuel : Nat) (s : Fin len → UInt8) : Option (Fin len → UInt8) := whileSwap fuel 0 (lastIndex len) s

def whileSame (s : Fin len → UInt8) : Nat → Int → Int → Option Bool
  | 0, _, _ => none
  | fuel + 1, left, right =>
      if left < right then
        (elementAt s left).bind fun x => (elementAt s right).bind fun y =>
          if x ≠ y then some false else whileSame s fuel (left + 1) (right - 1)
      else some true

def isPalindrome (fuel : Nat) (s : Fin len → UInt8) : Option Bool := whileSame s fuel 0 (lastIndex len)

/-- The place that the element at an index comes from when a vector is turned round up to
the last index. -/
def mirror (i : Fin len) : Fin len :=
  if h : (i.val : Int) ≤ lastIndex len then
    ⟨(lastIndex len - i.val).toNat, by
      have := lastIndex_lt len
      omega⟩
  else i

theorem mirror_of_le {i : Fin len} (h : (i.val : Int) ≤ lastIndex len) :
    ((mirror i).val : Int) = lastIndex len - i.val := by
  have hpos : 0 ≤ lastIndex len - i.val := by omega
  rw [mirror, dif_pos h]
  simp only [Int.toNat_of_nonneg hpos]

theorem mirror_of_lt {i : Fin len} (h : lastIndex len < i.val) : mirror i = i := by
  rw [mirror, dif_neg (by omega)]

theorem mirror_mirror (i : Fin len) : mirror (mirror i) = i := by
  rcases Int.lt_or_le (lastIndex len) i.val with hlt | hle
  · rw [mirror_of_lt hlt, mirror_of_lt hlt]
  · have hm := mirror_of_le hle
    have hmm : ((mirror (mirror i)).val : Int) = lastIndex len - (mirror i).val := mirror_of_le (by omega)
    apply Fin.ext
    omega

def exchanged (k : Int) (i : Fin len) : Fin len := if i.val < k ∨ lastIndex len - k < i.val then mirror i else i

variable {s t : Fin len → UInt8} {k : Int} {fuel : Nat}

theorem exchanged_zero (i : Fin len) : exchanged 0 i = i := by
  rw [exchanged]
  split
  · exact mirror_of_lt (by omega)
  · rfl

theorem exchanged_half (h : lastIndex len - k ≤ k) (i : Fin len) : exchanged k i = mirror i := by
  rw [exchanged]
  split
  · rfl
  · have hm : ((mirror i).val : Int) = lastIndex len - i.val := mirror_of_le (by omega)
    apply Fin.ext
    omega

theorem exchanged_succ {a b : Fin len} (ha : (a.val : Int) = k) (hb : (b.val : Int) = lastIndex len - k)
    (hlt : k < lastIndex len - k) : exchanged k ∘ Equiv.swap a b = exchanged (k + 1) := by
  have hma : mirror a = b := by
    have hm : ((mirror a).val : Int) = lastIndex len - a.val := mirror_of_le (by omega)
    apply Fin.ext
    omega
  have hmb : mirror b = a := by rw [← hma, mirror_mirror]
  funext i
  rw [Function.comp_apply]
  by_cases hia : i = a
  · subst hia
    rw [Equiv.swap_apply_left, exchanged, exchanged, if_neg (by omega), if_pos (by omega), hma]
  · by_cases hib : i = b
    · subst hib
      rw [Equiv.swap_apply_right, exchanged, exchanged, if_neg (by omega), if_pos (by omega), hmb]
    · have hva : i.val ≠ a.val := fun he => hia (Fin.ext he)
      have hvb : i.val ≠ b.val := fun he => hib (Fin.ext he)
      rw [Equiv.swap_apply_of_ne_of_ne hia hib, exchanged, exchanged]
      by_cases hin : (i.val : Int) < k ∨ lastIndex len - k < i.val
      · rw [if_pos hin, if_pos (by omega)]
      · rw [if_neg hin, if_neg (by omega)]

theorem slot_of_mem (a : Fin len) (ha : (a.val : Int) = k) : slot len k = some a := by
  have hin : 0 ≤ k ∧ k < len := by omega
  rw [slot, dif_pos hin]
  congr 1
  apply Fin.ext
  show k.toNat = a.val
  omega

theorem exists_ends (hk : 0 ≤ k) (hlt : k < lastIndex len - k) :
    ∃ a b : Fin len, (a.val : Int) = k ∧ (b.val : Int) = lastIndex len - k := by
  have hlast := lastIndex_lt len
  have hpos : 0 ≤ lastIndex len - k := by omega
  refine ⟨⟨k.toNat, by omega⟩, ⟨(lastIndex len - k).toNat, by omega⟩, ?_, ?_⟩
  · simp only [Int.toNat_of_nonneg hk]
  · simp only [Int.toNat_of_nonneg hpos]

theorem whileSwap_exchanges (hk : 0 ≤ k) {d : Nat} (hd : (lastIndex len - k - k).toNat ≤ d) :
    ∀ fuel, d < fuel → whileSwap fuel k (lastIndex len - k) (s ∘ exchanged k) = some (s ∘ mirror) := by
  induction d generalizing k with
  | zero =>
      apply Loops.returns_last
      intro fuel
      have hdone : ¬ k < lastIndex len - k := by omega
      rw [whileSwap, if_neg hdone, funext (exchanged_half (by omega))]
  | succ d ih =>
      intro fuel hfuel
      obtain ⟨fuel, rfl⟩ : ∃ n, fuel = n + 1 := ⟨fuel - 1, by omega⟩
      rw [whileSwap]
      split
      next hlt =>
        obtain ⟨a, b, ha, hb⟩ := exists_ends hk hlt
        rw [swap, slot_of_mem a ha, Option.bind_some, slot_of_mem b hb, Option.map_some, Option.bind_some,
          Function.comp_assoc, exchanged_succ ha hb hlt, show lastIndex len - k - 1 = lastIndex len - (k + 1) by omega]
        exact ih (by omega) (by omega) fuel (by omega)
      next hdone => rw [funext (exchanged_half (by omega))]

theorem reverseString_mirror (s : Fin len → UInt8) (hfuel : len < fuel) : reverseString fuel s = some (s ∘ mirror) := by
  have hlast := lastIndex_lt len
  have hrun := whileSwap_exchanges (s := s) (k := 0) (d := len) le_rfl (by omega) fuel hfuel
  rw [funext exchanged_zero, Int.sub_zero] at hrun
  exact hrun

theorem mirror_ends {a b : Fin len} (ha : (a.val : Int) = k) (hb : (b.val : Int) = lastIndex len - k) :
    mirror a = b := by
  have hlt : (b.val : Int) < len := by omega
  have hm : ((mirror a).val : Int) = lastIndex len - a.val := mirror_of_le (by omega)
  apply Fin.ext
  omega

def Same (s : Fin len → UInt8) (k : Int) : Prop :=
  ∀ i : Fin len, i.val < k ∨ lastIndex len - k < i.val → s (mirror i) = s i

theorem Same.half (h : Same s k) (hk : lastIndex len - k ≤ k) : s ∘ mirror = s := by
  funext i
  have hmirror := exchanged_half hk i
  rw [Function.comp_apply, ← hmirror, exchanged]
  split
  next hin => exact h i hin
  next => rfl

theorem Same.succ {a b : Fin len} (h : Same s k) (ha : (a.val : Int) = k) (hb : (b.val : Int) = lastIndex len - k)
    (heq : s a = s b) : Same s (k + 1) := by
  have hma := mirror_ends ha hb
  have hmb : mirror b = a := by rw [← hma, mirror_mirror]
  intro i hi
  by_cases hia : i = a
  · rw [hia, hma]
    exact heq.symm
  · by_cases hib : i = b
    · rw [hib, hmb]
      exact heq
    · have hva : i.val ≠ a.val := fun he => hia (Fin.ext he)
      have hvb : i.val ≠ b.val := fun he => hib (Fin.ext he)
      exact h i (by omega)

theorem whileSame_decides (hk : 0 ≤ k) (hsame : Same s k) {d : Nat} (hd : (lastIndex len - k - k).toNat ≤ d) :
    ∃ r, (∀ fuel, d < fuel → whileSame s fuel k (lastIndex len - k) = some r) ∧ (r = true ↔ s ∘ mirror = s) := by
  induction d generalizing k with
  | zero =>
      refine ⟨true, Loops.returns_last fun fuel => ?_, iff_of_true rfl (hsame.half (by omega))⟩
      have hdone : ¬ k < lastIndex len - k := by omega
      rw [whileSame, if_neg hdone]
  | succ d ih =>
      by_cases hlt : k < lastIndex len - k
      · obtain ⟨a, b, ha, hb⟩ := exists_ends hk hlt
        have hround : ∀ fuel, whileSame s (fuel + 1) k (lastIndex len - k) =
            if s a ≠ s b then some false else whileSame s fuel (k + 1) (lastIndex len - (k + 1)) := by
          intro fuel
          rw [whileSame, if_pos hlt, elementAt_of_mem a ha, Option.bind_some, elementAt_of_mem b hb, Option.bind_some,
            Int.sub_sub]
        by_cases heq : s a = s b
        · obtain ⟨r, hr, hiff⟩ := ih (by omega) (hsame.succ ha hb heq) (by omega)
          refine ⟨r, fun fuel hfuel => ?_, hiff⟩
          obtain ⟨fuel, rfl⟩ : ∃ n, fuel = n + 1 := ⟨fuel - 1, by omega⟩
          rw [hround, if_neg (not_not.mpr heq)]
          exact hr fuel (by omega)
        · refine ⟨false, Loops.returns_last fun fuel => ?_, iff_of_false nofun fun h => heq ?_⟩
          · rw [hround, if_pos heq]
          · rw [← mirror_ends ha hb]
            exact (congrFun h a).symm
      · refine ⟨true, Loops.returns_last fun fuel => ?_, iff_of_true rfl (hsame.half (by omega))⟩
        rw [whileSame, if_neg hlt]

theorem isPalindrome_mirror (s : Fin len → UInt8) :
    ∃ r, (∀ fuel, len < fuel → isPalindrome fuel s = some r) ∧ (r = true ↔ s ∘ mirror = s) := by
  have hlast := lastIndex_lt len
  have hnone : Same s 0 := by
    intro i hi
    rw [mirror_of_lt (by omega)]
  obtain ⟨r, hrun, hr⟩ := whileSame_decides (s := s) (k := 0) (d := len) le_rfl hnone (by omega)
  rw [Int.sub_zero] at hrun
  exact ⟨r, hrun, hr⟩

theorem mirror_eq_rev (h : len ≤ 2 ^ 31) (i : Fin len) : mirror i = i.rev := by
  have hlast := lastIndex_of_le h
  have hm : ((mirror i).val : Int) = lastIndex len - i.val := mirror_of_le (by omega)
  apply Fin.ext
  rw [Fin.val_rev]
  omega

theorem ofFn_mirror (s : Fin len → UInt8) (h : len ≤ 2 ^ 31) : List.ofFn (s ∘ mirror) = (List.ofFn s).reverse := by
  apply List.ext_getElem
  · rw [List.length_reverse, List.length_ofFn, List.length_ofFn]
  · intro i hi hi'
    rw [List.length_ofFn] at hi
    rw [List.getElem_ofFn, List.getElem_reverse, List.getElem_ofFn, Function.comp_apply, mirror_eq_rev h]
    congr 1
    apply Fin.ext
    simp only [Fin.val_rev, List.length_ofFn]
    omega

/-- A vector of any size is turned round up to the index that its size gives as an int,
and one that has no more than 2 ^ 31 elements as a whole. A second call gives it back,
and isPalindrome says whether the first one changes it. -/
theorem reverseString_isPalindrome (s : Fin len → UInt8) :
    ∃ t r, (∀ fuel, len < fuel → reverseString fuel s = some t ∧ reverseString fuel t = some s ∧
        isPalindrome fuel s = some r) ∧
      t = s ∘ mirror ∧ (r = true ↔ t = s) ∧ (len ≤ 2 ^ 31 → List.ofFn t = (List.ofFn s).reverse) := by
  obtain ⟨r, hrun, hr⟩ := isPalindrome_mirror s
  have hid : (mirror : Fin len → Fin len) ∘ mirror = id := by
    funext i
    rw [Function.comp_apply, mirror_mirror, id_eq]
  have hback (fuel : Nat) (hfuel : len < fuel) : reverseString fuel (s ∘ mirror) = some s := by
    rw [reverseString_mirror _ hfuel, Function.comp_assoc, hid, Function.comp_id]
  exact ⟨s ∘ mirror, r, fun fuel hfuel => ⟨reverseString_mirror s hfuel, hback fuel hfuel, hrun fuel hfuel⟩, rfl, hr,
    ofFn_mirror s⟩

end LearnNote.Algorithm.ReverseString
