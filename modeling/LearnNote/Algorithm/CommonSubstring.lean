import Mathlib.Data.List.Infix
import LearnNote.Lib.Loops
import LearnNote.Lib.Unsigned

namespace LearnNote.Algorithm.CommonSubstring

open Lib

/-- A string has a 0 behind its characters. No result, here and below, is an access outside a string or
outside dp, a negative size, or out of fuel. -/
def charAt (str : List UInt8) (i : Nat) : Option UInt8 := if i = str.length then some 0 else str[i]?

def get (dp : List (List Int)) (i j : Nat) : Option Int := dp[i]?.bind fun row => row[j]?

def set (dp : List (List Int)) (i j : Nat) (x : Int) : Option (List (List Int)) :=
  dp[i]?.bind fun row => if j < row.length then some (dp.set i (row.set j x)) else none

/-- dp[i][j] = (str1[i] == str2[j]) ? 1 : 0. -/
def compare (str1 str2 : List UInt8) (dp : List (List Int)) (i j : Nat) : Option (List (List Int)) :=
  (charAt str1 i).bind fun a => (charAt str2 j).bind fun b => set dp i j (if a = b then 1 else 0)

def extend (str1 str2 : List UInt8) (i j : Nat) (dp : List (List Int)) : Option (List (List Int)) :=
  (charAt str1 i).bind fun a => (charAt str2 j).bind fun b =>
    if a = b then (get dp (i - 1) (j - 1)).bind fun x => set dp i j (x + 1) else some dp

/-- The inner loop. The source counts i in it. -/
def whileInner (str1 str2 : List UInt8) (n : Nat) : Nat → Nat → Nat → List (List Int) → Option (Nat × List (List Int))
  | 0, _, _, _ => none
  | fuel + 1, i, j, dp =>
      if j < n then (extend str1 str2 i j dp).bind fun dp => whileInner str1 str2 n fuel (i + 1) j dp else some (i, dp)

def whileOuter (str1 str2 : List UInt8) (m n : Nat) : Nat → Nat → List (List Int) → Option (List (List Int))
  | 0, _, _ => none
  | fuel + 1, i, dp =>
      if i < m then (whileInner str1 str2 n fuel i 1 dp).bind fun r => whileOuter str1 str2 m n fuel (r.1 + 1) r.2
      else some dp

def scan (dp : List (List Int)) (i : Nat) (longest : Int × Nat) (j : Nat) : Option (Int × Nat) :=
  (get dp i j).map fun x => if longest.1 < x then (longest.1, i) else longest

/-- From the two sizes as ints on. -/
def table (fuel : Nat) (str1 str2 : List UInt8) (m n : Nat) : Option Int :=
  ((List.range m).foldlM (fun dp i => compare str1 str2 dp i 0) (List.replicate m (List.replicate n 0))).bind fun dp =>
    ((List.range n).foldlM (fun dp j => compare str1 str2 dp 0 j) dp).bind fun dp =>
      (whileOuter str1 str2 m n fuel 1 dp).bind fun dp =>
        ((List.range m).foldlM (fun longest i => (List.range n).foldlM (scan dp i) longest) (0, 0)).map Prod.fst

def substr (fuel : Nat) (str1 str2 : List UInt8) : Option Int :=
  if int32 str1.length < 0 ∨ int32 str2.length < 0 then none
  else table fuel str1 str2 (int32 str1.length).toNat (int32 str2.length).toNat

/-- The length of the longest string that is a contiguous part of both. -/
structure Longest (str1 str2 : List UInt8) (r : Int) : Prop where
  exists_common : ∃ t : List UInt8, t <:+: str1 ∧ t <:+: str2 ∧ r = t.length
  le : ∀ t : List UInt8, t <:+: str1 → t <:+: str2 → (t.length : Int) ≤ r

def Finds (str1 str2 : List UInt8) : Prop :=
  ∃ N, ∀ fuel, N ≤ fuel → ∃ r, substr fuel str1 str2 = some r ∧ Longest str1 str2 r

/-- Sizes for which the inner loop is not entered and the first row and column are inside dp. -/
def Degenerate (m n : Int) : Prop := (m = 1 ∧ 1 ≤ n) ∨ (n = 1 ∧ 1 ≤ m) ∨ (m = 0 ∧ n = 0)

variable {str1 str2 : List UInt8} {m n i j fuel : Nat} {dp dp' : List (List Int)} {r : Int}

def Sized (m n : Nat) (dp : List (List Int)) : Prop := dp.length = m ∧ ∀ row ∈ dp, row.length = n

theorem sized_replicate (m n : Nat) : Sized m n (List.replicate m (List.replicate n 0)) :=
  ⟨List.length_replicate, fun _ h => (List.eq_of_mem_replicate h).symm ▸ List.length_replicate⟩

theorem Sized.get (h : Sized m n dp) (hi : i < m) (hj : j < n) : ∃ x, get dp i j = some x := by
  have hi' : i < dp.length := h.1.symm ▸ hi
  have hj' : j < dp[i].length := (h.2 _ (List.getElem_mem hi')).symm ▸ hj
  exact ⟨dp[i][j], by
    rw [CommonSubstring.get, List.getElem?_eq_getElem hi', Option.bind_some, List.getElem?_eq_getElem hj']⟩

theorem Sized.set (h : Sized m n dp) (hi : i < m) (hj : j < n) (x : Int) :
    ∃ dp', set dp i j x = some dp' ∧ Sized m n dp' := by
  have hi' : i < dp.length := h.1.symm ▸ hi
  have hrow := h.2 _ (List.getElem_mem hi')
  refine ⟨dp.set i (dp[i].set j x), ?_, by rw [List.length_set, h.1], fun row hmem => ?_⟩
  · rw [CommonSubstring.set, List.getElem?_eq_getElem hi', Option.bind_some, if_pos (hrow ▸ hj)]
  · rcases List.mem_or_eq_of_mem_set hmem with hmem | rfl
    · exact h.2 row hmem
    · rw [List.length_set, hrow]

theorem charAt_of_lt (hi : i < str1.length) : ∃ c, charAt str1 i = some c := by
  refine ⟨str1[i], ?_⟩
  rw [charAt, if_neg hi.ne, List.getElem?_eq_getElem hi]

theorem Sized.compare (h : Sized m n dp) (hi : i < m) (hj : j < n) (hm : m ≤ str1.length) (hn : n ≤ str2.length) :
    ∃ dp', compare str1 str2 dp i j = some dp' ∧ Sized m n dp' := by
  obtain ⟨a, ha⟩ := charAt_of_lt (hi.trans_le hm)
  obtain ⟨b, hb⟩ := charAt_of_lt (hj.trans_le hn)
  rw [CommonSubstring.compare, ha, Option.bind_some, hb, Option.bind_some]
  exact h.set hi hj _

/-- With the counter of the outer loop in its place, the inner loop does not come to its end. -/
theorem whileInner_eq_none (hj : j < n) (fuel i : Nat) (dp : List (List Int)) :
    whileInner str1 str2 n fuel i j dp = none := by
  induction fuel generalizing i dp with
  | zero => rfl
  | succ fuel ih =>
      rw [whileInner, if_pos hj]
      cases extend str1 str2 i j dp with
      | none => rfl
      | some dp => exact ih (i + 1) dp

theorem whileOuter_eq_none (hm : 2 ≤ m) (hn : 2 ≤ n) (fuel : Nat) (dp : List (List Int)) :
    whileOuter str1 str2 m n fuel 1 dp = none := by
  cases fuel with
  | zero => rfl
  | succ fuel => rw [whileOuter, if_pos (by omega), whileInner_eq_none (by omega), Option.bind_none]

theorem whileOuter_of_le_one (hn : n ≤ 1) (hpos : 0 < fuel) (hfuel : m < fuel + i) (dp : List (List Int)) :
    whileOuter str1 str2 m n fuel i dp = some dp := by
  induction fuel generalizing i with
  | zero => exact absurd hpos (Nat.lt_irrefl 0)
  | succ fuel ih =>
      rw [whileOuter]
      by_cases hi : i < m
      · obtain ⟨fuel, rfl⟩ : ∃ k, fuel = k + 1 := ⟨fuel - 1, by omega⟩
        rw [if_pos hi, whileInner, if_neg (by omega), Option.bind_some]
        exact ih (Nat.succ_pos fuel) (by omega)
      · rw [if_neg hi]

theorem whileOuter_returns (h : m ≤ 1 ∨ n ≤ 1) (hfuel : m < fuel) (dp : List (List Int)) :
    whileOuter str1 str2 m n fuel 1 dp = some dp := by
  rcases h with hm | hn
  · obtain ⟨fuel, rfl⟩ : ∃ k, fuel = k + 1 := ⟨fuel - 1, by omega⟩
    rw [whileOuter, if_neg (by omega)]
  · exact whileOuter_of_le_one hn (by omega) (by omega) dp

theorem Sized.scan (h : Sized m n dp) (hi : i < m) (longest : Int × Nat) :
    ∃ longest', (List.range n).foldlM (scan dp i) longest = some longest' := by
  apply Loops.forRange_returns
  intro j hj longest
  obtain ⟨x, hx⟩ := h.get hi hj
  rw [CommonSubstring.scan, hx, Option.map_some]
  exact ⟨_, rfl⟩

theorem table_returns (hm : m ≤ str1.length) (hn : n ≤ str2.length) (hpos : 0 < m ↔ 0 < n) (h : m ≤ 1 ∨ n ≤ 1)
    (hfuel : m < fuel) : ∃ r, table fuel str1 str2 m n = some r := by
  obtain ⟨dp, hdp, hsized⟩ := Loops.forRange_spec (f := fun dp i => compare str1 str2 dp i 0) (n := m)
    (I := fun _ => Sized m n) (sized_replicate m n) fun i hi dp hdp =>
      hdp.compare hi (hpos.mp (Nat.zero_lt_of_lt hi)) hm hn
  obtain ⟨dp', hdp', hsized'⟩ := Loops.forRange_spec (f := fun dp j => compare str1 str2 dp 0 j) (n := n)
    (I := fun _ => Sized m n) hsized fun j hj dp hdp => hdp.compare (hpos.mpr (Nat.zero_lt_of_lt hj)) hj hm hn
  obtain ⟨longest, hlongest⟩ := Loops.forRange_returns
    (f := fun longest i => (List.range n).foldlM (scan dp' i) longest) (fun i hi => hsized'.scan hi) (0, 0)
  exact ⟨longest.1, by rw [table, hdp, Option.bind_some, hdp', Option.bind_some, whileOuter_returns h hfuel,
    Option.bind_some, hlongest, Option.map_some]⟩

theorem scan_fst {longest longest' : Int × Nat} (h : scan dp i longest j = some longest') : longest'.1 = longest.1 := by
  obtain ⟨x, -, rfl⟩ := Option.map_eq_some_iff.mp h
  split_ifs <;> rfl

theorem table_eq_zero (h : table fuel str1 str2 m n = some r) : r = 0 := by
  obtain ⟨dp, -, h⟩ := Option.bind_eq_some_iff.mp h
  obtain ⟨dp, -, h⟩ := Option.bind_eq_some_iff.mp h
  obtain ⟨dp, -, h⟩ := Option.bind_eq_some_iff.mp h
  obtain ⟨longest, hlongest, rfl⟩ := Option.map_eq_some_iff.mp h
  refine Loops.foldlM_induction (I := fun _ (longest : Int × Nat) => longest.1 = 0) rfl ?_ hlongest
  intro done i rest b c _ hb hc
  refine Loops.foldlM_induction (I := fun _ (longest : Int × Nat) => longest.1 = 0) hb ?_ hc
  intro done j rest b c _ hb hc
  exact (scan_fst hc).trans hb

theorem foldlM_range_eq_none {β : Type} {f : β → Nat → Option β} {b : β} (hn : 0 < n) (h : f b 0 = none) :
    (List.range n).foldlM f b = none := by
  obtain ⟨n, rfl⟩ : ∃ k, n = k + 1 := ⟨n - 1, by omega⟩
  rw [List.range_succ_eq_map, List.foldlM_cons, h]
  rfl

theorem compare_eq_none (h : ∀ x, set dp i j x = none) : compare str1 str2 dp i j = none := by
  rw [compare]
  cases charAt str1 i with
  | none => rfl
  | some a =>
      cases charAt str2 j with
      | none => rfl
      | some b => exact h _

theorem table_cases (h : table fuel str1 str2 m n = some r) : (0 < m ↔ 0 < n) ∧ (m ≤ 1 ∨ n ≤ 1) := by
  obtain ⟨dp, hdp, h⟩ := Option.bind_eq_some_iff.mp h
  obtain ⟨dp', hdp', h⟩ := Option.bind_eq_some_iff.mp h
  obtain ⟨dp'', houter, -⟩ := Option.bind_eq_some_iff.mp h
  refine ⟨⟨fun hm => ?_, fun hn => ?_⟩, ?_⟩
  · by_contra hn
    obtain rfl : n = 0 := by omega
    rw [foldlM_range_eq_none hm (compare_eq_none fun x => by simp [set, hm])] at hdp
    cases hdp
  · by_contra hm
    obtain rfl : m = 0 := by omega
    cases hdp
    rw [foldlM_range_eq_none hn (compare_eq_none fun x => by simp [set])] at hdp'
    cases hdp'
  · by_contra hboth
    rw [not_or, not_le, not_le] at hboth
    rw [whileOuter_eq_none hboth.1 hboth.2] at houter
    cases houter

theorem infix_of_mem {c : UInt8} (h : c ∈ str1) : [c] <:+: str1 := by
  obtain ⟨s, t, rfl⟩ := List.append_of_mem h
  exact ⟨s, t, by rw [List.append_assoc, List.singleton_append]⟩

theorem longest_zero_iff : Longest str1 str2 0 ↔ ∀ c ∈ str1, c ∉ str2 := by
  constructor
  · intro h c hc hc'
    have hle := h.le [c] (infix_of_mem hc) (infix_of_mem hc')
    simp at hle
  · intro h
    refine ⟨⟨[], List.nil_infix, List.nil_infix, rfl⟩, fun t ht ht' => ?_⟩
    cases t with
    | nil => exact le_rfl
    | cons c t => exact absurd (ht'.subset List.mem_cons_self) (h c (ht.subset List.mem_cons_self))

/-- For strings of any lengths, the inner loop comes to an end only where it is not entered, and then
the answer is 0. -/
theorem finds_iff (str1 str2 : List UInt8) :
    Finds str1 str2 ↔ (∀ c ∈ str1, c ∉ str2) ∧ Degenerate (int32 str1.length) (int32 str2.length) := by
  have hle1 := int32_le str1.length
  have hle2 := int32_le str2.length
  constructor
  · rintro ⟨N, hN⟩
    obtain ⟨r, hr, hlongest⟩ := hN N le_rfl
    rw [substr] at hr
    split_ifs at hr with hneg
    rw [table_eq_zero hr] at hlongest
    refine ⟨longest_zero_iff.mp hlongest, ?_⟩
    obtain ⟨hpos, hone⟩ := table_cases hr
    rw [Degenerate]
    omega
  · rintro ⟨hnone, hdegenerate⟩
    rw [Degenerate] at hdegenerate
    refine ⟨(int32 str1.length).toNat + 1, fun fuel hfuel => ?_⟩
    have hreturns : ∃ r, table fuel str1 str2 (int32 str1.length).toNat (int32 str2.length).toNat = some r :=
      table_returns (by omega) (by omega) (by omega) (by omega) hfuel
    obtain ⟨r, hr⟩ := hreturns
    refine ⟨r, by rw [substr, if_neg (by omega), hr], ?_⟩
    rw [table_eq_zero hr]
    exact longest_zero_iff.mpr hnone

theorem same_not_found : ¬ ∀ str1 str2 : List UInt8, str1 ≠ [] → str2 ≠ [] → Finds str1 str2 := by
  intro h
  obtain ⟨N, hN⟩ := h [97] [97] (List.cons_ne_nil _ _) (List.cons_ne_nil _ _)
  obtain ⟨r, hr, hlongest⟩ := hN N le_rfl
  rw [substr] at hr
  split_ifs at hr
  rw [table_eq_zero hr] at hlongest
  exact longest_zero_iff.mp hlongest 97 List.mem_cons_self List.mem_cons_self

end LearnNote.Algorithm.CommonSubstring
