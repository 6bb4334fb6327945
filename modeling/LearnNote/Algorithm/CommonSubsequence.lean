import LearnNote.Algorithm.CommonSubstring
import LearnNote.Lib.CheckedInt
import LearnNote.Lib.Table

namespace LearnNote.Algorithm.CommonSubsequence

open Lib
open CommonSubstring (charAt charAt_of_lt)

/-- Where the characters are equal the entry before is taken as it is. -/
def body (s1 s2 : List UInt8) (dp : Table Int) (i j : Int) : Option (Table Int) :=
  (charAt s1 (i - 1).toNat).bind fun a => (charAt s2 (j - 1).toNat).bind fun b =>
    if a = b then (dp.get (i - 1) (j - 1)).bind (dp.set i j)
    else (dp.get i (j - 1)).bind fun x => (dp.get (i - 1) j).bind fun y => dp.set i j (max x y)

/-- From the two sizes as ints on. No result is an overflow or an access outside a string or dp. -/
def table (s1 s2 : List UInt8) (m n : Int) : Option Int :=
  (checkedInt (m + 1)).bind fun rows => (checkedInt (n + 1)).bind fun cols => (Table.make rows cols 0).bind fun dp =>
    ((Int.range 1 (m + 1)).foldlM (fun dp i => (Int.range 1 (n + 1)).foldlM (fun dp j => body s1 s2 dp i j) dp) dp).bind
      fun dp => dp.get m n

def longestCommonSubsequence (s1 s2 : List UInt8) : Option Int := table s1 s2 (int32 s1.length) (int32 s2.length)

/-- The length of a longest string that is a subsequence of both. -/
structure Longest (s1 s2 : List UInt8) (r : Int) : Prop where
  exists_common : ∃ t : List UInt8, t.Sublist s1 ∧ t.Sublist s2 ∧ r = t.length
  le : ∀ t : List UInt8, t.Sublist s1 → t.Sublist s2 → (t.length : Int) ≤ r

def Finds (s1 s2 : List UInt8) : Prop := ∃ r, longestCommonSubsequence s1 s2 = some r ∧ Longest s1 s2 r

variable {s1 s2 : List UInt8} {m n : Int} {r : Int}

theorem char_before {s : List UInt8} {i : Int} (hi : 1 ≤ i) (hs : i ≤ s.length) :
    ∃ c, charAt s (i - 1).toNat = some c := charAt_of_lt (by omega)

theorem make_filled (hm : 0 ≤ m) (hn : 0 ≤ n) :
    ∃ dp, Table.make (m + 1) (n + 1) (0 : Int) = some dp ∧ Table.Filled (fun _ _ x => x = 0) m n 1 1 dp :=
  ⟨_, if_pos (by omega), rfl, rfl, fun _ _ _ _ _ _ _ => rfl⟩

/-- Nothing is ever added to an entry. -/
theorem table_eq_zero (hm : 0 ≤ m) (hn : 0 ≤ n) (hm' : m < intMax) (hn' : n < intMax) (h1 : m ≤ s1.length)
    (h2 : n ≤ s2.length) : table s1 s2 m n = some 0 := by
  have hmin : intMin ≤ 0 := by decide
  obtain ⟨dp, hmake, hdp⟩ := make_filled hm hn
  have hbody : ∀ i j dp, 1 ≤ i ∧ i ≤ m → 1 ≤ j ∧ j ≤ n → Table.Filled (fun _ _ x => x = 0) m n i j dp →
      ∃ x, body s1 s2 dp i j = dp.set i j x ∧ x = 0 := by
    intro i j dp hi hj hdp
    obtain ⟨a, ha⟩ := char_before hi.1 (hi.2.trans h1)
    obtain ⟨b, hb⟩ := char_before hj.1 (hj.2.trans h2)
    obtain ⟨x, hx, rfl⟩ := hdp.get (a := i - 1) (b := j - 1) (by omega) (by omega) (by omega)
    obtain ⟨y, hy, rfl⟩ := hdp.get (a := i) (b := j - 1) (by omega) (by omega) (by omega)
    obtain ⟨z, hz, rfl⟩ := hdp.get (a := i - 1) (b := j) (by omega) (by omega) (by omega)
    refine ⟨0, ?_, rfl⟩
    rw [body, ha, Option.bind_some, hb, Option.bind_some, hx, hy, hz, Option.bind_some, Option.bind_some,
      Option.bind_some, max_self, ite_self]
  obtain ⟨dp', hloops, hfilled⟩ := hdp.loops hm hn hbody
  obtain ⟨x, hx, rfl⟩ := hfilled.get (a := m) (b := n) (by omega) (by omega) (by omega)
  rw [table, checkedInt_of_mem (by omega) (by omega), Option.bind_some, checkedInt_of_mem (by omega) (by omega),
    Option.bind_some, hmake, Option.bind_some, hloops, Option.bind_some, hx]

theorem table_cases (h : table s1 s2 m n = some r) : (0 ≤ m ∧ m < intMax) ∧ 0 ≤ n ∧ n < intMax := by
  obtain ⟨rows, hrows, h⟩ := Option.bind_eq_some_iff.mp h
  obtain ⟨cols, hcols, h⟩ := Option.bind_eq_some_iff.mp h
  obtain ⟨dp, hdp, h⟩ := Option.bind_eq_some_iff.mp h
  obtain ⟨⟨-, hm⟩, -⟩ := checkedInt_eq_some.mp hrows
  obtain ⟨⟨-, hn⟩, -⟩ := checkedInt_eq_some.mp hcols
  obtain ⟨dp', -, hget⟩ := Option.bind_eq_some_iff.mp h
  obtain ⟨hin, -⟩ := Option.ite_none_right_eq_some.mp hget
  omega

theorem longest_zero_iff : Longest s1 s2 0 ↔ ∀ c ∈ s1, c ∉ s2 := by
  constructor
  · intro h c hc hc'
    have hle := h.le [c] (List.singleton_sublist.mpr hc) (List.singleton_sublist.mpr hc')
    simp at hle
  · intro h
    refine ⟨⟨[], List.nil_sublist _, List.nil_sublist _, rfl⟩, fun t ht ht' => ?_⟩
    cases t with
    | nil => exact le_rfl
    | cons c t => exact absurd (ht'.subset List.mem_cons_self) (h c (ht.subset List.mem_cons_self))

/-- For all strings, whatever their lengths are as ints. -/
theorem finds_subsequence_iff (s1 s2 : List UInt8) :
    Finds s1 s2 ↔ (∀ c ∈ s1, c ∉ s2) ∧ (0 ≤ int32 s1.length ∧ int32 s1.length < intMax) ∧
      0 ≤ int32 s2.length ∧ int32 s2.length < intMax := by
  have h1 := int32_le s1.length
  have h2 := int32_le s2.length
  constructor
  · rintro ⟨r, hr, hlongest⟩
    have hsizes := table_cases hr
    rw [longestCommonSubsequence, table_eq_zero hsizes.1.1 hsizes.2.1 hsizes.1.2 hsizes.2.2 h1 h2, Option.some_inj] at hr
    subst hr
    exact ⟨longest_zero_iff.mp hlongest, hsizes⟩
  · rintro ⟨hnone, hm, hn⟩
    exact ⟨0, table_eq_zero hm.1 hn.1 hm.2 hn.2 h1 h2, longest_zero_iff.mpr hnone⟩

theorem same_not_counted : ¬ ∀ s1 s2 : List UInt8, Finds s1 s2 := by
  intro h
  have hnone := ((finds_subsequence_iff [97] [97]).mp (h [97] [97])).1
  exact hnone 97 List.mem_cons_self List.mem_cons_self

end LearnNote.Algorithm.CommonSubsequence
