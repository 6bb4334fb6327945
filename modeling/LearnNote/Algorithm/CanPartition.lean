import LearnNote.Lib.CheckedInt
import LearnNote.Lib.Knapsack
import LearnNote.Lib.Table
import LearnNote.Lib.Unsigned

namespace LearnNote.Algorithm.CanPartition

open Lib Lib.Knapsack

variable {len : Nat}

/-- No result, here and below, is an access outside a vector, an overflow, or a negative size. -/
def total (nums : Fin len → Int) : Option Int :=
  (List.finRange len).foldlM (fun sum p => checkedInt (sum + nums p)) 0

def body (nums : Fin len → Int) (dp : Table Bool) (i j : Int) : Option (Table Bool) :=
  (elementAt nums (i - 1)).bind fun num => (checkedInt (j - num)).bind fun rest =>
    if rest < 0 then (dp.get (i - 1) j).bind (dp.set i j)
    else (dp.get (i - 1) j).bind fun without =>
      if without then dp.set i j true else (dp.get (i - 1) rest).bind (dp.set i j)

/-- From the size as an int and the half of the sum on. -/
def table (nums : Fin len → Int) (n sum : Int) : Option Bool :=
  (checkedInt (n + 1)).bind fun rows => (Table.make rows (sum + 1) false).bind fun dp =>
    ((Int.range 0 (n + 1)).foldlM (fun (dp : Table Bool) i => dp.set i 0 true) dp).bind fun dp =>
      ((Int.range 1 (n + 1)).foldlM (fun dp i =>
        (Int.range 1 (sum + 1)).foldlM (fun dp j => body nums dp i j) dp) dp).bind fun dp => dp.get n sum

def halved (solve : Int → Option Bool) (nums : Fin len → Int) : Option Bool :=
  (total nums).bind fun sum => if sum.tmod 2 ≠ 0 then some false else solve (sum.tdiv 2)

/-- The answer is returned as an int. -/
def canPartition (nums : Fin len → Int) : Option Bool := halved (table nums (int32 len)) nums

/-- Two groups of equal sums that every position is in one of. -/
def Splits (nums : Fin len → Int) : Prop := ∃ S : Finset (Fin len), ∑ p ∈ S, nums p = ∑ p ∈ Sᶜ, nums p

/-- No number is negative, and the sum of all is an int. -/
structure Fits (nums : Fin len → Int) : Prop where
  nonneg : ∀ p, 0 ≤ nums p
  sum_le : ∑ p, nums p ≤ intMax

variable {nums : Fin len → Int} {n sum : Int}

theorem Fits.le_intMax (h : Fits nums) (p : Fin len) : nums p ≤ intMax :=
  (Finset.single_le_sum (fun q _ => h.nonneg q) (Finset.mem_univ p)).trans h.sum_le

theorem Fits.total (h : Fits nums) : total nums = some (∑ p, nums p) := by
  have hall : ∑ p, nums p = ((List.finRange len).map nums).sum := Fin.sum_univ_def nums
  have hround : ∀ done p rest (sum : Int), List.finRange len = done ++ p :: rest → sum = (done.map nums).sum →
      ∃ next, checkedInt (sum + nums p) = some next ∧ next = ((done ++ [p]).map nums).sum := by
    rintro done p rest _ hl rfl
    have hdone : 0 ≤ (done.map nums).sum := List.sum_nonneg (by simpa using fun p _ => h.nonneg p)
    have hrest : 0 ≤ (rest.map nums).sum := List.sum_nonneg (by simpa using fun p _ => h.nonneg p)
    have hp := h.nonneg p
    have hle := h.sum_le
    have hmin : intMin ≤ 0 := by decide
    rw [hall, hl, List.map_append, List.sum_append, List.map_cons, List.sum_cons] at hle
    refine ⟨_, checkedInt_of_mem (by omega) (by omega), ?_⟩
    rw [List.map_append, List.sum_append, List.map_singleton, List.sum_singleton]
  obtain ⟨sum, hloop, rfl⟩ := Loops.foldlM_spec (b := (0 : Int)) (I := fun done sum => sum = (done.map nums).sum) rfl
    hround
  rw [CanPartition.total, hloop, hall]

def Decides (nums : Fin len → Int) (i j : Int) (x : Bool) : Prop := x = true ↔ SomeSum nums i.toNat j

theorem someSum_of_neg (h : Fits nums) {i : Nat} {t : Int} (ht : t < 0) : ¬ SomeSum nums i t := by
  rintro ⟨S, -, rfl⟩
  exact absurd ht (not_lt.mpr (Finset.sum_nonneg fun p _ => h.nonneg p))

theorem body_spec (h : Fits nums) (hn : n ≤ len) (hsum : sum ≤ intMax) {i j : Int} (hi : 1 ≤ i ∧ i ≤ n)
    (hj : 1 ≤ j ∧ j ≤ sum) {dp : Table Bool} (hdp : Table.Filled (Decides nums) n sum i j dp) :
    ∃ x, body nums dp i j = dp.set i j x ∧ Decides nums i j x := by
  obtain ⟨p, hp, hprev, hnext⟩ := exists_index ⟨hi.1, hi.2.trans hn⟩
  have hnum := h.nonneg p
  have hle := h.le_intMax p
  have hint : intMin ≤ j - nums p := by
    have hmin : intMin = -intMax - 1 := by decide
    omega
  obtain ⟨without, hwithout, hdecides⟩ := hdp.get (a := i - 1) (b := j) (by omega) (by omega) (by omega)
  rw [Decides, hprev] at hdecides
  rw [body, elementAt_of_mem p hp, Option.bind_some, checkedInt_of_mem hint (by omega), Option.bind_some, hwithout]
  simp only [Option.bind_some]
  by_cases hneg : j - nums p < 0
  · rw [if_pos hneg]
    refine ⟨without, rfl, ?_⟩
    rw [Decides, hnext, someSum_succ, or_iff_left (someSum_of_neg h hneg), hdecides]
  · rw [if_neg hneg]
    cases without with
    | true => exact ⟨true, if_pos rfl, iff_of_true rfl (hnext ▸ (hdecides.mp rfl).mono)⟩
    | false =>
        obtain ⟨rest, hrest, htaken⟩ := hdp.get (a := i - 1) (b := j - nums p) (by omega) (by omega) (by omega)
        refine ⟨rest, by rw [if_neg Bool.false_ne_true, hrest, Option.bind_some], ?_⟩
        have hnone : ¬ SomeSum nums p.val j := fun hs => Bool.false_ne_true (hdecides.mpr hs)
        rw [Decides, hprev] at htaken
        rw [Decides, hnext, someSum_succ, or_iff_right hnone, htaken]

theorem decides_first_column (nums : Fin len → Int) (i : Int) : Decides nums i 0 true := iff_of_true rfl someSum_self

theorem decides_first_row (nums : Fin len → Int) (j : Int) (hj : j ≠ 0) : Decides nums 0 j false :=
  iff_of_false Bool.false_ne_true fun hs => hj (someSum_zero.mp hs)

theorem table_returns (h : Fits nums) (hn : 0 ≤ n) (hlen : n ≤ len) (hmax : n < intMax) (hsum : 0 ≤ sum)
    (hle : sum ≤ intMax) : ∃ b, table nums n sum = some b ∧ (b = true ↔ SomeSum nums n.toNat sum) := by
  obtain ⟨dp, hdp, hstart⟩ := Table.filled_first hn hsum (decides_first_column nums) (decides_first_row nums)
  obtain ⟨dp', hloops, hfilled⟩ := hstart.loops hn hsum fun i j t hi hj ht => body_spec h hlen hle hi hj ht
  obtain ⟨b, hb, hdecides⟩ := hfilled.get (a := n) (b := sum) (by omega) (by omega) (by omega)
  refine ⟨b, ?_, hdecides⟩
  have hmin : intMin ≤ 0 := by decide
  rw [table, checkedInt_of_mem (by omega) (by omega), Option.bind_some]
  rw [← Option.bind_assoc, hdp, Option.bind_some, hloops, Option.bind_some, hb]

theorem someSum_half (hsum : ∑ p, nums p = sum + sum) : SomeSum nums len sum ↔ Splits nums := by
  constructor
  · rintro ⟨S, -, hS⟩
    refine ⟨S, ?_⟩
    have hall := Finset.sum_add_sum_compl S nums
    omega
  · rintro ⟨S, hS⟩
    refine ⟨S, fun p _ => p.isLt, ?_⟩
    have hall := Finset.sum_add_sum_compl S nums
    omega

theorem not_splits_of_odd (hodd : (∑ p, nums p) % 2 ≠ 0) : ¬ Splits nums := by
  rintro ⟨S, hS⟩
  have hall := Finset.sum_add_sum_compl S nums
  omega

theorem Fits.sum_nonneg (h : Fits nums) : 0 ≤ ∑ p, nums p := Finset.sum_nonneg fun p _ => h.nonneg p

theorem Fits.halved_of_odd (h : Fits nums) (hodd : (∑ p, nums p) % 2 ≠ 0) (solve : Int → Option Bool) :
    halved solve nums = some false := by
  have hpos := h.sum_nonneg
  rw [halved, h.total, Option.bind_some, if_pos (by rwa [Int.tmod_eq_emod_of_nonneg hpos])]

theorem Fits.halved_of_even (h : Fits nums) (heven : (∑ p, nums p) % 2 = 0) (solve : Int → Option Bool) :
    halved solve nums = solve ((∑ p, nums p) / 2) := by
  have hpos := h.sum_nonneg
  have hmod : ¬ (∑ p, nums p).tmod 2 ≠ 0 := by
    rw [Int.tmod_eq_emod_of_nonneg hpos]
    exact not_not.mpr heven
  rw [halved, h.total, Option.bind_some, if_neg hmod, Int.tdiv_eq_ediv_of_nonneg hpos]

/-- For every vector whose size, and one more, is an int. -/
theorem canPartition_iff (h : Fits nums) (hlen : (len : Int) < intMax) :
    ∃ b, canPartition nums = some b ∧ (b = true ↔ Splits nums) := by
  have hpos := h.sum_nonneg
  have hle := h.sum_le
  by_cases hodd : (∑ p, nums p) % 2 ≠ 0
  · exact ⟨false, h.halved_of_odd hodd _, iff_of_false Bool.false_ne_true (not_splits_of_odd hodd)⟩
  · have heven := not_not.mp hodd
    have hsize : int32 len = len := by
      have hmax : intMax = 2147483647 := rfl
      exact int32_of_mem (by omega) (by omega)
    rw [canPartition, h.halved_of_even heven, hsize,
      ← someSum_half (by omega : ∑ p, nums p = (∑ p, nums p) / 2 + (∑ p, nums p) / 2)]
    exact table_returns h (by omega) le_rfl hlen (by omega) (by omega)

theorem canPartition_iff_three :
    ∃ b, canPartition (fun p : Fin 3 => (p.val : Int) + 1) = some b ∧
      (b = true ↔ Splits fun p : Fin 3 => (p.val : Int) + 1) :=
  canPartition_iff ⟨by decide, by decide⟩ (by decide)

/-- 2 ^ 32 numbers, of which two are 1 and the rest 0. As an int the size is 0. -/
theorem long_vector_not_split :
    ¬ ∀ (len : Nat) (nums : Fin len → Int), Fits nums → ∃ b, canPartition nums = some b ∧ (b = true ↔ Splits nums) := by
  intro h
  let first : Fin (2 ^ 32) := ⟨0, by decide⟩
  let second : Fin (2 ^ 32) := ⟨1, by decide⟩
  let nums : Fin (2 ^ 32) → Int := fun p => (if p = first then 1 else 0) + if p = second then 1 else 0
  have hall : ∑ p, nums p = 2 := by
    rw [Finset.sum_add_distrib, Finset.sum_ite_eq', Finset.sum_ite_eq', if_pos (Finset.mem_univ _),
      if_pos (Finset.mem_univ _)]
    rfl
  have hfits : Fits nums := by
    refine ⟨fun p => ?_, by rw [hall]; decide⟩
    simp only [nums]
    split_ifs <;> decide
  have hfirst : ∑ p ∈ {first}, nums p = 1 := by
    rw [Finset.sum_singleton]
    rfl
  have hsplits : Splits nums := by
    refine ⟨{first}, ?_⟩
    have hcompl := Finset.sum_add_sum_compl {first} nums
    omega
  obtain ⟨b, hb, hdecides⟩ := h _ nums hfits
  rw [canPartition, hfits.halved_of_even (by rw [hall]; rfl), hall] at hb
  obtain ⟨c, hc, hnone⟩ := table_returns hfits (n := 0) le_rfl (by decide) (by decide)
    (by decide : (0 : Int) ≤ 1) (by decide)
  have hsize : int32 ((2 ^ 32 : Nat) : Int) = 0 := by decide
  rw [hsize] at hb
  cases hb.symm.trans hc
  exact absurd (someSum_zero.mp (hnone.mp (hdecides.mpr hsplits))) (by decide)

end LearnNote.Algorithm.CanPartition
