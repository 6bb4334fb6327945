import LearnNote.Lib.Knapsack
import LearnNote.Lib.Table

namespace LearnNote.Algorithm.Change

open Lib Lib.Knapsack

variable {len : Nat}

/-- No result, here and below, is an access outside a vector, or a negative size. The ints are exact. -/
def body (coins : Fin len → Int) (dp : Table Int) (i j : Int) : Option (Table Int) :=
  (elementAt coins (i - 1)).bind fun coin =>
    if 0 ≤ j - coin then (dp.get (i - 1) j).bind fun without => (dp.get i (j - coin)).bind fun taken =>
      dp.set i j (without + taken)
    else (dp.get (i - 1) j).bind (dp.set i j)

def change (amount : Int) (coins : Fin len → Int) : Option Int :=
  (Table.make (len + 1) (amount + 1) 0).bind fun dp =>
    ((Int.range 0 (len + 1)).foldlM (fun (dp : Table Int) i => dp.set i 0 1) dp).bind fun dp =>
      ((Int.range 1 (len + 1)).foldlM (fun dp i =>
        (Int.range 1 (amount + 1)).foldlM (fun dp j => body coins dp i j) dp) dp).bind fun dp => dp.get len amount

variable {coins : Fin len → Int} {amount : Int}

def Counts (coins : Fin len → Int) (i j x : Int) : Prop :=
  ∃ r : Nat, x = r ∧ (ways coins 0 i.toNat j).encard = r

theorem body_spec (hpos : ∀ p, 0 < coins p) {i j : Int} (hi : 1 ≤ i ∧ i ≤ len) (hj : 1 ≤ j ∧ j ≤ amount)
    {dp : Table Int} (hdp : Table.Filled (Counts coins) len amount i j dp) :
    ∃ x, body coins dp i j = dp.set i j x ∧ Counts coins i j x := by
  obtain ⟨p, hp, hprev, hnext⟩ := exists_index hi
  have hcoin := hpos p
  obtain ⟨_, hwithout, r, rfl, hr⟩ := hdp.get (a := i - 1) (b := j) (by omega) (by omega) (by omega)
  rw [hprev] at hr
  rw [body, elementAt_of_mem p hp, Option.bind_some, hwithout]
  simp only [Option.bind_some]
  by_cases hrest : 0 ≤ j - coins p
  · obtain ⟨_, htaken, s, rfl, hs⟩ := hdp.get (a := i) (b := j - coins p) (by omega) (by omega) (by omega)
    refine ⟨r + s, by rw [if_pos hrest, htaken, Option.bind_some], r + s, by omega, ?_⟩
    rw [hnext] at hs ⊢
    rw [encard_ways_succ (Nat.zero_le _), hr, hs]
    norm_cast
  · refine ⟨r, if_neg hrest, r, rfl, ?_⟩
    rw [hnext, encard_ways_succ (Nat.zero_le _), hr, ways_of_neg (fun q => (hpos q).le) (not_le.mp hrest),
      Set.encard_empty, add_zero]

theorem counts_first_column (hpos : ∀ p, 0 < coins p) (i : Int) : Counts coins i 0 1 := by
  refine ⟨1, rfl, ?_⟩
  rw [ways_zero hpos, Set.encard_singleton]
  rfl

theorem counts_first_row (coins : Fin len → Int) (j : Int) (hj : j ≠ 0) : Counts coins 0 j 0 := by
  refine ⟨0, rfl, ?_⟩
  rw [Int.toNat_zero, ways_start_of_ne hj, Set.encard_empty]
  rfl

theorem ways_all : ways coins 0 len amount = {k | ∑ p, k p * coins p = amount} := by
  ext k
  simp [ways]

/-- The ways to choose a multiplicity for each position are finitely many, and the result is their number. -/
theorem change_counts (hamount : 0 ≤ amount) (hpos : ∀ p, 0 < coins p) :
    ∃ r : Nat, change amount coins = some (r : Int) ∧ {k : Fin len → Nat | ∑ p, k p * coins p = amount}.encard = r := by
  obtain ⟨dp, hdp, hstart⟩ := Table.filled_first (n := len) (by omega) hamount (counts_first_column hpos)
    (counts_first_row coins)
  obtain ⟨dp', hloops, hfilled⟩ := hstart.loops (by omega) hamount fun i j t hi hj ht => body_spec hpos hi hj ht
  obtain ⟨_, hb, r, rfl, hr⟩ := hfilled.get (a := len) (b := amount) (by omega) (by omega) (by omega)
  refine ⟨r, ?_, ?_⟩
  · rw [change, ← Option.bind_assoc, hdp, Option.bind_some, hloops, Option.bind_some, hb]
  · rw [← ways_all, ← hr, Int.toNat_natCast]

theorem change_counts_five :
    ∃ r : Nat, change 5 ![1, 2, 2] = some (r : Int) ∧
      {k : Fin 3 → Nat | ∑ p, k p * ![1, 2, 2] p = (5 : Int)}.encard = r :=
  change_counts (by decide) (by decide)

example : change 5 ![1, 2, 2] = some 6 := by decide

end LearnNote.Algorithm.Change
