import Mathlib.Data.Int.CardIntervalMod

namespace LearnNote.Misc.BoundedRand

/-- The loop on what rand returns, an unsigned of 32 bits like the bound. No result is that it
would call rand once more. -/
def boundedRand (range : Nat) : List Nat → Option Nat
  | [] => none
  | x :: xs =>
      let r := x % range
      if x - r ≤ (4294967296 - range) % 4294967296 then some r else boundedRand range xs

def draws (n : Nat) : Nat → List (List Nat)
  | 0 => [[]]
  | k + 1 => (List.range n).flatMap (fun x => (draws n k).map (x :: ·))

def outcomes (n range k r : Nat) : Nat := (draws n k).countP (fun xs => boundedRand range xs = some r)

/-- Where the last block of the unsigned numbers that is complete ends. -/
def blocksEnd (range : Nat) : Nat := 4294967296 / range * range

variable {n range k r x : Nat} {xs : List Nat}

theorem accepted_iff (hpos : 0 < range) (hrange : range < 4294967296) :
    x - x % range ≤ (4294967296 - range) % 4294967296 ↔ x < blocksEnd range := by
  have hblock : x - x % range = x / range * range := by
    have hdiv := Nat.div_add_mod' x range
    omega
  have hcomplete : x / range * range + range ≤ 4294967296 ↔ x / range + 1 ≤ 4294967296 / range := by
    rw [← Nat.succ_mul]
    exact (Nat.le_div_iff_mul_le hpos).symm
  rw [hblock, Nat.mod_eq_of_lt (by omega), blocksEnd, ← Nat.div_lt_iff_lt_mul hpos]
  omega

theorem half_le_blocksEnd (hpos : 0 < range) (hrange : range < 4294967296) : 2147483648 ≤ blocksEnd range := by
  have hdiv : 4294967296 / range * range + 4294967296 % range = 4294967296 := Nat.div_add_mod' _ _
  have hmod := Nat.mod_lt 4294967296 hpos
  have hblock : range ≤ 4294967296 / range * range :=
    Nat.le_mul_of_pos_left range (Nat.div_pos (Nat.le_of_lt hrange) hpos)
  rw [blocksEnd]
  omega

theorem boundedRand_cons (hpos : 0 < range) (hrange : range < 4294967296) :
    boundedRand range (x :: xs) = if x < blocksEnd range then some (x % range) else boundedRand range xs := by
  simp only [boundedRand, accepted_iff hpos hrange]

theorem length_draws (n k : Nat) : (draws n k).length = n ^ k := by
  induction k with
  | zero => rfl
  | succ k ih => simp [draws, List.length_flatMap, ih, List.sum_replicate, Nat.pow_succ, Nat.mul_comm]

/-- The first value is taken, or the loop goes on with the others. -/
theorem countP_cons_draws (hpos : 0 < range) (hrange : range < 4294967296) (firsts : List Nat)
    (rest : List (List Nat)) :
    (firsts.flatMap (fun x => rest.map (x :: ·))).countP (fun xs => boundedRand range xs = some r) =
      firsts.countP (fun x => x < blocksEnd range ∧ x % range = r) * rest.length +
        firsts.countP (fun x => ¬ x < blocksEnd range) * rest.countP (fun xs => boundedRand range xs = some r) := by
  induction firsts with
  | nil => simp
  | cons x firsts ih =>
      rw [List.flatMap_cons, List.countP_append, ih, List.countP_map, List.countP_cons, List.countP_cons]
      by_cases hx : x < blocksEnd range
      · by_cases hr : x % range = r
        · simp [Function.comp_def, boundedRand_cons hpos hrange, hx, hr, Nat.succ_mul]
          omega
        · simp [Function.comp_def, boundedRand_cons hpos hrange, hx, hr]
      · simp [Function.comp_def, boundedRand_cons hpos hrange, hx, Nat.succ_mul]
        omega

theorem outcomes_succ (hpos : 0 < range) (hrange : range < 4294967296) : outcomes n range (k + 1) r =
    (List.range n).countP (fun x => x < blocksEnd range ∧ x % range = r) * n ^ k +
      (List.range n).countP (fun x => ¬ x < blocksEnd range) * outcomes n range k r := by
  rw [outcomes, draws, countP_cons_draws hpos hrange, length_draws]
  rfl

theorem countP_lt_eq_count {P : Nat → Prop} [DecidablePred P] (n m : Nat) :
    (List.range n).countP (fun x => x < m ∧ P x) = Nat.count P (min n m) := by
  induction n with
  | zero => simp
  | succ n ih =>
      rw [List.range_succ, List.countP_append, ih]
      rcases Nat.lt_or_ge n m with hn | hn
      · rw [Nat.min_eq_left (Nat.le_of_lt hn), Nat.min_eq_left hn, Nat.count_succ]
        simp [hn]
      · rw [Nat.min_eq_right hn, Nat.min_eq_right (Nat.le_succ_of_le hn)]
        simp [Nat.not_lt.mpr hn]

theorem countP_accepted (hpos : 0 < range) (hr : r < range) :
    (List.range n).countP (fun x => x < blocksEnd range ∧ x % range = r) =
      min n (blocksEnd range) / range + if r < min n (blocksEnd range) % range then 1 else 0 := by
  have hcount := Nat.count_modEq_card (min n (blocksEnd range)) hpos r
  simp only [Nat.ModEq, Nat.mod_eq_of_lt hr] at hcount
  rw [countP_lt_eq_count, hcount]

theorem outcomes_one (hpos : 0 < range) (hrange : range < 4294967296) (hr : r < range) : outcomes n range 1 r =
    min n (blocksEnd range) / range + if r < min n (blocksEnd range) % range then 1 else 0 := by
  have hnone : outcomes n range 0 r = 0 := rfl
  rw [outcomes_succ hpos hrange, hnone, countP_accepted hpos hr, Nat.pow_zero, Nat.mul_one, Nat.mul_zero, Nat.add_zero]

theorem dvd_min_iff : range ∣ min n (blocksEnd range) ↔ range ∣ n ∨ blocksEnd range ≤ n := by
  have hend : range ∣ blocksEnd range := Nat.dvd_mul_left _ _
  rcases Nat.lt_or_ge n (blocksEnd range) with hn | hn
  · rw [Nat.min_eq_left (Nat.le_of_lt hn)]
    simp [Nat.not_le.mpr hn]
  · rw [Nat.min_eq_right hn]
    exact iff_of_true hend (.inr hn)

theorem fair_iff (hpos : 0 < range) (hrange : range < 4294967296) :
    (∀ k r r', r < range → r' < range → outcomes n range k r = outcomes n range k r') ↔
      range ∣ n ∨ blocksEnd range ≤ n := by
  rw [← dvd_min_iff]
  constructor
  · intro h
    have hone := h 1 0 (range - 1) hpos (by omega)
    rw [outcomes_one hpos hrange hpos, outcomes_one hpos hrange (by omega)] at hone
    have hmod := Nat.mod_lt (min n (blocksEnd range)) hpos
    apply Nat.dvd_of_mod_eq_zero
    by_contra hne
    rw [if_pos (by omega), if_neg (by omega)] at hone
    omega
  · intro hdvd k
    have hmod := Nat.mod_eq_zero_of_dvd hdvd
    induction k with
    | zero => exact fun _ _ _ _ => rfl
    | succ k ih =>
        intro r r' hr hr'
        rw [outcomes_succ hpos hrange, outcomes_succ hpos hrange, ih r r' hr hr', countP_accepted hpos hr,
          countP_accepted hpos hr', hmod, if_neg (Nat.not_lt_zero r), if_neg (Nat.not_lt_zero r')]

/-- When rand returns the first n numbers equally often, all results below the bound are equally
frequent, however many calls are made, just when the bound divides n or n reaches the end of the
last complete block: only then the comparison rejects the numbers that are left over. It rejects
none of the numbers below 2147483648. -/
theorem boundedRand_fair_iff (hpos : 0 < range) (hrange : range < 4294967296) :
    ((∀ k r r', r < range → r' < range → outcomes n range k r = outcomes n range k r') ↔
      range ∣ n ∨ blocksEnd range ≤ n) ∧
    ∀ x xs, x < 2147483648 → boundedRand range (x :: xs) = some (x % range) := by
  refine ⟨fair_iff hpos hrange, fun x xs hx => ?_⟩
  rw [boundedRand_cons hpos hrange, if_pos (Nat.lt_of_lt_of_le hx (half_le_blocksEnd hpos hrange))]

theorem boundedRand_fair_iff_sides :
    (∀ k r r', r < 4 → r' < 4 → outcomes 2147483648 4 k r = outcomes 2147483648 4 k r') ∧
      ¬ ∀ k r r', r < 6 → r' < 6 → outcomes 2147483648 6 k r = outcomes 2147483648 6 k r' := by
  constructor
  · exact (boundedRand_fair_iff (by decide) (by decide)).1.mpr (by decide)
  · intro h
    exact absurd ((boundedRand_fair_iff (by decide) (by decide)).1.mp h) (by decide)

end LearnNote.Misc.BoundedRand
