import LearnNote.Algorithm.CanPartition

namespace LearnNote.Algorithm.CanPartition.Compressed

open Lib Lib.Knapsack

variable {len : Nat}

/-- The number is read one place further than for the table. -/
def body (nums : Fin len → Int) (i : Int) (dp : List Bool) (j : Int) : Option (List Bool) :=
  (elementAt nums i).bind fun num => (checkedInt (j - num)).bind fun rest =>
    if 0 ≤ rest then dp[j.toNat]?.bind fun before =>
      if before then some (dp.set j.toNat true) else dp[rest.toNat]?.map (dp.set j.toNat)
    else some dp

/-- From the size as an int and the half of the sum on. After its last round i is n + 1. -/
def row (nums : Fin len → Int) (n sum : Int) : Option Bool :=
  if 0 ≤ sum then
    (checkedInt (n + 1)).bind fun last =>
      ((Int.range 1 last).foldlM (fun dp i => (Int.range 1 (sum + 1)).foldlM (body nums i) dp)
        ((List.replicate (sum + 1).toNat false).set 0 true)).bind fun dp => dp[sum.toNat]?
  else none

def canPartition (nums : Fin len → Int) : Option Bool := halved (row nums (int32 len)) nums

/-- Both return, the one row with every access inside the bounds, and they answer the same. -/
def Agrees (nums : Fin len → Int) : Prop :=
  ∃ b, canPartition nums = some b ∧ CanPartition.canPartition nums = some b

/-- The sum is odd, or there is no number to read in the last round, or that number is inside. For a
size that is an int the latter is never so. -/
def Alike (nums : Fin len → Int) : Prop :=
  (∑ p, nums p) % 2 ≠ 0 ∨ (0 ≤ int32 len ∧ int32 len < intMax) ∧
    (∑ p, nums p = 0 ∨ int32 len = 0 ∨ int32 len < len ∧
      (SomeSum nums (int32 len).toNat ((∑ p, nums p) / 2) ↔
        (ways nums 1 ((int32 len).toNat + 1) ((∑ p, nums p) / 2)).Nonempty))

variable {nums : Fin len → Int} {n sum i j : Int} {dp : List Bool}

/-- In the round for i, before j: the entries before j are those for the numbers 1, …, i, any of them
taken any number of times, and the others those for one number less. -/
structure Swept (nums : Fin len → Int) (sum i j : Int) (dp : List Bool) : Prop where
  length : dp.length = (sum + 1).toNat
  entry : ∀ b : Int, 0 ≤ b → b ≤ sum → ∃ x, dp[b.toNat]? = some x ∧
    (x = true ↔ (ways nums 1 (if b < j then i.toNat + 1 else i.toNat) b).Nonempty)

theorem ways_before (nums : Fin len → Int) (k : Nat) {b : Int} (hb : 0 ≤ b) :
    (ways nums 1 (if b < 1 then k + 1 else k) b).Nonempty ↔ (ways nums 1 k b).Nonempty := by
  split_ifs with hlt
  · have hzero : b = 0 := by omega
    subst hzero
    exact iff_of_true ⟨0, zero_mem_ways⟩ ⟨0, zero_mem_ways⟩
  · exact Iff.rfl

theorem Swept.entry_before (h : Swept nums sum i 1 dp) {b : Int} (hb : 0 ≤ b ∧ b ≤ sum) :
    ∃ x, dp[b.toNat]? = some x ∧ (x = true ↔ (ways nums 1 i.toNat b).Nonempty) := by
  obtain ⟨x, hx, hways⟩ := h.entry b hb.1 hb.2
  exact ⟨x, hx, hways.trans (ways_before nums i.toNat hb.1)⟩

theorem Swept.next (h : Swept nums sum i (sum + 1) dp) (hi : 0 ≤ i) : Swept nums sum (i + 1) 1 dp := by
  refine ⟨h.length, fun b hb hbs => ?_⟩
  obtain ⟨x, hx, hways⟩ := h.entry b hb hbs
  have hnext : (i + 1).toNat = i.toNat + 1 := by omega
  rw [if_pos (by omega)] at hways
  rw [hnext]
  exact ⟨x, hx, hways.trans (ways_before nums (i.toNat + 1) hb).symm⟩

theorem swept_start (hsum : 0 ≤ sum) :
    Swept nums sum 1 1 ((List.replicate (sum + 1).toNat false).set 0 true) := by
  refine ⟨by simp, fun b hb hbs => ?_⟩
  by_cases hzero : b = 0
  · subst hzero
    refine ⟨true, ?_, iff_of_true rfl ⟨0, zero_mem_ways⟩⟩
    exact List.getElem?_set_self (by simp; omega)
  · refine ⟨false, ?_, iff_of_false Bool.false_ne_true ?_⟩
    · rw [List.getElem?_set_ne (by omega), List.getElem?_replicate, if_pos (by omega)]
    · have hone : (1 : Int).toNat = 1 := rfl
      rw [if_neg (by omega), hone, ways_start_of_ne hzero]
      exact Set.not_nonempty_empty

theorem Swept.set (h : Swept nums sum i j dp) (hj : 0 ≤ j ∧ j ≤ sum) {x : Bool}
    (hx : x = true ↔ (ways nums 1 (i.toNat + 1) j).Nonempty) : Swept nums sum i (j + 1) (dp.set j.toNat x) := by
  refine ⟨by rw [List.length_set, h.length], fun b hb hbs => ?_⟩
  by_cases he : b = j
  · subst he
    rw [if_pos (by omega)]
    exact ⟨x, List.getElem?_set_self (by rw [h.length]; omega), hx⟩
  · have hiff : b < j + 1 ↔ b < j := by omega
    simp only [hiff]
    rw [List.getElem?_set_ne (by omega)]
    exact h.entry b hb hbs

theorem Swept.keep (h : Swept nums sum i j dp) (hj : 0 ≤ j ∧ j ≤ sum)
    (hsame : (ways nums 1 (i.toNat + 1) j).Nonempty ↔ (ways nums 1 i.toNat j).Nonempty) :
    Swept nums sum i (j + 1) dp := by
  refine ⟨h.length, fun b hb hbs => ?_⟩
  obtain ⟨x, hx, hways⟩ := h.entry b hb hbs
  refine ⟨x, hx, hways.trans ?_⟩
  by_cases he : b = j
  · subst he
    rw [if_neg (lt_irrefl b), if_pos (by omega), hsame]
  · have hiff : b < j + 1 ↔ b < j := by omega
    simp only [hiff]

theorem Swept.body (hfits : Fits nums) (h : Swept nums sum i j dp) (hi : 1 ≤ i ∧ i < len) (hj : 1 ≤ j ∧ j ≤ sum)
    (hsum : sum ≤ intMax) : ∃ dp', body nums i dp j = some dp' ∧ Swept nums sum i (j + 1) dp' := by
  obtain ⟨p, hp⟩ : ∃ p : Fin len, (p.val : Int) = i := ⟨⟨i.toNat, by omega⟩, by simp only; omega⟩
  have hval : i.toNat = p.val := by omega
  have hstart : 1 ≤ p.val := by omega
  have hnum := hfits.nonneg p
  have hle := hfits.le_intMax p
  have hint : intMin ≤ j - nums p := by
    have hmin : intMin = -intMax - 1 := by decide
    omega
  rw [Compressed.body, elementAt_of_mem p hp, Option.bind_some, checkedInt_of_mem hint (by omega), Option.bind_some]
  by_cases hrest : 0 ≤ j - nums p
  · obtain ⟨before, hbefore, hways⟩ := h.entry j (by omega) hj.2
    rw [if_neg (lt_irrefl j), hval] at hways
    rw [if_pos hrest, hbefore, Option.bind_some]
    cases before with
    | true =>
        refine ⟨_, if_pos rfl, h.set (by omega) (iff_of_true rfl ?_)⟩
        rw [hval, nonempty_ways_succ hstart]
        exact .inl (hways.mp rfl)
    | false =>
        obtain ⟨x, hx, htaken⟩ := h.entry (j - nums p) hrest (by omega)
        have hnone : ¬ (ways nums 1 p.val j).Nonempty := fun hs => Bool.false_ne_true (hways.mpr hs)
        refine ⟨_, by rw [if_neg Bool.false_ne_true, hx, Option.map_some], h.set (by omega) ?_⟩
        rw [htaken, hval]
        by_cases hzero : nums p = 0
        · rw [if_neg (by omega), hzero, sub_zero, nonempty_ways_of_zero hstart hzero]
        · rw [if_pos (by omega), nonempty_ways_succ (t := j) hstart, or_iff_right hnone]
  · rw [if_neg hrest]
    refine ⟨dp, rfl, h.keep (by omega) ?_⟩
    rw [hval, nonempty_ways_succ hstart, ways_of_neg hfits.nonneg (not_le.mp hrest), or_iff_left Set.not_nonempty_empty]

theorem row_of_inside (hfits : Fits nums) (hn : 0 ≤ n) (hmax : n < intMax) (hinside : n = 0 ∨ n < len) (hsum : 0 ≤ sum)
    (hle : sum ≤ intMax) :
    ∃ b, row nums n sum = some b ∧ (b = true ↔ (ways nums 1 (n.toNat + 1) sum).Nonempty) := by
  have hround : ∀ i, 1 ≤ i → i < n + 1 → ∀ dp, Swept nums sum i 1 dp →
      ∃ dp', (Int.range 1 (sum + 1)).foldlM (body nums i) dp = some dp' ∧ Swept nums sum (i + 1) 1 dp' := by
    intro i hi hin dp hdp
    obtain ⟨dp', hloop, hswept⟩ := Loops.forInt_spec (I := fun j dp => Swept nums sum i j dp) (by omega : 1 ≤ sum + 1) hdp
      fun j hj hjs dp hdp => hdp.body hfits (by omega) (by omega) hle
    exact ⟨dp', hloop, hswept.next (by omega)⟩
  obtain ⟨dp, hloops, hswept⟩ := Loops.forInt_spec (I := fun i dp => Swept nums sum i 1 dp) (by omega : 1 ≤ n + 1)
    (swept_start hsum) hround
  obtain ⟨b, hb, hways⟩ := hswept.entry_before ⟨hsum, le_rfl⟩
  have hmin : intMin ≤ 0 := by decide
  have hlast : (n + 1).toNat = n.toNat + 1 := by omega
  refine ⟨b, ?_, hlast ▸ hways⟩
  rw [row, if_pos hsum, checkedInt_of_mem (by omega) (by omega), Option.bind_some, hloops, Option.bind_some, hb]

theorem row_of_zero (hn : intMin ≤ n) (hmax : n < intMax) : row nums n 0 = some true := by
  have hempty : Int.range 1 (0 + 1) = [] := rfl
  rw [row, if_pos le_rfl, checkedInt_of_mem (by omega) (by omega), Option.bind_some, hempty,
    Loops.foldlM_fixed fun i _ => rfl]
  rfl

/-- The last round reads the number n. -/
theorem row_of_outside (hn : 1 ≤ n) (hlen : len ≤ n) (hsum : 1 ≤ sum) : row nums n sum = none := by
  have hread : elementAt nums n = none := dif_neg (by omega)
  have hlast : ∀ dp, (Int.range 1 (sum + 1)).foldlM (body nums n) dp = none := by
    intro dp
    rw [Loops.range_eq_cons (by omega), List.foldlM_cons, body, hread]
    rfl
  rw [row, if_pos (by omega)]
  cases hnext : checkedInt (n + 1) with
  | none => rfl
  | some last =>
      obtain ⟨-, rfl⟩ := checkedInt_eq_some.mp hnext
      rw [Option.bind_some, Loops.range_concat hn, List.foldlM_append]
      cases List.foldlM (fun dp i => (Int.range 1 (sum + 1)).foldlM (body nums i) dp)
          ((List.replicate (sum + 1).toNat false).set 0 true) (Int.range 1 n) with
      | none => rfl
      | some dp =>
          have hround : [n].foldlM (fun dp i => (Int.range 1 (sum + 1)).foldlM (body nums i) dp) dp = none := by
            rw [List.foldlM_cons, hlast]
            rfl
          exact congrArg (Option.bind · _) hround

theorem table_cases {b : Bool} (h : table nums n sum = some b) : 0 ≤ n ∧ n < intMax := by
  obtain ⟨rows, hrows, h⟩ := Option.bind_eq_some_iff.mp h
  obtain ⟨dp, -, h⟩ := Option.bind_eq_some_iff.mp h
  obtain ⟨dp, hdp, h⟩ := Option.bind_eq_some_iff.mp h
  obtain ⟨⟨-, hmax⟩, -⟩ := checkedInt_eq_some.mp hrows
  obtain ⟨dp', -, hget⟩ := Option.bind_eq_some_iff.mp h
  obtain ⟨hin, -⟩ := Option.ite_none_right_eq_some.mp hget
  omega

theorem exists_both_iff {x y : Option Bool} {p q : Prop} (hx : ∃ b, x = some b ∧ (b = true ↔ p))
    (hy : ∃ b, y = some b ∧ (b = true ↔ q)) : (∃ b, x = some b ∧ y = some b) ↔ (q ↔ p) := by
  obtain ⟨b, rfl, hb⟩ := hx
  obtain ⟨c, rfl, hc⟩ := hy
  rw [← hb, ← hc, ← Bool.eq_iff_iff]
  constructor
  · rintro ⟨d, hd, hd'⟩
    exact Option.some_inj.mp (hd'.trans hd.symm)
  · rintro rfl
    exact ⟨c, rfl, rfl⟩

theorem none_iff_none (hn : n = 0) (hsum : sum ≠ 0) :
    SomeSum nums n.toNat sum ↔ (ways nums 1 (n.toNat + 1) sum).Nonempty := by
  subst hn
  have hrow : (ways nums 1 1 sum) = ∅ := ways_start_of_ne hsum
  refine iff_of_false (fun h => hsum (someSum_zero.mp h)) ?_
  rw [Int.toNat_zero, zero_add, hrow]
  exact Set.not_nonempty_empty

theorem agrees_iff (h : Fits nums) : Agrees nums ↔ Alike nums := by
  have hpos := h.sum_nonneg
  have hle := h.sum_le
  have hlen := int32_le len
  rw [Agrees, Alike, Compressed.canPartition, CanPartition.canPartition]
  by_cases hodd : (∑ p, nums p) % 2 ≠ 0
  · rw [h.halved_of_odd hodd, h.halved_of_odd hodd]
    exact iff_of_true ⟨false, rfl, rfl⟩ (.inl hodd)
  rw [or_iff_right hodd, h.halved_of_even (not_not.mp hodd), h.halved_of_even (not_not.mp hodd)]
  by_cases hsize : 0 ≤ int32 len ∧ int32 len < intMax
  · rw [and_iff_right hsize]
    have htable := table_returns h hsize.1 hlen hsize.2 (by omega : 0 ≤ (∑ p, nums p) / 2) (by omega)
    rcases eq_or_ne (∑ p, nums p) 0 with hzero | hzero
    · have hmin : intMin ≤ 0 := by decide
      rw [hzero, Int.zero_ediv] at htable ⊢
      refine iff_of_true ⟨true, row_of_zero (by omega) hsize.2, ?_⟩ (.inl rfl)
      obtain ⟨b, hb, hsum⟩ := htable
      rw [hb, hsum.mpr someSum_self]
    · rw [or_iff_right hzero]
      by_cases hinside : int32 len = 0 ∨ int32 len < len
      · have hrow := row_of_inside h hsize.1 hsize.2 hinside (by omega : 0 ≤ (∑ p, nums p) / 2) (by omega)
        rw [exists_both_iff hrow htable]
        rcases hinside with hnone | hinside
        · refine iff_of_true (none_iff_none hnone (by omega)) (.inl hnone)
        · rw [and_iff_right hinside]
          refine ⟨.inr, ?_⟩
          rintro (hnone | hsame)
          · exact none_iff_none hnone (by omega)
          · exact hsame
      · refine iff_of_false ?_ (by omega)
        rintro ⟨b, hb, -⟩
        rw [row_of_outside (by omega) (by omega) (by omega)] at hb
        exact Option.some_ne_none b hb.symm
  · refine iff_of_false ?_ fun hboth => hsize hboth.1
    rintro ⟨b, -, hb⟩
    exact hsize (table_cases hb)

/-- For a vector of fewer than INT_MAX numbers no sum but an odd one, and 0, is answered. -/
theorem alike_iff_of_lt (hlen : (len : Int) < intMax) : Alike nums ↔ (∑ p, nums p) % 2 ≠ 0 ∨ ∑ p, nums p = 0 := by
  have hmax : intMax = 2147483647 := rfl
  have hsize : int32 len = len := int32_of_mem (by omega) (by omega)
  rw [Alike, hsize, and_iff_right (by omega)]
  refine or_congr_right ⟨?_, .inl⟩
  rintro (hzero | hnone | ⟨hlt, -⟩)
  · exact hzero
  · have hempty : len = 0 := by omega
    subst hempty
    exact Fin.sum_univ_zero nums
  · exact absurd hlt (lt_irrefl _)

theorem agrees_iff_one : Agrees (fun _ : Fin 1 => 2) ↔ Alike fun _ : Fin 1 => 2 :=
  agrees_iff ⟨by decide, by decide⟩

theorem pair_reads_outside : ¬ ∀ (len : Nat) (nums : Fin len → Int), Fits nums → Agrees nums := by
  intro h
  obtain ⟨b, hb, -⟩ := h 2 (fun _ => 1) ⟨by decide, by decide⟩
  have hnone : canPartition (fun _ : Fin 2 => 1) = none := by decide
  exact Option.some_ne_none b (hb.symm.trans hnone)

end LearnNote.Algorithm.CanPartition.Compressed
