import Mathlib.Data.Int.ConditionallyCompleteOrder
import Mathlib.Data.Set.Monotone
import Mathlib.Order.ConditionallyCompleteLattice.Basic
import Mathlib.Order.Fin.Basic
import LearnNote.Lib.Rearrangement
import LearnNote.Lib.Unsigned

namespace LearnNote.Algorithm

open Lib

namespace QuickSort

variable {n : Nat}

def slot (n : Nat) (i : Int) : Option (Fin n) := if h : 0 ≤ i ∧ i < n then some ⟨i.toNat, by omega⟩ else none

/-- No result, here and below, is an access outside the vector or out of fuel. -/
def read (data : Fin n → Int) (i : Int) : Option Int := (slot n i).map data

def swap (i j : Int) (data : Fin n → Int) : Option (Fin n → Int) :=
  (slot n i).bind fun k => (slot n j).map fun l => data ∘ Equiv.swap k l

/-- The inner loop that moves j. The number bounds its rounds by j - i. -/
def whileRight (temp : Int) (data : Fin n → Int) (i : Int) : Nat → Int → Option Int
  | 0, j => some j
  | d + 1, j =>
      if i < j then (read data j).bind fun x => if temp ≤ x then whileRight temp data i d (j - 1) else some j
      else some j

def whileLeft (temp : Int) (data : Fin n → Int) (j : Int) : Nat → Int → Option Int
  | 0, i => some i
  | d + 1, i =>
      if i < j then (read data i).bind fun x => if x ≤ temp then whileLeft temp data j d (i + 1) else some i
      else some i

def round (temp i j : Int) (data : Fin n → Int) : Option (Int × Int × (Fin n → Int)) :=
  (whileRight temp data i (j - i).toNat j).bind fun j =>
    (whileLeft temp data j (j - i).toNat i).bind fun i =>
      (if i < j then swap i j data else some data).map fun data => (i, j, data)

def whileApart (temp : Int) : Nat → Int → Int → (Fin n → Int) → Option (Int × (Fin n → Int))
  | 0, _, _, _ => none
  | fuel + 1, i, j, data =>
      if i < j then (round temp i j data).bind fun r => whileApart temp fuel r.1 r.2.1 r.2.2
      else some (i, data)

def partition (fuel : Nat) (left right : Int) (data : Fin n → Int) : Option (Int × (Fin n → Int)) :=
  (read data left).bind fun temp =>
    (whileApart temp fuel left right data).bind fun r => (swap left r.1 r.2).map fun data => (r.1, data)

def quickSort : Nat → Int → Int → (Fin n → Int) → Option (Int × (Fin n → Int))
  | 0, _, _, _ => none
  | fuel + 1, left, right, data =>
      if right ≤ left then some (1, data)
      else
        (partition fuel left right data).bind fun r =>
          (quickSort fuel left (int32 (r.1 - 1)) r.2).bind fun q =>
            (quickSort fuel (int32 (r.1 + 1)) right q.2).map fun q => (0, q.2)

def Sorts (data : Fin n → Int) : Prop :=
  ∃ N, ∀ fuel, N ≤ fuel → ∃ r data', quickSort fuel 0 (lastIndex n) data = some (r, data') ∧ Monotone data' ∧
    ∃ σ : Equiv.Perm (Fin n), data' = data ∘ σ

/-- Between the cursors nothing is known; before them is what does not exceed the pivot, and
behind them what is not below it. -/
structure Split (temp : Int) (left right i j : Fin n) (data : Fin n → Int) : Prop where
  left_le : left ≤ i
  le : i ≤ j
  le_right : j ≤ right
  pivot : data left = temp
  below : ∀ m, left ≤ m → m ≤ i → data m ≤ temp
  above : ∀ m, j < m → m ≤ right → temp ≤ data m

variable {temp : Int} {left right i j k l : Fin n} {data : Fin n → Int} {d fuel : Nat}

theorem slot_val (k : Fin n) : slot n k.val = some k := by
  rw [slot, dif_pos ⟨Int.natCast_nonneg _, Int.ofNat_lt.mpr k.isLt⟩]
  rfl

theorem read_val (data : Fin n → Int) (k : Fin n) : read data k.val = some (data k) := by
  rw [read, slot_val, Option.map_some]

theorem swap_val (k l : Fin n) (data : Fin n → Int) : swap k.val l.val data = some (data ∘ Equiv.swap k l) := by
  rw [swap, slot_val, slot_val]
  rfl

theorem lt_val : (i.val : Int) < j.val ↔ i < j := Int.ofNat_lt

theorem whileRight_spec (hij : i ≤ j) (hd : j.val - i.val ≤ d) :
    ∃ k : Fin n, whileRight temp data i.val d j.val = some (k.val : Int) ∧ i ≤ k ∧ k ≤ j ∧
      (∀ m, k < m → m ≤ j → temp ≤ data m) ∧ (k = i ∨ data k < temp) := by
  induction d generalizing j with
  | zero =>
      have he : j = i := le_antisymm (Fin.le_def.mpr (by omega)) hij
      exact ⟨j, rfl, hij, le_rfl, fun m hm hmj => absurd (hm.trans_le hmj) (lt_irrefl _), .inl he⟩
  | succ d ih =>
      by_cases hlt : i < j
      · rw [whileRight, if_pos (lt_val.mpr hlt), read_val, Option.bind_some]
        by_cases hle : temp ≤ data j
        · rw [if_pos hle]
          have hij' : i.val < j.val := hlt
          obtain ⟨k, hk, hik, hkj, habove, hstop⟩ :=
            ih (j := ⟨j.val - 1, by omega⟩) (Fin.le_def.mpr (by simp only; omega)) (by simp only; omega)
          have hcast : ((j.val - 1 : Nat) : Int) = j.val - 1 := by omega
          simp only [hcast] at hk
          rw [Fin.le_def] at hkj
          simp only at hkj
          refine ⟨k, hk, hik, Fin.le_def.mpr (by omega), fun m hm hmj => ?_, hstop⟩
          rcases hmj.lt_or_eq with hmj | rfl
          · rw [Fin.lt_def] at hmj
            exact habove m hm (Fin.le_def.mpr (by simp only; omega))
          · exact hle
        · rw [if_neg hle]
          exact ⟨j, rfl, hij, le_rfl, fun m hm hmj => absurd (hm.trans_le hmj) (lt_irrefl _), .inr (not_le.mp hle)⟩
      · rw [whileRight, if_neg (fun h => hlt (lt_val.mp h))]
        have he : j = i := le_antisymm (not_lt.mp hlt) hij
        exact ⟨j, rfl, hij, le_rfl, fun m hm hmj => absurd (hm.trans_le hmj) (lt_irrefl _), .inl he⟩

theorem whileLeft_spec (hij : i ≤ j) (hd : j.val - i.val ≤ d) :
    ∃ k : Fin n, whileLeft temp data j.val d i.val = some (k.val : Int) ∧ i ≤ k ∧ k ≤ j ∧
      (∀ m, i ≤ m → m < k → data m ≤ temp) ∧ (k = j ∨ temp < data k) := by
  induction d generalizing i with
  | zero =>
      have he : i = j := le_antisymm hij (Fin.le_def.mpr (by omega))
      exact ⟨i, rfl, le_rfl, hij, fun m him hm => absurd (him.trans_lt hm) (lt_irrefl _), .inl he⟩
  | succ d ih =>
      by_cases hlt : i < j
      · rw [whileLeft, if_pos (lt_val.mpr hlt), read_val, Option.bind_some]
        by_cases hle : data i ≤ temp
        · rw [if_pos hle]
          have hij' : i.val < j.val := hlt
          obtain ⟨k, hk, hik, hkj, hbelow, hstop⟩ :=
            ih (i := ⟨i.val + 1, by omega⟩) (Fin.le_def.mpr (by simp only; omega)) (by simp only; omega)
          have hcast : ((i.val + 1 : Nat) : Int) = i.val + 1 := by omega
          simp only [hcast] at hk
          rw [Fin.le_def] at hik
          simp only at hik
          refine ⟨k, hk, Fin.le_def.mpr (by omega), hkj, fun m him hm => ?_, hstop⟩
          rcases him.lt_or_eq with him | rfl
          · rw [Fin.lt_def] at him
            exact hbelow m (Fin.le_def.mpr (by simp only; omega)) hm
          · exact hle
        · rw [if_neg hle]
          exact ⟨i, rfl, le_rfl, hij, fun m him hm => absurd (him.trans_lt hm) (lt_irrefl _), .inr (not_le.mp hle)⟩
      · rw [whileLeft, if_neg (fun h => hlt (lt_val.mp h))]
        have he : i = j := le_antisymm hij (not_lt.mp hlt)
        exact ⟨i, rfl, le_rfl, hij, fun m him hm => absurd (him.trans_lt hm) (lt_irrefl _), .inl he⟩

theorem swap_left (data : Fin n → Int) (k l : Fin n) : (data ∘ Equiv.swap k l) k = data l := by
  rw [Function.comp_apply, Equiv.swap_apply_left]

theorem swap_right (data : Fin n → Int) (k l : Fin n) : (data ∘ Equiv.swap k l) l = data k := by
  rw [Function.comp_apply, Equiv.swap_apply_right]

theorem swap_of_ne {m : Fin n} (hk : m ≠ k) (hl : m ≠ l) : (data ∘ Equiv.swap k l) m = data m := by
  rw [Function.comp_apply, Equiv.swap_apply_of_ne_of_ne hk hl]

theorem Split.meet (h : Split temp left right i j data) (hik : i ≤ k) (hkj : k ≤ j)
    (hbelow : ∀ m, i ≤ m → m < k → data m ≤ temp) (habove : ∀ m, k < m → m ≤ j → temp ≤ data m)
    (hk : k = i ∨ data k < temp) : Split temp left right k k data := by
  refine ⟨h.left_le.trans hik, le_rfl, hkj.trans h.le_right, h.pivot, fun m hlm hmk => ?_, fun m hkm hmr => ?_⟩
  · rcases le_total m i with hmi | him
    · exact h.below m hlm hmi
    · rcases hmk.lt_or_eq with hmk | rfl
      · exact hbelow m him hmk
      · rcases hk with rfl | hk
        · exact h.below m hlm le_rfl
        · exact hk.le
  · rcases le_or_gt m j with hmj | hjm
    · exact habove m hkm hmj
    · exact h.above m hjm hmr

theorem Split.exchange (h : Split temp left right i j data) (hik : i ≤ k) (hkl : k < l) (hlj : l ≤ j)
    (hbelow : ∀ m, i ≤ m → m < k → data m ≤ temp) (habove : ∀ m, l < m → m ≤ j → temp ≤ data m)
    (hk : temp < data k) (hl : data l < temp) : Split temp left right k l (data ∘ Equiv.swap k l) := by
  have hleft : left ≤ k := h.left_le.trans hik
  have hne : left ≠ k := by
    rintro rfl
    exact hk.ne' h.pivot
  refine ⟨hleft, hkl.le, hlj.trans h.le_right, ?_, fun m hlm hmk => ?_, fun m hlm hmr => ?_⟩
  · rw [swap_of_ne hne (hleft.trans_lt hkl).ne]
    exact h.pivot
  · rcases hmk.lt_or_eq with hmk | rfl
    · rw [swap_of_ne hmk.ne (hmk.trans hkl).ne]
      rcases le_total m i with hmi | him
      · exact h.below m hlm hmi
      · exact hbelow m him hmk
    · rw [swap_left]
      exact hl.le
  · rw [swap_of_ne (hkl.trans hlm).ne' hlm.ne']
    rcases le_or_gt m j with hmj | hjm
    · exact habove m hlm hmj
    · exact h.above m hjm hmr

/-- What one round of the outer loop does. After it j stands on an element that it will pass,
so only the first round may leave j where it is. -/
theorem round_spec (h : Split temp left right i j data) :
    ∃ (i' j' : Fin n) (data' : Fin n → Int),
      round temp i.val j.val data = some ((i'.val : Int), (j'.val : Int), data') ∧
      Split temp left right i' j' data' ∧ Rearranged (Set.Icc left right) data data' ∧
      i ≤ i' ∧ j' ≤ j ∧ (i' < j' → temp ≤ data' j') ∧ (i < j → temp ≤ data j → j' < j) := by
  obtain ⟨l, hright, hil, hlj, habove, hl⟩ := @whileRight_spec n temp i j data (j.val - i.val) h.le le_rfl
  obtain ⟨k, hleft, hik, hkl, hbelow, hk⟩ := @whileLeft_spec n temp i l data (l.val - i.val) hil le_rfl
  have hjump : i < j → temp ≤ data j → l < j := by
    intro hij hle
    refine lt_of_le_of_ne hlj ?_
    rintro rfl
    rcases hl with rfl | hlt
    · exact lt_irrefl _ hij
    · exact absurd hle (not_le.mpr hlt)
  have hj : ((j.val : Int) - i.val).toNat = j.val - i.val := by omega
  have hi : ((l.val : Int) - i.val).toNat = l.val - i.val := by omega
  rw [round, hj, hright, Option.bind_some, hi, hleft, Option.bind_some]
  by_cases hlt : k < l
  · have hkt : temp < data k := hk.resolve_left hlt.ne
    have hlt' : data l < temp := hl.resolve_left (hik.trans_lt hlt).ne'
    rw [if_pos (lt_val.mpr hlt), swap_val, Option.map_some]
    refine ⟨k, l, _, rfl, h.exchange hik hlt hlj hbelow habove hkt hlt', ?_, hik, hlj, fun _ => ?_, hjump⟩
    · have hlr := hlj.trans h.le_right
      have hlk := h.left_le.trans hik
      exact Rearranged.swap data ⟨hlk, hlt.le.trans hlr⟩ ⟨hlk.trans hlt.le, hlr⟩
    · rw [swap_right]
      exact hkt.le
  · obtain rfl : k = l := le_antisymm hkl (not_lt.mp hlt)
    rw [if_neg (fun hv => hlt (lt_val.mp hv)), Option.map_some]
    exact ⟨k, k, data, rfl, h.meet hik hlj hbelow habove hl, Rearranged.refl _ _, hik, hlj,
      fun hkk => absurd hkk (lt_irrefl _), hjump⟩

/-- The loop from a state where j will move: each round brings the cursors closer. -/
theorem whileApart_closer (h : Split temp left right i j data) (hj : i < j → temp ≤ data j)
    (hfuel : j.val - i.val < fuel) :
    ∃ (m : Fin n) (data' : Fin n → Int), whileApart temp fuel i.val j.val data = some ((m.val : Int), data') ∧
      Split temp left right m m data' ∧ Rearranged (Set.Icc left right) data data' := by
  induction fuel generalizing i j data with
  | zero => exact absurd hfuel (Nat.not_lt_zero _)
  | succ fuel ih =>
      rw [whileApart]
      by_cases hlt : i < j
      · obtain ⟨i', j', data', hround, hsplit, hre, hi', hj', hnext, hjump⟩ := round_spec h
        have hcloser : j' < j := hjump hlt (hj hlt)
        rw [Fin.lt_def] at hcloser
        rw [Fin.le_def] at hi'
        rw [if_pos (lt_val.mpr hlt), hround, Option.bind_some]
        obtain ⟨m, data'', hloop, hend, hre'⟩ := ih hsplit hnext (by omega)
        exact ⟨m, data'', hloop, hend, hre.trans hre'⟩
      · rw [if_neg (fun hv => hlt (lt_val.mp hv))]
        obtain rfl : i = j := le_antisymm h.le (not_lt.mp hlt)
        exact ⟨i, data, rfl, h, Rearranged.refl _ _⟩

theorem whileApart_spec (h : Split temp left right i j data) (hfuel : j.val - i.val + 1 < fuel) :
    ∃ (m : Fin n) (data' : Fin n → Int), whileApart temp fuel i.val j.val data = some ((m.val : Int), data') ∧
      Split temp left right m m data' ∧ Rearranged (Set.Icc left right) data data' := by
  by_cases hlt : i < j
  · obtain ⟨fuel, rfl⟩ : ∃ f, fuel = f + 1 := ⟨fuel - 1, by omega⟩
    obtain ⟨i', j', data', hround, hsplit, hre, hi', hj', hnext, -⟩ := round_spec h
    rw [Fin.le_def] at hi' hj'
    have hfew : j'.val - i'.val < fuel := by omega
    obtain ⟨m, data'', hloop, hend, hre'⟩ := whileApart_closer hsplit hnext hfew
    rw [whileApart, if_pos (lt_val.mpr hlt), hround, Option.bind_some]
    exact ⟨m, data'', hloop, hend, hre.trans hre'⟩
  · exact whileApart_closer h (fun hij => absurd hij hlt) (by omega)

theorem partition_spec (data : Fin n → Int) (hlt : left ≤ right) (hfuel : right.val - left.val + 1 < fuel) :
    ∃ (m : Fin n) (data' : Fin n → Int), partition fuel left.val right.val data = some ((m.val : Int), data') ∧
      left ≤ m ∧ m ≤ right ∧ Rearranged (Set.Icc left right) data data' ∧
      (∀ k, left ≤ k → k < m → data' k ≤ data' m) ∧ (∀ k, m < k → k ≤ right → data' m ≤ data' k) := by
  have hstart : Split (data left) left right left right data := by
    refine ⟨le_rfl, hlt, le_rfl, rfl, fun m hlm hml => ?_, fun m hrm hmr => ?_⟩
    · rw [le_antisymm hml hlm]
    · exact absurd (hrm.trans_le hmr) (lt_irrefl _)
  obtain ⟨m, data', hloop, hend, hre⟩ := whileApart_spec hstart hfuel
  rw [partition, read_val, Option.bind_some, hloop, Option.bind_some, swap_val, Option.map_some]
  refine ⟨m, data' ∘ Equiv.swap left m, rfl, hend.left_le, hend.le_right, ?_, fun k hlk hkm => ?_,
    fun k hmk hkr => ?_⟩
  · exact hre.trans (Rearranged.swap data' ⟨le_rfl, hlt⟩ ⟨hend.left_le, hend.le_right⟩)
  · rw [swap_right, hend.pivot]
    by_cases hk : k = left
    · rw [hk, swap_left]
      exact hend.below m hend.left_le le_rfl
    · rw [swap_of_ne hk hkm.ne]
      exact hend.below k hlk hkm.le
  · rw [swap_right, hend.pivot, swap_of_ne (hend.left_le.trans_lt hmk).ne' hmk.ne']
    exact hend.above k hmk hkr

def segment (n : Nat) (left right : Int) : Set (Fin n) := {k | left ≤ k.val ∧ k.val ≤ right}

theorem segment_val (left right : Fin n) : segment n left.val right.val = Set.Icc left right := by
  ext k
  simp only [segment, Set.mem_ofPred_eq, Set.mem_Icc, Fin.le_def, Int.ofNat_le]

theorem segment_mono {l r l' r' : Int} (hl : l ≤ l') (hr : r' ≤ r) : segment n l' r' ⊆ segment n l r :=
  fun _ hk => ⟨hl.trans hk.1, hk.2.trans hr⟩

theorem monotoneOn_segment {l r : Int} (h : r ≤ l) (data : Fin n → Int) : MonotoneOn data (segment n l r) := by
  intro i hi j hj _
  have he : i = j := Fin.ext (by have h1 := hi.1; have h2 := hi.2; have h3 := hj.1; have h4 := hj.2; omega)
  rw [he]

theorem exists_val {i : Int} (h : 0 ≤ i) (h' : i < n) : ∃ k : Fin n, (k.val : Int) = i :=
  ⟨⟨i.toNat, by omega⟩, Int.toNat_of_nonneg h⟩

theorem sorted_sides {left right : Int} {m : Fin n} {data data₁ data₂ : Fin n → Int}
    (hbelow : ∀ k ∈ segment n left right, k < m → data k ≤ data m)
    (habove : ∀ k ∈ segment n left right, m < k → data m ≤ data k)
    (hre₁ : Rearranged (segment n left (m.val - 1)) data data₁) (hm₁ : MonotoneOn data₁ (segment n left (m.val - 1)))
    (hre₂ : Rearranged (segment n (m.val + 1) right) data₁ data₂)
    (hm₂ : MonotoneOn data₂ (segment n (m.val + 1) right)) (hmr : m.val ≤ right) (hlm : left ≤ m.val) :
    MonotoneOn data₂ (segment n left right) := by
  have hin₁ {k : Fin n} (hk : k ∈ segment n left right) (hkm : k < m) : k ∈ segment n left (m.val - 1) := by
    rw [Fin.lt_def] at hkm
    exact ⟨hk.1, by omega⟩
  have hin₂ {k : Fin n} (hk : k ∈ segment n left right) (hmk : m < k) : k ∈ segment n (m.val + 1) right := by
    rw [Fin.lt_def] at hmk
    exact ⟨by omega, hk.2⟩
  have hout₁ {k : Fin n} (hmk : m ≤ k) : k ∉ segment n left (m.val - 1) := by
    rw [Fin.le_def] at hmk
    intro hk
    have hk' := hk.2
    omega
  have hout₂ {k : Fin n} (hkm : k ≤ m) : k ∉ segment n (m.val + 1) right := by
    rw [Fin.le_def] at hkm
    intro hk
    have hk' := hk.1
    omega
  have hpivot : data₂ m = data m := by rw [hre₂.outside (hout₂ le_rfl), hre₁.outside (hout₁ le_rfl)]
  have hside₁ : ∀ k ∈ segment n left (m.val - 1), data₁ k ≤ data m := by
    refine hre₁.forall_mem (P := (· ≤ data m)) (fun k hk => ?_)
    have hk' := hk.2
    exact hbelow k (segment_mono le_rfl (by omega) hk) (Fin.lt_def.mpr (by omega))
  have hside₂ : ∀ k ∈ segment n (m.val + 1) right, data m ≤ data₂ k := by
    refine hre₂.forall_mem (P := (data m ≤ ·)) (fun k hk => ?_)
    have hk' := hk.1
    have hmk : m < k := Fin.lt_def.mpr (by omega)
    rw [hre₁.outside (hout₁ hmk.le)]
    exact habove k (segment_mono (by omega) le_rfl hk) hmk
  refine monotoneOn_of_pivot (m := m) (fun k hk hkm => ?_) (fun k hk hmk => ?_) ?_ ?_
  · rw [hpivot, hre₂.outside (hout₂ hkm.le)]
    exact hside₁ k (hin₁ hk hkm)
  · rw [hpivot]
    exact hside₂ k (hin₂ hk hmk)
  · refine (hm₁.mono (fun k hk => hin₁ hk.1 hk.2)).congr (fun k hk => ?_)
    exact (hre₂.outside (hout₂ (le_of_lt hk.2))).symm
  · exact hm₂.mono (fun k hk => hin₂ hk.1 hk.2)

theorem quickSort_spec (hn : n < 2 ^ 31) {left right : Int} (data : Fin n → Int) (hl : 0 ≤ left) (hr : right < n)
    (hpos : 1 ≤ fuel) (hfuel : right - left + 3 ≤ fuel) :
    ∃ r data', quickSort fuel left right data = some (r, data') ∧ Rearranged (segment n left right) data data' ∧
      MonotoneOn data' (segment n left right) := by
  induction fuel generalizing left right data with
  | zero => exact absurd hpos (Nat.not_succ_le_zero 0)
  | succ fuel ih =>
      rw [quickSort]
      by_cases hle : right ≤ left
      · rw [if_pos hle]
        exact ⟨1, data, rfl, Rearranged.refl _ _, monotoneOn_segment hle data⟩
      · obtain ⟨l, rfl⟩ := exists_val hl (by omega : left < n)
        obtain ⟨r, rfl⟩ := exists_val (by omega : 0 ≤ right) hr
        have hlr : l ≤ r := Fin.le_def.mpr (by omega)
        have hfew : r.val - l.val + 1 < fuel := by omega
        obtain ⟨m, data', hpart, hlm, hmr, hre, hbelow, habove⟩ := partition_spec data hlr hfew
        have hm := m.isLt
        have hlm' := Fin.le_def.mp hlm
        have hmr' := Fin.le_def.mp hmr
        have hint₁ : int32 ((m.val : Int) - 1) = m.val - 1 := int32_of_mem (by omega) (by omega)
        have hint₂ : int32 ((m.val : Int) + 1) = m.val + 1 := int32_of_mem (by omega) (by omega)
        obtain ⟨q₁, data₁, hsort₁, hre₁, hm₁⟩ :=
          @ih l.val (m.val - 1) data' (by omega) (by omega) (by omega) (by omega)
        obtain ⟨q₂, data₂, hsort₂, hre₂, hm₂⟩ :=
          @ih (m.val + 1) r.val data₁ (by omega) (by omega) (by omega) (by omega)
        rw [if_neg hle, hpart, Option.bind_some, hint₁, hsort₁, Option.bind_some, hint₂, hsort₂, Option.map_some]
        rw [← segment_val] at hre
        refine ⟨0, data₂, rfl, ?_, ?_⟩
        · exact hre.trans ((hre₁.mono (segment_mono le_rfl (by omega))).trans
            (hre₂.mono (segment_mono (by omega) le_rfl)))
        · refine sorted_sides (fun k hk hkm => ?_) (fun k hk hmk => ?_) hre₁ hm₁ hre₂ hm₂ (by omega) (by omega)
          · rw [segment_val] at hk
            exact hbelow k hk.1 hkm
          · rw [segment_val] at hk
            exact habove k hmk hk.2

theorem quick_sort_sorts (hn : n < 2 ^ 31) (data : Fin n → Int) : Sorts data := by
  refine ⟨n + 2, fun fuel hfuel => ?_⟩
  have hlast := lastIndex_of_le (Nat.le_of_lt hn)
  obtain ⟨r, data', hsort, hre, hmono⟩ :=
    @quickSort_spec n fuel hn 0 (lastIndex n) data le_rfl (by omega) (by omega) (by omega)
  have hall (k : Fin n) : k ∈ segment n 0 (lastIndex n) := ⟨by omega, by have hk := k.isLt; omega⟩
  exact ⟨r, data', hsort, fun i j hij => hmono (hall i) (hall j) hij, hre.exists_perm⟩

theorem quick_sort_sorts_four : Sorts (fun k : Fin 4 => if k.val = 0 then 9 else if k.val = 3 then 2 else 5) :=
  quick_sort_sorts (by decide) _

/-- The number of the last element wraps around when it does not fit an int, and nothing is sorted. -/
theorem long_vector_unsorted : ¬ ∀ (n : Nat) (data : Fin n → Int), Sorts data := by
  intro h
  obtain ⟨N, hN⟩ := h (2 ^ 31 + 1) (fun k => if k.val = 0 then 1 else 0)
  obtain ⟨r, data', hsort, hmono, -⟩ := hN (N + 1) (Nat.le_succ N)
  have hlast : lastIndex (2 ^ 31 + 1) ≤ 0 := by decide
  rw [quickSort, if_pos hlast] at hsort
  cases hsort
  have hle := hmono (show (⟨0, by decide⟩ : Fin (2 ^ 31 + 1)) ≤ ⟨1, by decide⟩ from Nat.zero_le 1)
  exact absurd hle (by decide)

end QuickSort

end LearnNote.Algorithm
