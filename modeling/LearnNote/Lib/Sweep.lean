import Mathlib.Algebra.Order.Ring.Int
import Mathlib.Order.Bounds.Defs

namespace LearnNote.Lib.Sweep

variable {α : Type*} [LinearOrder α] {l l' starts ends : List α} {t : α} {i j k : Nat} {res : Int}

def upTo (l : List α) (t : α) : Nat := l.countP (· ≤ t)

/-- At t, the number begun less the number ended. -/
def overlap (starts ends : List α) (t : α) : Int := upTo starts t - upTo ends t

theorem upTo_perm (h : l.Perm l') : upTo l t = upTo l' t := h.countP_eq _

theorem upTo_le_length : upTo l t ≤ l.length := List.countP_le_length

theorem lt_upTo_iff (hl : l.Pairwise (· ≤ ·)) (hk : k < l.length) : k < upTo l t ↔ l[k] ≤ t := by
  induction l generalizing k with
  | nil => exact absurd hk (Nat.not_lt_zero k)
  | cons a l ih =>
      obtain ⟨hfirst, htail⟩ := List.pairwise_cons.mp hl
      by_cases ha : a ≤ t
      · have hcount : upTo (a :: l) t = upTo l t + 1 := List.countP_cons_of_pos (by simpa using ha)
        rw [hcount]
        cases k with
        | zero => exact iff_of_true (Nat.succ_pos _) ha
        | succ k => exact Nat.succ_lt_succ_iff.trans (ih htail (Nat.lt_of_succ_lt_succ hk))
      · have hbehind : ∀ b ∈ a :: l, ¬ b ≤ t := by
          intro b hb hle
          rcases List.mem_cons.mp hb with rfl | hb
          · exact ha hle
          · exact ha ((hfirst b hb).trans hle)
        have hcount : upTo (a :: l) t = 0 := List.countP_eq_zero.mpr fun b hb => by simpa using hbehind b hb
        rw [hcount]
        exact iff_of_false (Nat.not_lt_zero k) (hbehind _ (List.getElem_mem hk))

theorem countP_add_upTo {l : List (α × α)} (hl : ∀ m ∈ l, m.1 ≤ m.2) (t : α) :
    (l.countP fun m => m.1 ≤ t ∧ t < m.2) + upTo (l.map Prod.snd) t = upTo (l.map Prod.fst) t := by
  induction l with
  | nil => rfl
  | cons m l ih =>
      have htail := ih fun m hm => hl m (List.mem_cons_of_mem _ hm)
      have hm := hl m List.mem_cons_self
      simp only [upTo, List.map_cons, List.countP_cons, decide_eq_true_eq] at htail ⊢
      by_cases hend : m.2 ≤ t
      · rw [if_neg fun h => hend.not_gt h.2, if_pos hend, if_pos (hm.trans hend)]
        omega
      · by_cases hstart : m.1 ≤ t
        · rw [if_pos ⟨hstart, not_le.mp hend⟩, if_neg hend, if_pos hstart]
          omega
        · rw [if_neg fun h => hstart h.1, if_neg hend, if_neg hstart]
          omega

/-- After i of the starts and j of the ends, in their order, res is what was overlapping at most. A time that was
not reached has starts that are still to come, and no end that it does not count. -/
structure Swept (starts ends : List α) (i j : Nat) (res : Int) : Prop where
  nonneg : 0 ≤ res
  count_le : (i : Int) - j ≤ res
  attained : res = 0 ∨ ∃ t, res ≤ overlap starts ends t
  seen : ∀ t, overlap starts ends t ≤ res ∨ i < upTo starts t ∧ j ≤ upTo ends t

theorem swept_start : Swept starts ends 0 0 0 := by
  refine ⟨le_rfl, le_rfl, Or.inl rfl, fun t => ?_⟩
  rw [overlap]
  by_cases hzero : upTo starts t = 0
  · exact Or.inl (by omega)
  · exact Or.inr ⟨Nat.pos_of_ne_zero hzero, Nat.zero_le _⟩

theorem Swept.begin (h : Swept starts ends i j res) (hstarts : starts.Pairwise (· ≤ ·)) (hends : ends.Pairwise (· ≤ ·))
    (hi : i < starts.length) (hj : j < ends.length) (hlt : starts[i] < ends[j]) :
    Swept starts ends (i + 1) j (max res ((i + 1 : Nat) - j)) := by
  have hbegun : i < upTo starts starts[i] := (lt_upTo_iff hstarts hi).mpr le_rfl
  have hended : ¬ j < upTo ends starts[i] := fun h => hlt.not_ge ((lt_upTo_iff hends hj).mp h)
  refine ⟨h.nonneg.trans (le_max_left _ _), by omega, ?_, fun t => ?_⟩
  · rcases le_total res ((i + 1 : Nat) - j) with hmax | hmax
    · rw [max_eq_right hmax]
      exact Or.inr ⟨starts[i], by rw [overlap]; omega⟩
    · rw [max_eq_left hmax]
      exact h.attained
  · rcases h.seen t with hseen | ⟨hlt, hle⟩
    · exact Or.inl (hseen.trans (le_max_left _ _))
    · by_cases hlast : i + 1 < upTo starts t
      · exact Or.inr ⟨hlast, hle⟩
      · exact Or.inl (by rw [overlap]; omega)

theorem Swept.finish (h : Swept starts ends i j res) (hstarts : starts.Pairwise (· ≤ ·))
    (hends : ends.Pairwise (· ≤ ·)) (hi : i < starts.length) (hj : j < ends.length) (hle : ends[j] ≤ starts[i]) :
    Swept starts ends i (j + 1) (max res (i - (j + 1 : Nat))) := by
  have hcount := h.count_le
  have hmax : max res ((i : Int) - (j + 1 : Nat)) = res := max_eq_left (by omega)
  rw [hmax]
  refine ⟨h.nonneg, by omega, h.attained, fun t => (h.seen t).imp_right fun hseen => ⟨hseen.1, ?_⟩⟩
  exact (lt_upTo_iff hends hj).mpr (hle.trans ((lt_upTo_iff hstarts hi).mp hseen.1))

theorem Swept.overlap_le (h : Swept starts ends i j res) (hlength : starts.length = ends.length)
    (hdone : starts.length ≤ i ∨ ends.length ≤ j) (t : α) : overlap starts ends t ≤ res := by
  rcases h.seen t with hseen | ⟨hlt, hle⟩
  · exact hseen
  · have hstarts : upTo starts t ≤ starts.length := upTo_le_length
    have hnonneg := h.nonneg
    rw [overlap]
    omega

end LearnNote.Lib.Sweep
