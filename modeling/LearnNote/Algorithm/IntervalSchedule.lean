import LearnNote.Lib.CheckedInt
import LearnNote.Lib.Loops
import LearnNote.Lib.Packing

namespace LearnNote.Algorithm.IntervalSchedule

open Lib Packing

/-- What sort does with the comparison of the ends. Which order equal ends have is not said. -/
structure Sorting where
  sort : List (Int × Int) → List (Int × Int)
  perm : ∀ intvs, (sort intvs).Perm intvs
  sorted : ∀ intvs, (sort intvs).Pairwise (·.2 ≤ ·.2)

def mergeSorting : Sorting where
  sort intvs := intvs.mergeSort fun a b => decide (a.2 ≤ b.2)
  perm intvs := List.mergeSort_perm intvs _
  sorted intvs := by
    have htrans : ∀ a b c : Int × Int, decide (a.2 ≤ b.2) = true → decide (b.2 ≤ c.2) = true →
        decide (a.2 ≤ c.2) = true := fun a b c hab hbc =>
      decide_eq_true ((of_decide_eq_true hab).trans (of_decide_eq_true hbc))
    have htotal : ∀ a b : Int × Int, (decide (a.2 ≤ b.2) || decide (b.2 ≤ a.2)) = true := fun a b => by
      simpa using le_total a.2 b.2
    exact (List.pairwise_mergeSort htrans htotal intvs).imp of_decide_eq_true

/-- The body of the loop, on count and x_end. No result is a count that overflows. -/
def body (s : Int × Int) (interval : Int × Int) : Option (Int × Int) :=
  if s.2 ≤ interval.1 then (checkedInt (s.1 + 1)).map fun count => (count, interval.2) else some s

def intervalSchedule (s : Sorting) (intvs : List (Int × Int)) : Option Int :=
  if intvs = [] then some 0
  else (s.sort intvs).head?.bind fun first => ((s.sort intvs).foldlM body (1, first.2)).map Prod.fst

variable {s : Sorting} {intvs rest : List (Int × Int)} {first : Int × Int} {count x_end : Int}

theorem foldlM_body (hcount : intMin ≤ count ∧ count ≤ intMax) :
    (rest.foldlM body (count, x_end)).map Prod.fst = checkedInt (count + greedy x_end rest) := by
  induction rest generalizing count x_end with
  | nil =>
      have hzero : count + ((0 : Nat) : Int) = count := by omega
      rw [greedy, hzero, checkedInt_of_mem hcount.1 hcount.2]
      rfl
  | cons a rest ih =>
      rw [List.foldlM_cons, greedy, body]
      by_cases hx : x_end ≤ a.1
      · rw [if_pos hx, if_pos hx]
        by_cases hmax : count + 1 ≤ intMax
        · rw [checkedInt_of_mem (by omega) hmax]
          have hnext : (rest.foldlM body (count + 1, a.2)).map Prod.fst = checkedInt (count + 1 + greedy a.2 rest) :=
            ih (by omega)
          have hsum : count + 1 + (greedy a.2 rest : Int) = count + (greedy a.2 rest + 1 : Nat) := by omega
          exact hnext.trans (congrArg checkedInt hsum)
        · have hnext : checkedInt (count + 1) = none := if_neg (by omega)
          have hover : checkedInt (count + (greedy a.2 rest + 1 : Nat)) = none := if_neg (by omega)
          rw [hnext, hover]
          rfl
      · rw [if_neg hx, if_neg hx]
        exact ih hcount

theorem intervalSchedule_eq (hsort : s.sort intvs = first :: rest) (hproper : first.1 < first.2) :
    intervalSchedule s intvs = checkedInt (greedy first.2 rest + 1 : Nat) := by
  have hne : intvs ≠ [] := by
    rintro rfl
    have hnil := (s.perm []).eq_nil
    rw [hsort] at hnil
    cases hnil
  have hone : intMin ≤ 1 ∧ (1 : Int) ≤ intMax := by decide
  have hcount : (1 : Int) + (greedy first.2 rest : Nat) = (greedy first.2 rest + 1 : Nat) := by omega
  rw [intervalSchedule, if_neg hne, hsort, List.head?_cons, Option.bind_some, foldlM_body hone, greedy,
    if_neg hproper.not_ge, hcount]

theorem schedules (s : Sorting) (hne : intvs ≠ []) (hproper : ∀ i ∈ intvs, i.1 < i.2) :
    ∃ m : Nat, Largest intvs m ∧ intervalSchedule s intvs = checkedInt m := by
  have hperm := s.perm intvs
  obtain ⟨first, rest, hsort⟩ : ∃ first rest, s.sort intvs = first :: rest :=
    List.exists_cons_of_ne_nil fun hnil => hne (hperm.symm.trans (List.Perm.of_eq hnil)).eq_nil
  have hsorted := s.sorted intvs
  have hall : ∀ i ∈ s.sort intvs, i.1 < i.2 := fun i hi => hproper i (hperm.mem_iff.mp hi)
  rw [hsort] at hperm hsorted hall
  exact ⟨_, (largest_greedy hall hsorted).perm hperm, intervalSchedule_eq hsort (hall first List.mem_cons_self)⟩

theorem returns_iff (s : Sorting) (intvs : List (Int × Int)) (hne : intvs ≠ []) (hproper : ∀ i ∈ intvs, i.1 < i.2) :
    ∃ m : Nat, Largest intvs m ∧ (intervalSchedule s intvs = some (m : Int) ↔ (m : Int) ≤ intMax) := by
  obtain ⟨m, hm, hcall⟩ := schedules s hne hproper
  have hmin : intMin = -2147483648 := rfl
  refine ⟨m, hm, ?_⟩
  rw [hcall, checkedInt_eq_some]
  exact ⟨fun h => h.1.2, fun h => ⟨⟨by omega, h⟩, rfl⟩⟩

theorem returns_iff_three : ∃ m : Nat, Largest [((1 : Int), (3 : Int)), (2, 4), (3, 4)] m ∧
    (intervalSchedule mergeSorting [(1, 3), (2, 4), (3, 4)] = some (m : Int) ↔ (m : Int) ≤ intMax) :=
  returns_iff mergeSorting [(1, 3), (2, 4), (3, 4)] (by decide) (by decide)

/-- The intervals between neighbouring ints, of which any two are apart. -/
def neighbours (a : Int) (n : Nat) : List (Int × Int) := (List.range n).map fun k : Nat => (a + k, a + k + 1)

theorem largest_neighbours {a : Int} {n m : Nat} (hm : Largest (neighbours a n) m) : n ≤ m := by
  have happ : (neighbours a n).Pairwise Apart := by
    refine List.pairwise_map.mpr (List.pairwise_lt_range.imp fun {j k} hjk => Or.inl ?_)
    simp only
    omega
  have hlength : (neighbours a n).length = n := by rw [neighbours, List.length_map, List.length_range]
  exact hm.2 ⟨neighbours a n, List.Sublist.refl _, happ, hlength⟩

/-- 2 ^ 31 intervals, each of ints. -/
theorem count_overflows : ¬ ∀ (s : Sorting) (intvs : List (Int × Int)), intvs ≠ [] →
    (∀ i ∈ intvs, i.1 < i.2 ∧ intMin ≤ i.1 ∧ i.2 ≤ intMax) →
    ∃ m : Nat, Largest intvs m ∧ intervalSchedule s intvs = some (m : Int) := by
  intro hall
  have hmin : intMin = -2147483648 := rfl
  have hmax : intMax = 2147483647 := rfl
  have hbounds : ∀ i ∈ neighbours (-1073741824) 2147483648, i.1 < i.2 ∧ intMin ≤ i.1 ∧ i.2 ≤ intMax := by
    intro i hi
    obtain ⟨k, hk, rfl⟩ := List.mem_map.mp hi
    have hlt := List.mem_range.mp hk
    simp only
    omega
  have hne : neighbours (-1073741824) 2147483648 ≠ [] := by
    intro hnil
    have hrange := List.range_eq_nil.mp (List.map_eq_nil_iff.mp hnil)
    omega
  obtain ⟨m, hm, hcall⟩ := hall mergeSorting _ hne hbounds
  obtain ⟨n, hn, hcount⟩ := schedules mergeSorting hne fun i hi => (hbounds i hi).1
  have hle := largest_neighbours hn
  rw [hcount, checkedInt_eq_some] at hcall
  omega

end LearnNote.Algorithm.IntervalSchedule
