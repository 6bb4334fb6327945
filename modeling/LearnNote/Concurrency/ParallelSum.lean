import Mathlib.Data.Int.ConditionallyCompleteOrder
import Mathlib.Data.List.Basic
import Mathlib.Order.CompletePartialOrder
import Mathlib.Order.ConditionallyCompleteLattice.Basic
import Mathlib.Order.Disjoint
import Mathlib.Order.Interval.Set.Basic
import LearnNote.Lib.Unsigned

namespace LearnNote.Concurrency.ParallelSum

def worker (r : Int × Int) : Set Int := Set.Icc r.1 r.2

def serialTask (max : Int) : Set Int := worker (0, max)

/-- The loop over the threads: how many are to come, the index of the next, and the bound it
starts from. The end of its range is computed in so many bits. -/
def launch (bits quotient : Nat) : Nat → Nat → Int → List (Int × Int)
  | 0, _, _ => []
  | rest + 1, t, min =>
      let range := int32 ((quotient * ((t + 1) % 2 ^ bits) % 2 ^ bits : Nat) : Int)
      (min, range) :: launch bits quotient rest (t + 1) (int32 (range + 1))

/-- The int is divided as an unsigned. -/
def concurrentTask (bits : Nat) (max : Int) (concurrentCount : Nat) : List (Int × Int) :=
  launch bits ((max % 4294967296).toNat / concurrentCount) concurrentCount 0 0

def MutexLock.concurrentTask : Int → Nat → List (Int × Int) := ParallelSum.concurrentTask 64

def PromiseFuture.concurrentTask : Int → Nat → List (Int × Int) := ParallelSum.concurrentTask 32

def covered (l : List (Int × Int)) : Set Int := {x | ∃ r ∈ l, x ∈ worker r}

variable {bits q count rest t : Nat} {max min : Int} {r : Int × Int} {l : List (Int × Int)}

theorem covered_cons (r : Int × Int) (l : List (Int × Int)) : covered (r :: l) = worker r ∪ covered l := by
  ext x
  simp [covered]

theorem worker_subset (h : r ∈ l) : worker r ⊆ covered l := fun _ hx => ⟨r, h, hx⟩

theorem launch_succ (hbits : 32 ≤ bits) (hq : q * count < 2 ^ 31) (hcount : count < 2 ^ 32)
    (ht : t + (rest + 1) = count) (hmin : int32 (q * (t + 1) + 1) = q * (t + 1) + 1 ∨ rest = 0) :
    launch bits q (rest + 1) t min = (min, (q * (t + 1) : Int)) :: launch bits q rest (t + 1) (q * (t + 1) + 1) := by
  have hle : q * (t + 1) ≤ q * count := Nat.mul_le_mul_left q (by omega)
  have hpow : 2 ^ 32 ≤ 2 ^ bits := Nat.pow_le_pow_right (by decide) hbits
  have hindex : (t + 1) % 2 ^ bits = t + 1 := Nat.mod_eq_of_lt (by omega)
  have hproduct : q * (t + 1) % 2 ^ bits = q * (t + 1) := Nat.mod_eq_of_lt (by omega)
  have hcast : ((q * (t + 1) : Nat) : Int) = q * (t + 1) := by
    rw [Int.natCast_mul, Int.natCast_add, Int.natCast_one]
  have hend : int32 ((q * (t + 1) : Nat) : Int) = q * (t + 1) := by
    rw [int32_of_mem (by omega) (by omega), hcast]
  rw [launch, hindex, hproduct, hend]
  rcases hmin with hmin | rfl
  · simp only [hmin]
  · simp only [launch]

theorem next_fits (hq : q * count < 2 ^ 31) (ht : t + 1 < count) :
    int32 ((q : Int) * (t + 1) + 1) = q * (t + 1) + 1 := by
  have hnext : q * (t + 1) + q ≤ q * count := by
    rw [← Nat.mul_succ]
    exact Nat.mul_le_mul_left q ht
  have hcast : ((q * (t + 1) : Nat) : Int) = q * (t + 1) := by
    rw [Int.natCast_mul, Int.natCast_add, Int.natCast_one]
  have hsmall : q * (t + 1) + 1 < 2 ^ 31 := by
    rcases Nat.eq_zero_or_pos q with rfl | hpos
    · simp
    · omega
  rw [← hcast]
  exact int32_of_mem (by omega) (by omega)

/-- The ranges that are to come are apart, and together go from the next bound to the last end. -/
theorem launch_covers (hbits : 32 ≤ bits) (hq : q * count < 2 ^ 31) (hcount : count < 2 ^ 32) (ht : t + rest = count)
    (hmin : min ≤ q * t + 1) (hlast : rest = 0 → min = q * t + 1) :
    covered (launch bits q rest t min) = Set.Icc min (q * count) ∧
      (launch bits q rest t min).Pairwise (fun r r' => Disjoint (worker r) (worker r')) := by
  induction rest generalizing t min with
  | zero =>
      subst ht
      refine ⟨?_, List.Pairwise.nil⟩
      rw [hlast rfl, Nat.add_zero, Set.Icc_eq_empty (by omega)]
      ext x
      simp [covered, launch]
  | succ rest ih =>
      have hfits : int32 (q * (t + 1) + 1) = q * (t + 1) + 1 ∨ rest = 0 := by
        rcases Nat.eq_zero_or_pos rest with hrest | hrest
        · exact .inr hrest
        · exact .inl (next_fits hq (by omega))
      have hcast : (q : Int) * ((t + 1 : Nat) : Int) = q * (t + 1) := by rw [Int.natCast_add, Int.natCast_one]
      obtain ⟨hcovered, hpairwise⟩ := @ih (t + 1) (q * (t + 1) + 1) (by omega) (by rw [hcast]) (by simp)
      have hle : (q : Int) * (t + 1) ≤ q * count := by
        rw [← hcast]
        exact Int.mul_le_mul_of_nonneg_left (by omega) (Int.natCast_nonneg q)
      have hlow : min ≤ q * (t + 1) + 1 := by
        rw [Int.mul_add]
        omega
      rw [launch_succ hbits hq hcount ht hfits, covered_cons, hcovered]
      refine ⟨?_, List.pairwise_cons.mpr ⟨fun r hr => ?_, hpairwise⟩⟩
      · ext x
        simp only [worker, Set.mem_union, Set.mem_Icc]
        omega
      · rw [Set.disjoint_left]
        intro x hx hxr
        have hlater := worker_subset hr hxr
        rw [hcovered] at hlater
        have h1 := hx.2
        have h2 := hlater.1
        simp only at h1
        omega

theorem concurrentTask_covers (hbits : 32 ≤ bits) (hmax : 0 ≤ max) (hmax' : max < 2147483648) (hpos : 0 < count)
    (hcount : count < 2 ^ 32) :
    covered (concurrentTask bits max count) = Set.Icc 0 (max / count * count) ∧
      (concurrentTask bits max count).Pairwise (fun r r' => Disjoint (worker r) (worker r')) := by
  have hunsigned : max % 4294967296 = max := Int.emod_eq_of_lt hmax (by omega)
  have hquotient : ((max.toNat / count : Nat) : Int) = max / count := by
    rw [Int.natCast_ediv, Int.toNat_of_nonneg hmax]
  have hfits : max.toNat / count * count < 2 ^ 31 := (Nat.div_mul_le_self _ _).trans_lt (by omega)
  have hcovers := @launch_covers _ _ _ _ _ 0 hbits hfits hcount (Nat.zero_add count) (by omega) (by omega)
  rw [hquotient] at hcovers
  rw [concurrentTask, hunsigned]
  exact hcovers

/-- The ranges are apart, and they are together what the serial task visits just when the
number of threads divides its end: the remainder of the division is left out. -/
theorem ranges_cover_iff {max : Int} {concurrentCount : Nat} (hmax : 0 ≤ max) (hmax' : max < 2147483648)
    (hpos : 1 ≤ concurrentCount) (hcount : concurrentCount < 2 ^ 32) :
    ∀ l ∈ [MutexLock.concurrentTask max concurrentCount, PromiseFuture.concurrentTask max concurrentCount],
      l.Pairwise (fun r r' => Disjoint (worker r) (worker r')) ∧
        (covered l = serialTask max ↔ (concurrentCount : Int) ∣ max) := by
  have hends :
      Set.Icc 0 (max / concurrentCount * concurrentCount) = serialTask max ↔ (concurrentCount : Int) ∣ max := by
    constructor
    · intro hsame
      have hin : max ∈ serialTask max := ⟨hmax, le_rfl⟩
      rw [← hsame] at hin
      have hle := Int.ediv_mul_le max (b := concurrentCount) (by omega)
      have heq : max / concurrentCount * concurrentCount = max := le_antisymm hle hin.2
      rw [← heq]
      exact Int.dvd_mul_left _ _
    · intro hdvd
      rw [Int.ediv_mul_cancel hdvd]
      rfl
  intro l hl
  rcases List.mem_pair.mp hl with rfl | rfl
  · obtain ⟨hcovered, hpairwise⟩ := @concurrentTask_covers 64 _ _ (by decide) hmax hmax' hpos hcount
    exact ⟨hpairwise, by rw [MutexLock.concurrentTask, hcovered, hends]⟩
  · obtain ⟨hcovered, hpairwise⟩ := @concurrentTask_covers 32 _ _ (by decide) hmax hmax' hpos hcount
    exact ⟨hpairwise, by rw [PromiseFuture.concurrentTask, hcovered, hends]⟩

theorem ranges_cover_iff_four :
    covered (MutexLock.concurrentTask 1000000000 4) = serialTask 1000000000 ∧
      covered (PromiseFuture.concurrentTask 1000000000 4) = serialTask 1000000000 := by
  have hranges := @ranges_cover_iff 1000000000 4 (by decide) (by decide) (by decide) (by decide)
  have hdvd : ((4 : Nat) : Int) ∣ 1000000000 := by decide
  exact ⟨(hranges _ List.mem_cons_self).2.mpr hdvd, (hranges _ (by simp)).2.mpr hdvd⟩

theorem last_piece_dropped :
    ¬ ∀ (max : Int) (count : Nat), 0 ≤ max → max < 2147483648 → 1 ≤ count → count < 2 ^ 32 →
      covered (MutexLock.concurrentTask max count) = serialTask max := by
  intro h
  have hin : (10 : Int) ∈ serialTask 10 := ⟨by decide, by decide⟩
  rw [← h 10 3 (by decide) (by decide) (by decide) (by decide)] at hin
  obtain ⟨r, hr, hx⟩ := hin
  have hranges : MutexLock.concurrentTask 10 3 = [(0, 3), (4, 6), (7, 9)] := by decide
  rw [hranges] at hr
  have hend : r.2 ≤ 9 := by
    simp only [List.mem_cons, List.not_mem_nil, or_false] at hr
    rcases hr with rfl | rfl | rfl <;> decide
  exact absurd (hx.2.trans hend) (by decide)

end LearnNote.Concurrency.ParallelSum
