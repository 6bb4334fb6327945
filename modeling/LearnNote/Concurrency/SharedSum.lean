import Mathlib.Algebra.BigOperators.Intervals
import Mathlib.Analysis.SpecialFunctions.Sqrt
import Mathlib.Data.Int.Interval
import LearnNote.Concurrency.ParallelSum
import LearnNote.Lib.SharedCell

namespace LearnNote.Concurrency.SharedSum

open Lib Lib.Transition Lib.SharedCell

variable {M : Type*} [AddCommGroup M]

def visits (r : Int × Int) : List Int := (List.range (r.2 + 1 - r.1).toNat).map fun k : Nat => r.1 + (k : Int)

/-- What a worker adds to the sum, one after another. -/
def NaiveMultithread.worker (sqrt : Int → M) (r : Int × Int) : List M := (visits r).map sqrt

/-- Each addition is under the lock. -/
def MutexLock.worker (sqrt : Int → M) (r : Int × Int) : List M := (visits r).map sqrt

/-- The roots of a range added up in a variable of the thread's own. -/
def rootSum (sqrt : Int → M) (r : Int × Int) : M := (visits r).foldl (fun temp i => temp + sqrt i) 0

/-- Only this sum is added under the lock. -/
def ImprovedMutexLock.worker (sqrt : Int → M) (r : Int × Int) : List M := [rootSum sqrt r]

def serialTask (worker : Int × Int → List M) (max : Int) : M := (worker (0, max)).sum

def concurrentTask (worker : Int × Int → List M) (max : Int) (concurrentCount : Nat) : SharedCell M :=
  SharedCell.start ((ParallelSum.MutexLock.concurrentTask max concurrentCount).map worker)

variable {sqrt : Int → M} {worker : Int × Int → List M} {max : Int} {count : Nat}

theorem mem_visits {r : Int × Int} {i : Int} : i ∈ visits r ↔ r.1 ≤ i ∧ i ≤ r.2 := by
  simp only [visits, List.mem_map, List.mem_range]
  constructor
  · rintro ⟨k, hk, rfl⟩
    omega
  · intro hi
    exact ⟨(i - r.1).toNat, by omega, by omega⟩

theorem sum_visits (sqrt : Int → M) (r : Int × Int) : ((visits r).map sqrt).sum = ∑ i ∈ Finset.Icc r.1 r.2, sqrt i := by
  have hnodup : (visits r).Nodup := by
    refine List.Nodup.map (fun k k' hk => ?_) List.nodup_range
    simpa using hk
  have hvisits : Finset.Icc r.1 r.2 = (visits r).toFinset := by
    ext i
    rw [Finset.mem_Icc, List.mem_toFinset, mem_visits]
  rw [hvisits, List.sum_toFinset _ hnodup]

theorem foldl_add {α : Type*} (f : α → M) (l : List α) (x : M) :
    l.foldl (fun temp i => temp + f i) x = x + (l.map f).sum := by
  induction l generalizing x with
  | nil => simp
  | cons i l ih => rw [List.foldl_cons, ih, List.map_cons, List.sum_cons, add_assoc]

theorem rootSum_eq (sqrt : Int → M) (r : Int × Int) : rootSum sqrt r = ∑ i ∈ Finset.Icc r.1 r.2, sqrt i := by
  rw [rootSum, foldl_add, zero_add, sum_visits]

theorem sum_worker (h : worker ∈ [MutexLock.worker sqrt, ImprovedMutexLock.worker sqrt]) (r : Int × Int) :
    (worker r).sum = ∑ i ∈ Finset.Icc r.1 r.2, sqrt i := by
  rcases List.mem_pair.mp h with rfl | rfl
  · exact sum_visits sqrt r
  · rw [ImprovedMutexLock.worker, List.sum_singleton, rootSum_eq]

theorem sum_ranges (sqrt : Int → M) {l : List (Int × Int)} {S : Finset Int}
    (happart : l.Pairwise (fun r r' => Disjoint (ParallelSum.worker r) (ParallelSum.worker r')))
    (hcovered : ParallelSum.covered l = S) :
    (l.map fun r => ∑ i ∈ Finset.Icc r.1 r.2, sqrt i).sum = ∑ i ∈ S, sqrt i := by
  induction l generalizing S with
  | nil =>
      have hempty : S = ∅ := by
        ext x
        rw [← Finset.mem_coe, ← hcovered]
        simp [ParallelSum.covered]
      rw [hempty]
      rfl
  | cons r l ih =>
      obtain ⟨hfirst, hrest⟩ := List.pairwise_cons.mp happart
      rw [ParallelSum.covered_cons] at hcovered
      have hsub : Finset.Icc r.1 r.2 ⊆ S := by
        rw [← Finset.coe_subset, ← hcovered, Finset.coe_Icc]
        exact Set.subset_union_left
      have hothers : ParallelSum.covered l = ↑(S \ Finset.Icc r.1 r.2) := by
        have hdisjoint : Disjoint (ParallelSum.covered l) (Set.Icc r.1 r.2) := by
          rw [Set.disjoint_left]
          rintro x ⟨r', hr', hx⟩ hin
          exact Set.disjoint_left.mp (hfirst r' hr') hin hx
        rw [Finset.coe_sdiff, ← hcovered, Finset.coe_Icc, ParallelSum.worker, Set.union_sdiff_left,
          hdisjoint.sdiff_eq_left]
      rw [List.map_cons, List.sum_cons, ih hrest hothers, add_comm, Finset.sum_sdiff hsub]

theorem sum_concurrentTask (hsum : ∀ r, (worker r).sum = ∑ i ∈ Finset.Icc r.1 r.2, sqrt i) (hmax : 0 ≤ max)
    (hmax' : max < 2147483647) (hpos : 1 ≤ count) (hcount : count < 2 ^ 32) :
    (((ParallelSum.MutexLock.concurrentTask max count).map worker).map List.sum).sum =
      ∑ i ∈ Finset.Icc 0 (max / count * count), sqrt i := by
  obtain ⟨hcovers, happart⟩ :=
    @ParallelSum.concurrentTask_covers 64 count max (by decide) hmax (by omega) hpos hcount
  have hsums : List.sum ∘ worker = fun r => ∑ i ∈ Finset.Icc r.1 r.2, sqrt i := funext hsum
  rw [List.map_map, hsums]
  exact sum_ranges sqrt happart (by rw [Finset.coe_Icc]; exact hcovers)

/-- With the lock, for each root or for each worker, the threads come to their end with the sum of
the serial task but for the roots behind the last range. -/
theorem locked_sum_exact (sqrt : Int → M) {max : Int} {concurrentCount : Nat} (hmax : 0 ≤ max)
    (hmax' : max < 2147483647) (hpos : 1 ≤ concurrentCount) (hcount : concurrentCount < 2 ^ 32) :
    ∀ worker ∈ [MutexLock.worker sqrt, ImprovedMutexLock.worker sqrt],
      ∀ s, Reachable (· = concurrentTask worker max concurrentCount) step Locked s →
        (∃ a s', Locked a s ∧ step a s = some s') ∨
          s.value + ∑ i ∈ Finset.Ioc (max / concurrentCount * concurrentCount) max, sqrt i = serialTask worker max := by
  intro worker hworker s hs
  rcases value_of_locked hs with hgoes | hvalue
  · exact .inl hgoes
  · right
    have hle : max / concurrentCount * concurrentCount ≤ max := Int.ediv_mul_le max (by omega)
    have hnonneg : 0 ≤ max / concurrentCount * concurrentCount :=
      Int.mul_nonneg (Int.ediv_nonneg hmax (by omega)) (by omega)
    rw [hvalue, sum_concurrentTask (sum_worker hworker) hmax hmax' hpos hcount, serialTask, sum_worker hworker,
      ← Finset.sum_union]
    · congr 1
      ext i
      simp only [Finset.mem_union, Finset.mem_Icc, Finset.mem_Ioc]
      omega
    · rw [Finset.disjoint_left]
      intro i hi hi'
      have h1 := (Finset.mem_Icc.mp hi).2
      have h2 := (Finset.mem_Ioc.mp hi').1
      omega

theorem locked_sum_exact_two :
    ∃ s, Reachable (· = concurrentTask (ImprovedMutexLock.worker fun i : Int => √(i : ℝ)) 3 2) step Locked s ∧
      s.Finished ∧ s.value + ∑ i ∈ Finset.Ioc 2 3, √((i : Int) : ℝ) =
        serialTask (ImprovedMutexLock.worker fun i : Int => √(i : ℝ)) 3 := by
  have hranges : ParallelSum.MutexLock.concurrentTask 3 2 = [(0, 1), (2, 2)] := by decide
  let first : ℝ := rootSum (fun i : Int => √(i : ℝ)) (0, 1)
  let second : ℝ := rootSum (fun i : Int => √(i : ℝ)) (2, 2)
  have hstart : concurrentTask (ImprovedMutexLock.worker fun i : Int => √(i : ℝ)) 3 2 =
      ⟨0, [⟨[first], none⟩, ⟨[second], none⟩]⟩ := by
    rw [concurrentTask, hranges]
    rfl
  have hreachable : Reachable (· = concurrentTask (ImprovedMutexLock.worker fun i : Int => √(i : ℝ)) 3 2) step Locked
      ⟨0 + second + first, [⟨[], none⟩, ⟨[], none⟩]⟩ := by
    refine .next (.store 0) (.next (.load 0) (.next (.store 1) (.next (.load 1) (.start hstart.symm) ?_ rfl) trivial
      rfl) ?_ rfl) trivial rfl <;> simp [Locked]
  have hdone : Finished (M := ℝ) ⟨0 + second + first, [⟨[], none⟩, ⟨[], none⟩]⟩ := by simp [Finished]
  refine ⟨_, hreachable, hdone, ?_⟩
  rcases locked_sum_exact (fun i : Int => √(i : ℝ)) (by decide) (by decide) (by decide) (by decide) _ (by simp) _
    hreachable with ⟨a, s', -, hs⟩ | hvalue
  · cases (step_of_finished hdone a).symm.trans hs
  · exact hvalue

section Futures

/-- The thread's loop stops before the end of its range. -/
def PackedTask.concurrentWork (sqrt : Int → M) (r : Int × Int) : M := rootSum sqrt (r.1, r.2 - 1)

def PromiseFuture.concurrentWorker (sqrt : Int → M) (r : Int × Int) : M := rootSum sqrt r

def getAll (work : Int × Int → M) (max : Int) (concurrentCount : Nat) : M :=
  (ParallelSum.PromiseFuture.concurrentTask max concurrentCount).foldl (fun sum r => sum + work r) 0

def PackedTask.concurrentTask (sqrt : Int → M) : Int → Nat → M := getAll (PackedTask.concurrentWork sqrt)

def PromiseFuture.concurrentTask (sqrt : Int → M) : Int → Nat → M := getAll (PromiseFuture.concurrentWorker sqrt)

theorem getAll_eq (work : Int × Int → M) (max : Int) (concurrentCount : Nat) :
    getAll work max concurrentCount = ((ParallelSum.PromiseFuture.concurrentTask max concurrentCount).map work).sum := by
  rw [getAll, foldl_add, zero_add]

def shorten (r : Int × Int) : Int × Int := (r.1, r.2 - 1)

/-- Without the ends of the ranges the multiples of the quotient are left out. -/
theorem mem_covered_shorten {bits q rest t : Nat} {min : Int} (hbits : 32 ≤ bits) (hq : q * count < 2 ^ 31)
    (hcount : count < 2 ^ 32) (ht : t + rest = count) (hmin : min ≤ q * t + 1)
    (hlast : rest = 0 → min = q * t + 1) (x : Int) :
    x ∈ ParallelSum.covered ((ParallelSum.launch bits q rest t min).map shorten) ↔
      min ≤ x ∧ x < q * count ∧ ∀ k : Nat, t < k → x ≠ q * k := by
  induction rest generalizing t min with
  | zero =>
      subst ht
      rw [hlast rfl]
      simp only [ParallelSum.launch, List.map_nil, ParallelSum.covered, List.not_mem_nil, false_and, exists_false,
        Set.ofPred_false, Set.mem_empty_iff_false, Nat.add_zero, false_iff]
      omega
  | succ rest ih =>
      have hfits : int32 (q * (t + 1) + 1) = q * (t + 1) + 1 ∨ rest = 0 := by
        rcases Nat.eq_zero_or_pos rest with hrest | hrest
        · exact .inr hrest
        · exact .inl (ParallelSum.next_fits hq (by omega))
      have hcast : (q : Int) * ((t + 1 : Nat) : Int) = q * (t + 1) := by rw [Int.natCast_add, Int.natCast_one]
      have hle {j k : Nat} (hjk : j ≤ k) : (q : Int) * j ≤ q * k :=
        Int.mul_le_mul_of_nonneg_left (by omega) (Int.natCast_nonneg q)
      have hrest := @ih (t + 1) (q * (t + 1) + 1) (by omega) (by rw [hcast]) (by rw [hcast]; simp)
      rw [ParallelSum.launch_succ hbits hq hcount ht hfits, List.map_cons, ParallelSum.covered_cons, Set.mem_union, hrest]
      have hstep : (q : Int) * t ≤ q * (t + 1) := hcast ▸ hle (Nat.le_succ t)
      have hend : (q : Int) * (t + 1) ≤ q * count := hcast ▸ hle (by omega)
      constructor
      · rintro (hx | ⟨hlow, hhigh, hskip⟩)
        · have hx1 : min ≤ x := hx.1
          have hx2 : x ≤ q * (t + 1) - 1 := hx.2
          refine ⟨hx1, by omega, fun k hk => ?_⟩
          have hk' := hle (show t + 1 ≤ k from hk)
          omega
        · refine ⟨by omega, hhigh, fun k hk => ?_⟩
          rcases Nat.eq_or_lt_of_le (show t + 1 ≤ k from hk) with rfl | hk'
          · omega
          · exact hskip k hk'
      · rintro ⟨hlow, hhigh, hskip⟩
        have hne := hskip (t + 1) (Nat.lt_succ_self t)
        rcases Int.lt_or_le x (q * (t + 1)) with hx | hx
        · refine .inl ⟨hlow, ?_⟩
          show x ≤ q * (t + 1) - 1
          omega
        · exact .inr ⟨by omega, hhigh, fun k hk => hskip k (by omega)⟩

theorem covered_shorten (hmax : 0 ≤ max) (hmax' : max < 2147483647) (hpos : 1 ≤ count) (hcount : count < 2 ^ 32) :
    ParallelSum.covered ((ParallelSum.PromiseFuture.concurrentTask max count).map shorten) =
      ↑((Finset.Ico 0 (max / count * count)).filter (fun i => max / count ∣ i → i = 0)) := by
  have hunsigned : max % 4294967296 = max := Int.emod_eq_of_lt hmax (by omega)
  have hquotient : ((max.toNat / count : Nat) : Int) = max / count := by
    rw [Int.natCast_ediv, Int.toNat_of_nonneg hmax]
  have hfits : max.toNat / count * count < 2 ^ 31 := (Nat.div_mul_le_self _ _).trans_lt (by omega)
  ext x
  rw [ParallelSum.PromiseFuture.concurrentTask, ParallelSum.concurrentTask, hunsigned,
    mem_covered_shorten (by decide) hfits hcount (Nat.zero_add count) (by omega) (by omega), hquotient, Finset.mem_coe,
    Finset.mem_filter, Finset.mem_Ico]
  constructor
  · rintro ⟨hlow, hhigh, hskip⟩
    refine ⟨⟨hlow, hhigh⟩, ?_⟩
    rintro ⟨k, rfl⟩
    by_contra hne
    have hk : 0 < k := by
      by_contra hk
      have hprod := Int.mul_nonpos_of_nonneg_of_nonpos (Int.ediv_nonneg hmax (Int.natCast_nonneg count)) (not_lt.mp hk)
      omega
    apply hskip k.toNat (by omega)
    rw [Int.toNat_of_nonneg (by omega)]
  · rintro ⟨⟨hlow, hhigh⟩, hskip⟩
    refine ⟨hlow, hhigh, ?_⟩
    rintro k hk rfl
    have hzero := hskip (Int.dvd_mul_right _ _)
    rcases Int.mul_eq_zero.mp hzero with hq | hk'
    · rw [hq] at hhigh
      omega
    · omega

theorem shorten_subset (r : Int × Int) : ParallelSum.worker (shorten r) ⊆ ParallelSum.worker r :=
  Set.Icc_subset_Icc_right (by simp [shorten])

/-- The sum of the futures: with the whole ranges it is that of the serial task up to the last multiple of
the quotient; with the loop that stops early all these multiples but zero are missing. -/
theorem futures_sum (sqrt : Int → M) {max : Int} {concurrentCount : Nat} (hmax : 0 ≤ max) (hmax' : max < 2147483647)
    (hpos : 1 ≤ concurrentCount) (hcount : concurrentCount < 2 ^ 32) :
    PromiseFuture.concurrentTask sqrt max concurrentCount =
        ∑ i ∈ Finset.Icc 0 (max / concurrentCount * concurrentCount), sqrt i ∧
      PackedTask.concurrentTask sqrt max concurrentCount =
        ∑ i ∈ (Finset.Ico 0 (max / concurrentCount * concurrentCount)).filter
          (fun i => max / concurrentCount ∣ i → i = 0), sqrt i := by
  obtain ⟨hcovers, happart⟩ :=
    @ParallelSum.concurrentTask_covers 32 concurrentCount max (by decide) hmax (by omega) hpos hcount
  constructor
  · rw [PromiseFuture.concurrentTask, getAll_eq]
    have hwork : PromiseFuture.concurrentWorker sqrt = fun r => ∑ i ∈ Finset.Icc r.1 r.2, sqrt i :=
      funext (rootSum_eq sqrt)
    rw [hwork]
    exact sum_ranges sqrt happart (by rw [Finset.coe_Icc]; exact hcovers)
  · rw [PackedTask.concurrentTask, getAll_eq]
    have hwork : PackedTask.concurrentWork sqrt = (fun r => ∑ i ∈ Finset.Icc r.1 r.2, sqrt i) ∘ shorten :=
      funext fun r => rootSum_eq sqrt (shorten r)
    rw [hwork, ← List.map_map]
    refine sum_ranges sqrt ?_ ?_
    · rw [List.pairwise_map]
      exact happart.imp fun hdisjoint => hdisjoint.mono (shorten_subset _) (shorten_subset _)
    · exact covered_shorten hmax hmax' hpos hcount

theorem futures_sum_two :
    PackedTask.concurrentTask (fun i : Int => √(i : ℝ)) 6 3 =
      ∑ i ∈ ({0, 1, 3, 5} : Finset Int), √(i : ℝ) := by
  rw [(futures_sum (fun i : Int => √(i : ℝ)) (by decide) (by decide) (by decide) (by decide)).2]
  rfl

end Futures

theorem nonneg_of_visits {r : Int × Int} {i : Int} (hmax : 0 ≤ max) (hmax' : max < 2147483647) (hpos : 1 ≤ count)
    (hcount : count < 2 ^ 32) (hr : r ∈ ParallelSum.MutexLock.concurrentTask max count) (hi : i ∈ visits r) :
    0 ≤ i := by
  obtain ⟨hcovers, -⟩ := @ParallelSum.concurrentTask_covers 64 count max (by decide) hmax (by omega) hpos hcount
  have hin := ParallelSum.worker_subset hr (mem_visits.mp hi)
  rw [ParallelSum.MutexLock.concurrentTask, hcovers] at hin
  exact hin.1

variable [LinearOrder M] [IsOrderedAddMonoid M]

/-- Without the lock: the sum is never too large, it is right when no addition ends while another one
is under way, and as soon as one does the smaller of the two roots at least is missing. -/
theorem naive_sum_loses (sqrt : Int → M) (hsqrt : ∀ i, 0 ≤ i → 0 ≤ sqrt i) {max : Int} {concurrentCount : Nat}
    (hmax : 0 ≤ max) (hmax' : max < 2147483647) (hpos : 1 ≤ concurrentCount) (hcount : concurrentCount < 2 ^ 32)
    (as : List Act) (s : SharedCell M)
    (has : run step as (concurrentTask (NaiveMultithread.worker sqrt) max concurrentCount) = some s)
    (hdone : s.Finished) :
    s.value ≤ ∑ i ∈ Finset.Icc 0 (max / concurrentCount * concurrentCount), sqrt i ∧
      ((∀ bs a s', bs ++ [a] <+: as →
          run step bs (concurrentTask (NaiveMultithread.worker sqrt) max concurrentCount) = some s' → Serial a s') →
        s.value = ∑ i ∈ Finset.Icc 0 (max / concurrentCount * concurrentCount), sqrt i) ∧
      ∀ bs t s' x y, bs ++ [.store t] <+: as →
        run step bs (concurrentTask (NaiveMultithread.worker sqrt) max concurrentCount) = some s' → Crosses t x y s' →
        s.value + min x y ≤ ∑ i ∈ Finset.Icc 0 (max / concurrentCount * concurrentCount), sqrt i := by
  have htotal : (((ParallelSum.MutexLock.concurrentTask max concurrentCount).map (NaiveMultithread.worker sqrt)).map
      List.sum).sum = ∑ i ∈ Finset.Icc 0 (max / concurrentCount * concurrentCount), sqrt i :=
    sum_concurrentTask (sum_visits sqrt) hmax hmax' hpos hcount
  have hbounded : Bounded (∑ i ∈ Finset.Icc 0 (max / concurrentCount * concurrentCount), sqrt i)
      (concurrentTask (NaiveMultithread.worker sqrt) max concurrentCount) := by
    rw [← htotal]
    apply Bounded.start
    intro todo htodo x hx
    obtain ⟨r, hr, rfl⟩ := List.mem_map.mp htodo
    obtain ⟨i, hi, rfl⟩ := List.mem_map.mp hx
    exact hsqrt i (nonneg_of_visits hmax hmax' hpos hcount hr hi)
  refine ⟨?_, fun hserial => ?_, ?_⟩
  · exact value_le (run_keeps (fun _ _ _ => Bounded.step) hbounded has) hdone
  · rw [← htotal]
    exact value_of_serial (Exact.start _) hserial has hdone
  · rintro bs t s' x y ⟨cs, rfl⟩ hbs hcrosses
    rw [List.append_assoc, run_append, hbs, Option.bind_some] at has
    obtain ⟨s₁, hs, hcs⟩ := Option.bind_eq_some_iff.mp has
    exact value_of_crosses hbounded hbs hcrosses hs hcs hdone

theorem naive_sum_loses_one :
    ∃ as s, run step as (concurrentTask (NaiveMultithread.worker fun i : Int => √(i : ℝ)) 2 2) = some s ∧ s.Finished ∧
      s.value + min √((2 : Int) : ℝ) √((1 : Int) : ℝ) ≤ ∑ i ∈ Finset.Icc 0 2, √((i : Int) : ℝ) := by
  have hranges : ParallelSum.MutexLock.concurrentTask 2 2 = [(0, 1), (2, 2)] := by decide
  have hstart : concurrentTask (NaiveMultithread.worker fun i : Int => √(i : ℝ)) 2 2 =
      ⟨0, [⟨[√((0 : Int) : ℝ), √((1 : Int) : ℝ)], none⟩, ⟨[√((2 : Int) : ℝ)], none⟩]⟩ := by
    rw [concurrentTask, hranges]
    rfl
  have hrun : run step [.load 0, .store 0, .load 0, .load 1, .store 1, .store 0]
      (concurrentTask (NaiveMultithread.worker fun i : Int => √(i : ℝ)) 2 2) =
      some ⟨0 + √((0 : Int) : ℝ) + √((1 : Int) : ℝ), [⟨[], none⟩, ⟨[], none⟩]⟩ := by
    rw [hstart]
    rfl
  have hbefore : run step [.load 0, .store 0, .load 0, .load 1]
      (concurrentTask (NaiveMultithread.worker fun i : Int => √(i : ℝ)) 2 2) =
      some ⟨0 + √((0 : Int) : ℝ), [⟨[√((1 : Int) : ℝ)], some (0 + √((0 : Int) : ℝ))⟩,
        ⟨[√((2 : Int) : ℝ)], some (0 + √((0 : Int) : ℝ))⟩]⟩ := by
    rw [hstart]
    rfl
  have hdone : Finished (M := ℝ) ⟨0 + √((0 : Int) : ℝ) + √((1 : Int) : ℝ), [⟨[], none⟩, ⟨[], none⟩]⟩ := by
    simp [Finished]
  have hloses := naive_sum_loses (fun i : Int => √(i : ℝ)) (fun _ _ => Real.sqrt_nonneg _) (by decide) (by decide)
    (by decide) (by decide) _ _ hrun hdone
  exact ⟨_, _, hrun, hdone, hloses.2.2 _ 1 _ _ _ (List.prefix_append _ [Act.store 0]) hbefore
    ⟨0, [], [], _, _, by decide, rfl, rfl⟩⟩

end LearnNote.Concurrency.SharedSum
