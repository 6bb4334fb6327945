import Mathlib.Algebra.GroupWithZero.Nat
import Mathlib.Logic.Function.Iterate
import LearnNote.Dbcp.Accounting

namespace LearnNote.Dbcp

open Lib.Transition

namespace ConnectionPool

variable {s t : ConnectionPool}

/-- connectionQueue_ at each call of front() in a pass of the scanner, up to the first call on
an empty queue. -/
def fronts : List Nat → List Nat → ConnectionPool → List (List Nat)
  | [], _, s => if s.tooMany then [s.connectionQueue] else []
  | c :: cs, delays, s =>
      if s.tooMany then
        let s' := s.tick (delays.headD 0)
        s'.connectionQueue :: if s'.isIdle c then fronts cs delays.tail (s'.evict c) else []
      else []

/-- The counter stays above minSize_ until the queue is empty, and every connection of the queue
is idle when it is looked at. -/
structure Drains (delays : List Nat) (s : ConnectionPool) : Prop where
  many : ∀ k ≤ s.connectionQueue.length, s.minSize < asSize (decrement^[k] s.connectionCount)
  idle : ∀ j c, s.connectionQueue[j]? = some c → (s.tick (delays.take (j + 1)).sum).isIdle c = true

theorem fronts_nonempty (q delays : List Nat) (hq : s.connectionQueue = q) :
    (∀ front ∈ fronts q delays s, front ≠ []) ↔ ¬ RunsDry q delays s := by
  induction q generalizing s delays with
  | nil =>
      by_cases hmany : s.tooMany = true
      · simp [fronts, RunsDry, hmany, hq]
      · simp [fronts, RunsDry, hmany]
  | cons c cs ih =>
      rw [fronts, RunsDry]
      generalize delays.headD 0 = d
      have hq' : ((s.tick d).evict c).connectionQueue = cs := by
        simp [evict, tick, hq]
      have hne : (s.tick d).connectionQueue ≠ [] := by
        simp [tick, hq]
      by_cases hmany : s.tooMany = true
      · by_cases hidle : (s.tick d).isIdle c = true
        · simp [hmany, hidle, hne, ih delays.tail hq']
        · simp [hmany, hidle, hne]
      · simp [hmany]

/-- A pass that reads no empty queue does not depend on the pointers that lie there. -/
theorem evictLoop_determined (q delays : List Nat) (s : ConnectionPool) :
    ¬ RunsDry q delays s ↔ ∃ t, ∀ stale, evictLoop stale q delays s = some t := by
  induction q generalizing s delays with
  | nil =>
      rw [RunsDry]
      constructor
      · intro hfew
        exact ⟨s, fun stale => evictStale_of_few stale hfew⟩
      · rintro ⟨t, ht⟩ hmany
        have hnil := ht []
        rw [evictLoop, evictStale, if_pos hmany] at hnil
        cases hnil
  | cons c cs ih =>
      simp only [RunsDry, evictLoop]
      generalize delays.headD 0 = d
      by_cases hmany : s.tooMany = true
      · by_cases hidle : (s.tick d).isIdle c = true
        · simp only [hmany, hidle, true_and, if_true]
          exact ih _ _
        · simp [hmany, hidle]
      · simp [hmany]

theorem tick_evict_tick (c d d' : Nat) : ((s.tick d).evict c).tick d' = (s.tick (d + d')).evict c := by
  simp only [tick, evict, Nat.add_assoc]

theorem isIdle_evict (c c' d d' : Nat) :
    (((s.tick d).evict c).tick d').isIdle c' = (s.tick (d + d')).isIdle c' := by
  rw [tick_evict_tick]
  rfl

theorem sum_take_succ (delays : List Nat) (j : Nat) :
    (delays.take (j + 1)).sum = delays.headD 0 + (delays.tail.take j).sum := by
  cases delays with
  | nil => simp
  | cons d ds => simp

theorem runsDry_iff (q delays : List Nat) (s : ConnectionPool) :
    RunsDry q delays s ↔ (∀ k ≤ q.length, s.minSize < asSize (decrement^[k] s.connectionCount)) ∧
      ∀ j c, q[j]? = some c → (s.tick (delays.take (j + 1)).sum).isIdle c = true := by
  induction q generalizing s delays with
  | nil => simp [RunsDry, tooMany]
  | cons c cs ih =>
      have hmany : (∀ k ≤ (c :: cs).length, s.minSize < asSize (decrement^[k] s.connectionCount)) ↔
          s.tooMany = true ∧ ∀ k ≤ cs.length, s.minSize < asSize (decrement^[k] (decrement s.connectionCount)) := by
        constructor
        · intro h
          exact ⟨by simpa [tooMany] using h 0 (Nat.zero_le _), fun k hk => h (k + 1) (Nat.succ_le_succ hk)⟩
        · rintro ⟨h0, h⟩ k hk
          cases k with
          | zero => simpa [tooMany] using h0
          | succ k => exact h k (Nat.le_of_succ_le_succ hk)
      have hidle : (∀ j c', (c :: cs)[j]? = some c' → (s.tick (delays.take (j + 1)).sum).isIdle c' = true) ↔
          (s.tick (delays.headD 0)).isIdle c = true ∧ ∀ j c', cs[j]? = some c' →
            (((s.tick (delays.headD 0)).evict c).tick (delays.tail.take (j + 1)).sum).isIdle c' = true := by
        simp only [isIdle_evict, sum_take_succ]
        constructor
        · intro h
          exact ⟨by simpa using h 0 c rfl, fun j c' hj => by simpa [sum_take_succ] using h (j + 1) c' hj⟩
        · rintro ⟨h0, h⟩ j c' hj
          cases j with
          | zero =>
              cases hj
              simpa using h0
          | succ j => simpa [sum_take_succ] using h j c' hj
      rw [RunsDry, ih, hmany, hidle]
      tauto

theorem drains_iff (delays : List Nat) (s : ConnectionPool) :
    Drains delays s ↔ RunsDry s.connectionQueue delays s := by
  rw [runsDry_iff]
  exact ⟨fun h => ⟨h.many, h.idle⟩, fun h => ⟨h.1, h.2⟩⟩

theorem iterate_decrement {n : Int} (k : Nat) (h : (k : Int) ≤ n) : decrement^[k] n = n - k := by
  induction k with
  | zero => simp
  | succ k ih =>
      rw [Function.iterate_succ_apply', ih (by omega), decrement_of_pos (by omega)]
      omega

theorem Accounted.drains_iff (h : Accounted s) (delays : List Nat) :
    Drains delays s ↔ s.minSize < s.leased.length ∧
      ∀ j c, s.connectionQueue[j]? = some c → (s.tick (delays.take (j + 1)).sum).isIdle c = true := by
  have hcount (k : Nat) (hk : k ≤ s.connectionQueue.length) :
      (asSize (decrement^[k] s.connectionCount) : Int) = s.connectionQueue.length + s.leased.length - k := by
    rw [iterate_decrement k (by rw [h]; omega), asSize_of_nonneg (by rw [h]; omega), h]
  constructor
  · rintro ⟨hmany, hidle⟩
    have hlast := hcount _ (Nat.le_refl _)
    exact ⟨by have := hmany _ (Nat.le_refl _); omega, hidle⟩
  · rintro ⟨hleased, hidle⟩
    refine ⟨fun k hk => ?_, hidle⟩
    have hk' := hcount k hk
    omega

theorem reachable_accounted (h : Reachable start step (fun a s => Fed a s ∧ NoWrap a s ∧ Spared a s) s) :
    Accounted s := by
  apply h.invariant
  · rintro s ⟨owners, clients, rfl⟩
    rfl
  · intro a s t ha hc hs
    exact ha.move hc.1 hc.2.1 hc.2.2 (moves_of_step hs)

/-- A pass of the scanner reads an empty queue just when it drains the queue and goes on. Up to the
first such pass, with an exact counter, that is when more than minSize_ connections are leased and
all others are idle. -/
theorem scanner_reads_iff (s : ConnectionPool) :
    (∀ delays, (∀ front ∈ fronts s.connectionQueue delays s, front ≠ []) ↔ ¬ Drains delays s) ∧
      (Reachable start step (fun a s => Fed a s ∧ NoWrap a s ∧ Spared a s) s →
        ∀ delays, Drains delays s ↔ s.minSize < s.leased.length ∧
          ∀ j c, s.connectionQueue[j]? = some c → (s.tick (delays.take (j + 1)).sum).isIdle c = true) := by
  refine ⟨fun delays => ?_, fun h delays => (reachable_accounted h).drains_iff delays⟩
  rw [drains_iff]
  exact fronts_nonempty _ _ rfl

theorem scanner_reads_iff_lease :
    ∃ s, Reachable start step (fun a s => Fed a s ∧ NoWrap a s ∧ Spared a s) s ∧ s.leased = [0] ∧
      s.connectionQueue = [1] ∧ ∀ delays, ∀ front ∈ fronts s.connectionQueue delays s, front ≠ [] := by
  have hrun : (run (guarded step (fun a s => Fed a s ∧ NoWrap a s ∧ Spared a s)) (starting 0 1 2 0 ++ [.call 0,
      .getConnection 0, .produce 0 true]) (init 1 1)).map
      (fun s => (s.leased, s.connectionQueue, s.minSize)) = some ([0], [1], 1) := by decide +kernel
  obtain ⟨s, hr, he⟩ := reachable_of_run start hrun ⟨1, 1, rfl⟩
  simp only [Prod.mk.injEq] at he
  obtain ⟨hleased, hq, hmin⟩ := he
  obtain ⟨hreads, hdrains⟩ := scanner_reads_iff s
  refine ⟨s, hr, hleased, hq, fun delays => (hreads delays).mpr fun hd => ?_⟩
  have hlt := ((hdrains hr delays).mp hd).1
  rw [hleased, hmin, List.length_singleton] at hlt
  exact Nat.lt_irrefl _ hlt

/-- Both connections are leased, and one would be enough. -/
theorem scanner_reads_empty :
    ¬ ∀ s, Reachable start step always s → ∀ (i : Nat) (delays : List Nat), s.scanners[i]? = some true →
      s.exit = false → ∀ front ∈ fronts s.connectionQueue delays s, front ≠ [] := by
  intro hclaim
  have hrun : (run (guarded step always) (starting 0 1 2 60 ++ [.call 0, .getConnection 0, .produce 0 true, .call 0,
      .getConnection 0]) (init 1 1)).map
      (fun s => (s.scanners, s.exit, fronts s.connectionQueue [] s)) = some ([true], false, [[]]) := by
    decide +kernel
  obtain ⟨s, hr, he⟩ := reachable_of_run start hrun ⟨1, 1, rfl⟩
  simp only [Prod.mk.injEq] at he
  obtain ⟨hscanners, hopen, hfronts⟩ := he
  refine hclaim s hr 0 [] (by rw [hscanners]; rfl) hopen [] ?_ rfl
  rw [hfronts]
  exact List.mem_singleton_self _

end ConnectionPool

end LearnNote.Dbcp
