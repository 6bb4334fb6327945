import Mathlib.Algebra.BigOperators.Group.Finset.Basic
import Mathlib.Algebra.Order.BigOperators.Group.Finset
import LearnNote.Memory.PoolRuns

namespace LearnNote.Memory

open Lib Linked Extents SizeClass Transition

def Pc.stepsLeft : Pc → Nat
  | .idle => 0
  | .fetchRange .. => 4
  | .fetchSpan .. => 3
  | .fetchDone .. => 2
  | .fetched .. => 1
  | .returnRange .. => 1

/-- The spin lock a thread tries to take. -/
def Pc.spinsOn : Pc → Option Nat
  | .fetchRange _ index => some index
  | .returnRange _ _ index => some index
  | _ => none

theorem PageCache.allocateSpan_isSome {c : PageCache} (hc : c.freeSpans = .empty) (env : Env) (numPages : Nat)
    (os : Os) :
    (c.allocateSpan env numPages os).isSome := by
  have hnone : c.freeSpans.lowerBound numPages = none := by
    rw [hc]
    rfl
  simp only [allocateSpan, hnone]
  split
  · rfl
  · cases newSpan env c <;> rfl

namespace CentralCache

variable {c : CentralCache} {index : Nat}

theorem beginFetch_isSome (hc : c.locks index = false) (os : Os) : (c.beginFetch index os).isSome := by
  simp only [beginFetch, acquire, hc, Bool.false_eq_true, ↓reduceIte]
  split
  · rfl
  · split <;> rfl

theorem returnRange_isSome (hc : c.locks index = false) (start size : Nat) (os : Os) :
    (c.returnRange start size index os).isSome := by
  simp only [returnRange, acquire, hc, Bool.false_eq_true, ↓reduceIte]
  split <;> rfl

end CentralCache

namespace LeveledMemoryPool

variable {s s' : LeveledMemoryPool} {lists : Place → List Nat} {t n : Nat} {env : Env} {fuel : Nat}

theorem advance_stepsLeft (hs : s.advance t env fuel = some s') :
    ∃ p : Pc, s'.pc = Function.update s.pc t p ∧ p.stepsLeft < (s.pc t).stepsLeft := by
  cases hpc : s.pc t with
  | idle => simp [advance, hpc] at hs
  | fetchRange size i =>
      simp only [advance, hpc] at hs
      split at hs
      · cases hs
      · cases hs
        exact ⟨_, rfl, by simp [Pc.stepsLeft]⟩
      · split at hs <;> (cases hs; exact ⟨_, rfl, by simp [Pc.stepsLeft]⟩)
  | fetchSpan size i =>
      simp only [advance, hpc] at hs
      split at hs
      · cases hs
      · cases hs
        exact ⟨_, rfl, by simp [Pc.stepsLeft]⟩
  | fetchDone size i r =>
      simp only [advance, hpc] at hs
      split at hs
      · cases hs
        exact ⟨_, rfl, by simp [Pc.stepsLeft]⟩
      · split at hs <;> (cases hs; exact ⟨_, rfl, by simp [Pc.stepsLeft]⟩)
  | fetched size i start =>
      simp only [advance, hpc, Option.map_eq_some_iff] at hs
      obtain ⟨tc, -, rfl⟩ := hs
      exact ⟨_, rfl, by simp [Pc.stepsLeft]⟩
  | returnRange start limit i =>
      simp only [advance, hpc, Option.map_eq_some_iff] at hs
      obtain ⟨r, -, rfl⟩ := hs
      exact ⟨_, rfl, by simp [Pc.stepsLeft]⟩

def IdleFrom (n : Nat) (s : LeveledMemoryPool) : Prop := ∀ t, n ≤ t → s.pc t = .idle

theorem exists_idleFrom (h : Reachable start step always s) : ∃ n, IdleFrom n s := by
  refine h.invariant (I := fun s => ∃ n, IdleFrom n s) ?_ ?_
  · rintro s ⟨m, rfl⟩
    exact ⟨0, fun t _ => rfl⟩
  · rintro a s s' ⟨n, hn⟩ - hs
    cases ha : a.thread with
    | none =>
        refine ⟨n, fun t ht => ?_⟩
        rw [step_pc_other hs (by rw [ha]; simp), hn t ht]
    | some u =>
        refine ⟨max n (u + 1), fun t ht => ?_⟩
        rw [step_pc_other hs (by rw [ha, Ne, Option.some.injEq]; omega), hn t (by omega)]

def stepsLeft (n : Nat) (s : LeveledMemoryPool) : Nat := ∑ t ∈ Finset.range n, (s.pc t).stepsLeft

theorem stepsLeft_lt (hn : IdleFrom n s) (hs : s.advance t env fuel = some s') :
    IdleFrom n s' ∧ stepsLeft n s' < stepsLeft n s := by
  obtain ⟨p, hp, hlt⟩ := advance_stepsLeft hs
  have htn : t < n := by
    by_contra hge
    rw [hn t (Nat.le_of_not_lt hge)] at hlt
    exact absurd hlt (Nat.not_lt_zero _)
  constructor
  · intro u hu
    rw [hp, Function.update_of_ne (by omega), hn u hu]
  · apply Finset.sum_lt_sum
    · intro u _
      rw [hp]
      by_cases hu : u = t
      · subst hu
        rw [Function.update_self]
        exact Nat.le_of_lt hlt
      · rw [Function.update_of_ne hu]
    · refine ⟨t, Finset.mem_range.mpr htn, ?_⟩
      rwa [hp, Function.update_self]

theorem goesOn_of_lock (h : Inv s lists) {i : Nat} (hl : (s.pc t).lock = some i) (env : Env) :
    (s.advance t env 2).isSome := by
  cases hpc : s.pc t with
  | idle | fetchRange | fetched | returnRange => simp [hpc, Pc.lock] at hl
  | fetchSpan size j =>
      obtain ⟨x, hx⟩ := Option.isSome_iff_exists.mp
        (PageCache.allocateSpan_isSome h.page env (CentralCache.numPages (blockSize j)) s.os)
      simp [advance, hpc, CentralCache.fetchFromPageCache, hx]
  | fetchDone size j r =>
      simp only [advance, hpc]
      split
      · rfl
      · split <;> rfl

theorem exists_adopt (h : Inv s lists) {size i start : Nat} (hpc : s.pc t = .fetched size i start) :
    ∃ tc, (s.thread t).adopt 2 i start s.os.memory = some tc := by
  have hchain := h.shelf.owned.chain (.transit t)
  have hhead : headOf s.thread s.central.centralFreeList s.pc (.transit t) = start := by
    simp only [headOf, hpc, Pc.block]
  rw [(h.busy t).single size i start hpc, hhead] at hchain
  obtain ⟨-, hstart, hnull : s.os.memory start = 0⟩ := hchain
  simp [ThreadCache.adopt, ThreadCache.countChain, hstart, hnull]

/-- A thread that cannot go on spins on a lock, and the thread that has the lock can go on. -/
theorem goesOn_or_spins (h : Inv s lists) (hne : s.pc t ≠ .idle) : (∀ env, (s.advance t env 2).isSome) ∨
    ∃ i, (s.pc t).spinsOn = some i ∧ ∃ u, (s.pc u).lock = some i ∧ ∀ env, (s.advance u env 2).isSome := by
  cases hpc : s.pc t with
  | idle => exact absurd hpc hne
  | fetchRange size i =>
      cases hl : s.central.locks i with
      | false =>
          obtain ⟨⟨r, os, c⟩, hx⟩ := Option.isSome_iff_exists.mp (CentralCache.beginFetch_isSome hl s.os)
          refine .inl fun env => ?_
          cases r with
          | none => simp [advance, hpc, hx]
          | some p => by_cases hp : p = 0 <;> simp [advance, hpc, hx, hp]
      | true =>
          obtain ⟨u, hu⟩ := (h.locks.locked i).mp hl
          exact .inr ⟨i, rfl, u, hu, goesOn_of_lock h hu⟩
  | fetchSpan size i => exact .inl (goesOn_of_lock h (i := i) (by rw [hpc]; rfl))
  | fetchDone size i r => exact .inl (goesOn_of_lock h (i := i) (by rw [hpc]; rfl))
  | fetched size i start =>
      obtain ⟨tc, htc⟩ := exists_adopt h hpc
      exact .inl fun env => by simp [advance, hpc, htc]
  | returnRange start limit i =>
      cases hl : s.central.locks i with
      | false =>
          obtain ⟨x, hx⟩ := Option.isSome_iff_exists.mp (CentralCache.returnRange_isSome hl start limit s.os)
          exact .inl fun env => by simp [advance, hpc, hx]
      | true =>
          obtain ⟨u, hu⟩ := (h.locks.locked i).mp hl
          exact .inr ⟨i, rfl, u, hu, goesOn_of_lock h hu⟩

def goOn : Nat × Env × Nat → LeveledMemoryPool → Option LeveledMemoryPool
  | (t, env, fuel), s => s.advance t env fuel

/-- No call hangs. In whatever order the threads go on and whatever the system answers them, all the
calls under way together take a bounded number of steps. Until they are done, each thread can go on or
spins on a lock which another one has that can; in the end no lock is taken. -/
theorem calls_finish (s : LeveledMemoryPool) (h : Reachable start step always s) :
    ∃ n, ∀ as s', run goOn as s = some s' → as.length ≤ n ∧
      (∀ t, s'.pc t ≠ .idle → (∀ env, (s'.advance t env 2).isSome) ∨
        ∃ i, (s'.pc t).spinsOn = some i ∧ ∃ u, (s'.pc u).lock = some i ∧ ∀ env, (s'.advance u env 2).isSome) ∧
      ((∀ t, s'.pc t = .idle) → ∀ i, s'.central.locks i = false) := by
  obtain ⟨lists, hinv⟩ := reachable_inv h
  obtain ⟨n, hn⟩ := exists_idleFrom h
  refine ⟨stepsLeft n s, fun as s' hr => ?_⟩
  have hstep : ∀ a s s', (IdleFrom n s ∧ ∃ lists, Inv s lists) → goOn a s = some s' →
      (IdleFrom n s' ∧ ∃ lists, Inv s' lists) ∧ stepsLeft n s' < stepsLeft n s := by
    rintro ⟨t, env, fuel⟩ s s' ⟨hn, lists, hinv⟩ hs
    obtain ⟨lists', hinv', -⟩ := advance_quiet hinv hs
    obtain ⟨hn', hlt⟩ := stepsLeft_lt hn hs
    exact ⟨⟨hn', lists', hinv'⟩, hlt⟩
  obtain ⟨⟨-, lists', hinv'⟩, hle⟩ := length_le_of_measure (stepsLeft n) hstep ⟨hn, lists, hinv⟩ hr
  refine ⟨by omega, fun t ht => goesOn_or_spins hinv' ht, fun hidle i => ?_⟩
  rw [Bool.eq_false_iff]
  intro hl
  obtain ⟨u, hu⟩ := (hinv'.locks.locked i).mp hl
  rw [Function.comp_apply, hidle u] at hu
  cases hu

theorem calls_finish_two_threads : ∃ s, Reachable start step always s ∧ s.pc 0 = .fetchSpan 16384 2047 ∧
    s.pc 1 = .fetchRange 16380 2047 ∧ s.central.locks 2047 = true ∧
    ∃ n, ∀ as s', run goOn as s = some s' → as.length ≤ n ∧
      (∀ t, s'.pc t ≠ .idle → (∀ env, (s'.advance t env 2).isSome) ∨
        ∃ i, (s'.pc t).spinsOn = some i ∧ ∃ u, (s'.pc u).lock = some i ∧ ∀ env, (s'.advance u env 2).isSome) ∧
      ((∀ t, s'.pc t = .idle) → ∀ i, s'.central.locks i = false) := by
  have hrun : (run (guarded step always) [.allocate 0 16384, .continue 0 ⟨none, none⟩ 0, .allocate 1 16380] zeros).map
      (fun s => (s.pc 0, s.pc 1, s.central.locks 2047)) =
      some (.fetchSpan 16384 2047, .fetchRange 16380 2047, true) := by decide +kernel
  obtain ⟨s, hr, he⟩ := reachable_of_run start hrun ⟨_, rfl⟩
  simp only [Prod.mk.injEq] at he
  exact ⟨s, hr, he.1, he.2.1, he.2.2, calls_finish s hr⟩

end LeveledMemoryPool

end LearnNote.Memory
