import LearnNote.Memory.PoolRuns

namespace LearnNote.Memory.LeveledMemoryPool

open Lib Linked Transition SizeClass

/-- A whole call of allocate by one thread, the others standing still. -/
def allocate (t size : Nat) (env : Env) (fuel : Nat) (s : LeveledMemoryPool) : Option (Ret × LeveledMemoryPool) :=
  (ThreadCache.allocate env fuel size s.os s.page s.central (s.thread t)).map (fun (r, os, page, c, tc) =>
    (r, { s.setThread t tc with os := os, page := page, central := c }))

def Failed : Ret → Prop
  | .ptr p => p = 0
  | .badAlloc => True

structure Unchanged (s s' : LeveledMemoryPool) : Prop where
  lists : ∀ t, (s'.thread t).freeList = (s.thread t).freeList
  counters : ∀ t, (s'.thread t).freeListSize = (s.thread t).freeListSize
  central : s'.central.centralFreeList = s.central.centralFreeList
  locks : s'.central.locks = s.central.locks
  pages : s'.page.spans = s.page.spans ∧ s'.page.freeSpans = s.page.freeSpans ∧ s'.page.spanMap = s.page.spanMap

variable {s s' : LeveledMemoryPool} {t size fuel : Nat} {env : Env} {r : Ret}

theorem allocateSpan_failed {n : Nat} {c c' : PageCache} {os os' : Os} (hc : c.freeSpans = .empty)
    (h : c.allocateSpan env n os = some (r, os', c')) (hf : Failed r) : c' = c := by
  have hnone : c.freeSpans.lowerBound n = none := by rw [hc]; rfl
  simp only [PageCache.allocateSpan, hnone] at h
  rcases PageCache.systemAlloc_eq env n os with he | ⟨a, -, hfresh, he⟩
  · simp only [he, ↓reduceIte, Option.some.injEq, Prod.mk.injEq] at h
    exact h.2.2.symm
  · simp only [he, if_neg hfresh.1] at h
    cases hq : PageCache.newSpan env c with
    | none =>
        simp only [hq, Option.some.injEq, Prod.mk.injEq] at h
        exact h.2.2.symm
    | some q =>
        simp only [hq, Option.some.injEq, Prod.mk.injEq] at h
        obtain ⟨rfl, -, -⟩ := h
        exact absurd hf hfresh.1

theorem fetchRange_failed {index : Nat} {page page' : PageCache} {c c' : CentralCache} {os os' : Os}
    (hp : page.freeSpans = .empty) (hi : index < freeListSize)
    (h : c.fetchRange env index os page = some (r, os', page', c')) (hf : Failed r) : page' = page ∧ c' = c := by
  simp only [CentralCache.fetchRange] at h
  cases hb : c.beginFetch index os with
  | none => simp [hb] at h
  | some w =>
      obtain ⟨hfree, ⟨h0, rfl⟩ | ⟨h0, rfl⟩⟩ := CentralCache.beginFetch_cases hi hb
      · simp only [hb, Option.some.injEq, Prod.mk.injEq] at h
        obtain ⟨rfl, -, -, -⟩ := h
        exact absurd hf h0
      · simp only [hb] at h
        cases hs : CentralCache.fetchFromPageCache env (blockSize index) os page with
        | none => simp [hs] at h
        | some v =>
            obtain ⟨r', os'', page''⟩ := v
            simp only [hs, Option.some.injEq, Prod.mk.injEq] at h
            obtain ⟨hr, -, rfl, hc⟩ := h
            have hrel : CentralCache.release index { c with locks := Function.update c.locks index true } = c := by
              simp only [CentralCache.release, CentralCache.relock hfree]
            cases r' with
            | badAlloc =>
                exact ⟨allocateSpan_failed hp hs trivial, by rw [← hc]; exact hrel⟩
            | ptr p =>
                by_cases h0 : p = 0
                · subst h0
                  exact ⟨allocateSpan_failed hp hs rfl, by rw [← hc]; exact hrel⟩
                · simp only [CentralCache.endFetch, if_neg h0] at hr
                  subst hr
                  exact absurd hf h0

theorem failed_allocate_rest (hp : s.page.freeSpans = .empty) (hsize : size ≤ maxBytes)
    (h : s.allocate t size env fuel = some (r, s')) (hf : Failed r) :
    s'.page = s.page ∧ s'.central = s.central ∧
      s'.thread = Function.update s.thread t ((s.thread t).decrement (getIndex size)) := by
  simp only [allocate, ThreadCache.allocate, ThreadCache.requestIndex_eq, ThreadCache.popLocal,
    ThreadCache.decrement_freeList] at h
  obtain ⟨v, hv, he⟩ := Option.map_eq_some_iff.mp h
  simp only [Prod.mk.injEq] at he
  obtain ⟨hr, rfl⟩ := he
  by_cases hi : (s.thread t).freeList (getIndex size) = 0
  · rw [if_neg (not_not.mpr hi)] at hv
    simp only [ThreadCache.fetchFromCentralCache] at hv
    cases hx : s.central.fetchRange env (getIndex size) s.os s.page with
    | none => simp [hx] at hv
    | some w =>
        obtain ⟨q, os, page, c⟩ := w
        simp only [ThreadCache.receive, hx] at hv
        cases q with
        | badAlloc =>
            simp only [Option.some.injEq] at hv
            obtain ⟨rfl, rfl⟩ := fetchRange_failed hp (getIndex_lt size hsize) hx trivial
            subst hv
            exact ⟨rfl, rfl, rfl⟩
        | ptr start =>
            by_cases h0 : start = 0
            · simp only [h0, ↓reduceIte, Option.some.injEq] at hv
              subst h0
              obtain ⟨rfl, rfl⟩ := fetchRange_failed hp (getIndex_lt size hsize) hx rfl
              subst hv
              exact ⟨rfl, rfl, rfl⟩
            · simp only [if_neg h0] at hv
              obtain ⟨tc, -, rfl⟩ := Option.map_eq_some_iff.mp hv
              subst hr
              exact absurd hf h0
  · rw [if_pos hi] at hv
    cases hv
    subst hr
    exact absurd hf hi

theorem decrement_ne (index : Nat) (tc : ThreadCache) :
    (tc.decrement index).freeListSize index ≠ tc.freeListSize index := by
  simp only [ThreadCache.decrement, ThreadCache.setSize, Function.update_self, sizeT]
  omega

/-- No failed call leaves the pool as it was: the counter is decremented first. -/
theorem failed_allocate_changes_counter (h : Reachable start step always s) (hsize : size ≤ maxBytes)
    (ha : s.allocate t size env fuel = some (r, s')) (hf : Failed r) : ¬ Unchanged s s' := by
  obtain ⟨lists, hinv⟩ := reachable_inv h
  obtain ⟨-, -, hthread⟩ := failed_allocate_rest hinv.page hsize ha hf
  intro hu
  have hc := hu.counters t
  rw [hthread, Function.update_self] at hc
  exact decrement_ne (getIndex size) (s.thread t) (congrFun hc _)

theorem failed_allocate_changes_counter_no_memory :
    ∃ s', zeros.allocate 0 1 ⟨none, none⟩ 0 = some (.ptr 0, s') ∧ ¬ Unchanged zeros s' := by
  have hrun : (zeros.allocate 0 1 ⟨none, none⟩ 0).map Prod.fst = some (.ptr 0) := by decide +kernel
  obtain ⟨⟨r, s'⟩, ha, hr⟩ := Option.map_eq_some_iff.mp hrun
  obtain rfl : r = .ptr 0 := hr
  exact ⟨s', ha, failed_allocate_changes_counter (.start ⟨_, rfl⟩) (by decide) ha rfl⟩

theorem failed_allocate_not_atomic :
    ¬ ∀ s t size env fuel r s', Reachable start step always s → 1 ≤ size → size ≤ maxBytes →
      s.allocate t size env fuel = some (r, s') → Failed r → Unchanged s s' := by
  intro h
  have hrun : (zeros.allocate 0 1 ⟨none, none⟩ 0).map (fun v => (v.1, (v.2.thread 0).freeListSize 0)) =
      some (.ptr 0, 2 ^ 64 - 1) := by decide +kernel
  obtain ⟨⟨r, s'⟩, ha, hr⟩ := Option.map_eq_some_iff.mp hrun
  simp only [Prod.mk.injEq] at hr
  have hu := h _ _ _ _ _ _ _ (.start ⟨_, rfl⟩) le_rfl (by decide) ha (by rw [hr.1]; rfl)
  have hc := congrFun (hu.counters 0) 0
  rw [hr.2] at hc
  exact absurd hc (by decide)

section refinement

variable {i p : Nat}

theorem runs_allocate (hpc : s.pc t = .idle) (hsize : size ≤ maxBytes) (as : List Act) :
    run step (.allocate t size :: as) s = run step as (s.beginAllocate t size) := by
  simp only [run, step, hpc, hsize, and_self, ↓reduceIte, Option.bind_some]

theorem runs_continue (h : s.advance t env fuel = some s') (as : List Act) :
    run step (.continue t env fuel :: as) s = run step as s' := by
  simp only [run, step, h, Option.bind_some]

/-- A state agrees with another in all that the program can see, the places of the
threads apart. -/
structure Agree (s s' : LeveledMemoryPool) : Prop where
  os : s.os = s'.os
  page : s.page = s'.page
  central : s.central = s'.central
  thread : s.thread = s'.thread

theorem fetched_runs (env : Env) (hpc : s.pc t = .fetched size i p) {tc : ThreadCache}
    (h : (s.thread t).adopt fuel i p s.os.memory = some tc) :
    ∃ u, run step [.continue t env fuel] s = some u ∧ Agree u (s.setThread t tc) ∧
      u.pc = Function.update s.pc t .idle := by
  have hadv : s.advance t env fuel =
      some { (s.setThread t tc).setPc t .idle with held := (p, size) :: s.held } := by
    simp only [advance, hpc, h, Option.map_some]
  exact ⟨_, runs_continue hadv [], ⟨rfl, rfl, rfl, rfl⟩, rfl⟩

def answered (size i : Nat) : Ret → Pc
  | .badAlloc => .idle
  | .ptr start => if start = 0 then .idle else .fetched size i start

theorem answered_runs (size : Nat) {q : Ret} {os : Os} {page : PageCache} {c : CentralCache}
    {v : Ret × Os × PageCache × CentralCache × ThreadCache}
    (h : (s.thread t).receive fuel i q os page c = some v)
    (hstep : ∃ u, s.advance t env fuel = some u ∧ u.os = os ∧ u.page = page ∧ u.central = c ∧ u.thread = s.thread ∧
      u.pc = Function.update s.pc t (answered size i q)) :
    ∃ n u, run step (List.replicate n (.continue t env fuel)) s = some u ∧
      Agree u { s.setThread t v.2.2.2.2 with os := v.2.1, page := v.2.2.1, central := v.2.2.2.1 } ∧
      u.pc = Function.update s.pc t .idle := by
  have hself : s.thread = Function.update s.thread t (s.thread t) := (Function.update_eq_self ..).symm
  obtain ⟨u, hu, rfl, rfl, rfl, hthread, hp⟩ := hstep
  simp only [ThreadCache.receive] at h
  cases q with
  | badAlloc =>
      simp only [Option.some.injEq] at h
      subst h
      exact ⟨1, u, runs_continue hu [], ⟨rfl, rfl, rfl, hthread.trans hself⟩, hp⟩
  | ptr start =>
      by_cases h0 : start = 0
      · simp only [answered, h0, ↓reduceIte, Option.some.injEq] at h hp
        subst h
        exact ⟨1, u, runs_continue hu [], ⟨rfl, rfl, rfl, hthread.trans hself⟩, hp⟩
      · simp only [answered, if_neg h0] at h hp
        obtain ⟨tc, had, rfl⟩ := Option.map_eq_some_iff.mp h
        have hfetched : u.pc t = .fetched size i start := by
          rw [hp]
          exact Function.update_self ..
        rw [← hthread] at had
        obtain ⟨w, hw, ha, hpw⟩ := fetched_runs env hfetched had
        refine ⟨2, w, (runs_continue hu _).trans hw, ⟨ha.os, ha.page, ha.central, ?_⟩, ?_⟩
        · rw [ha.thread]
          simp only [setThread, hthread]
        · rw [hpw, hp]
          exact Function.update_idem ..

theorem fetchRange_runs (hpc : s.pc t = .fetchRange size i) {v : Ret × Os × PageCache × CentralCache × ThreadCache}
    (h : (s.thread t).fetchFromCentralCache env fuel i s.os s.page s.central = some v) :
    ∃ n u, run step (List.replicate n (.continue t env fuel)) s = some u ∧
      Agree u { s.setThread t v.2.2.2.2 with os := v.2.1, page := v.2.2.1, central := v.2.2.2.1 } ∧
      u.pc = Function.update s.pc t .idle := by
  simp only [ThreadCache.fetchFromCentralCache, CentralCache.fetchRange] at h
  cases hb : s.central.beginFetch i s.os with
  | none => simp [hb] at h
  | some w =>
      obtain ⟨o, os, c⟩ := w
      cases o with
      | some p =>
          simp only [hb] at h
          apply answered_runs size h
          simp only [advance, hpc, hb, answered]
          by_cases h0 : p = 0
          · simp only [h0, ↓reduceIte]
            exact ⟨_, rfl, rfl, rfl, rfl, rfl, rfl⟩
          · simp only [if_neg h0]
            exact ⟨_, rfl, rfl, rfl, rfl, rfl, rfl⟩
      | none =>
          simp only [hb] at h
          cases ha : CentralCache.fetchFromPageCache env (blockSize i) os s.page with
          | none => simp [ha] at h
          | some w =>
              obtain ⟨q, os', page⟩ := w
              simp only [ha] at h
              have h1 : s.advance t env fuel = some ({ s with os := os, central := c }.setPc t (.fetchSpan size i)) := by
                simp only [advance, hpc, hb]
              obtain ⟨spans, h2⟩ : ∃ spans, ({ s with os := os, central := c }.setPc t (.fetchSpan size i)).advance t env
                  fuel = some ({ s with os := os', page := page, central := c, spans := spans }.setPc t
                    (.fetchDone size i q)) := by
                simp only [advance, setPc, Function.update_self, ha, Function.update_idem]
                exact ⟨_, rfl⟩
              rcases hq : c.endFetch i q os' with ⟨q', os'', c'⟩
              simp only [hq] at h
              have h3 : ∃ u, ({ s with os := os', page := page, central := c, spans := spans }.setPc t
                  (.fetchDone size i q)).advance t env fuel = some u ∧ u.os = os'' ∧ u.page = page ∧ u.central = c' ∧
                  u.thread = s.thread ∧ u.pc = Function.update (Function.update s.pc t (.fetchDone size i q)) t
                    (answered size i q') := by
                simp only [advance, setPc, Function.update_self, hq]
                cases q' with
                | badAlloc => exact ⟨_, rfl, rfl, rfl, rfl, rfl, rfl⟩
                | ptr p =>
                    by_cases h0 : p = 0
                    · simp only [answered, h0, ↓reduceIte]
                      exact ⟨_, rfl, rfl, rfl, rfl, rfl, rfl⟩
                    · simp only [answered, if_neg h0]
                      exact ⟨_, rfl, rfl, rfl, rfl, rfl, rfl⟩
              obtain ⟨n, u, hu, hag, hp⟩ := answered_runs size
                (s := { s with os := os', page := page, central := c, spans := spans }.setPc t (.fetchDone size i q)) h h3
              refine ⟨n + 2, u, (runs_continue h1 _).trans ((runs_continue h2 _).trans hu), ?_, ?_⟩
              · exact ⟨hag.os, hag.page, hag.central, hag.thread⟩
              · rw [hp]
                exact Function.update_idem ..

end refinement

/-- The call as a whole is what the steps of its thread do when no other thread
takes one. -/
theorem allocate_runs (hpc : s.pc t = .idle) (hsize : size ≤ maxBytes)
    (h : s.allocate t size env fuel = some (r, s')) :
    ∃ n u, run step (.allocate t size :: List.replicate n (.continue t env fuel)) s = some u ∧
      Agree u s' ∧ u.pc = s.pc := by
  have hidle : ∀ p, Function.update (Function.update s.pc t p) t .idle = s.pc := by
    intro p
    rw [Function.update_idem, ← hpc, Function.update_eq_self]
  have hstart := runs_allocate hpc hsize
  simp only [allocate, ThreadCache.allocate, ThreadCache.requestIndex_eq, ThreadCache.popLocal,
    ThreadCache.decrement_freeList] at h
  obtain ⟨v, hv, he⟩ := Option.map_eq_some_iff.mp h
  simp only [Prod.mk.injEq] at he
  obtain ⟨-, rfl⟩ := he
  by_cases hi : (s.thread t).freeList (getIndex size) = 0
  · rw [if_neg (not_not.mpr hi)] at hv
    rw [beginAllocate_miss hi] at hstart
    obtain ⟨n, u, hu, ha, hp⟩ := fetchRange_runs
      (s := (s.setThread t ((s.thread t).decrement (getIndex size))).setPc t (.fetchRange size (getIndex size)))
      (Function.update_self ..) (by simpa only [setPc, setThread, Function.update_self] using hv)
    refine ⟨n, u, (hstart _).trans hu, ⟨ha.os, ha.page, ha.central, ?_⟩, ?_⟩
    · rw [ha.thread]
      exact Function.update_idem ..
    · rw [hp]
      exact hidle _
  · rw [if_pos hi] at hv
    cases hv
    rw [beginAllocate_hit hi] at hstart
    exact ⟨0, _, hstart [], ⟨rfl, rfl, rfl, rfl⟩, rfl⟩

end LearnNote.Memory.LeveledMemoryPool
