import LearnNote.Dbcp.Handout
import LearnNote.Dbcp.Scanning

namespace LearnNote.Dbcp

open Lib.Transition

namespace ConnectionPool

variable {s t : ConnectionPool} {a : Act} {c : Nat}

/-- The connections that a pass of the scanner deletes, each with the time when it looks at it. -/
def evictions : List Nat → List Nat → ConnectionPool → List (Nat × Nat)
  | [], _, _ => []
  | c :: cs, delays, s =>
      if s.tooMany then
        let s' := s.tick (delays.headD 0)
        if s'.isIdle c then (c, s'.now) :: evictions cs delays.tail (s'.evict c) else []
      else []

/-- No connection that a pass looks at has been idle for less than maxIdleTime_ seconds, but for at
least the milliseconds that maxIdleTime_ * 1000 wraps to. -/
def Judged : List Nat → List Nat → ConnectionPool → Prop
  | [], _, _ => True
  | c :: cs, delays, s =>
      s.tooMany = true →
        let s' := s.tick (delays.headD 0)
        (s'.getAliveTime c < s.maxIdleTime * 1000 → s'.isIdle c = false) ∧
          (s'.isIdle c = true → Judged cs delays.tail (s'.evict c))

def Sorted (s : ConnectionPool) : Prop :=
  s.connectionQueue.Pairwise fun c c' => (s.connections c).aliveTime ≤ (s.connections c').aliveTime

def Past (s : ConnectionPool) : Prop := ∀ c ∈ s.connectionQueue, (s.connections c).aliveTime ≤ s.now

/-- What a pass of the scanner is to do. Times are in nanoseconds. -/
structure Exact (delays : List Nat) (s t : ConnectionPool) : Prop where
  deleted : t.deleted = s.deleted ++ (evictions s.connectionQueue delays s).map Prod.fst
  left : t.connectionCount ≤ t.minSize ∨
    ∀ c ∈ t.connectionQueue, t.now < (t.connections c).aliveTime + t.maxIdleTime * 1000000000
  idle : ∀ e ∈ evictions s.connectionQueue delays s,
    (s.connections e.1).aliveTime + s.maxIdleTime * 1000000000 ≤ e.2

theorem ordered_of_sublist (h : Sorted s ∧ Past s) (hq : t.connectionQueue.Sublist s.connectionQueue)
    (hconnections : t.connections = s.connections) (hnow : s.now ≤ t.now) : Sorted t ∧ Past t := by
  rw [Sorted, Past, hconnections]
  exact ⟨h.1.sublist hq, fun c hc => (h.2 c (hq.subset hc)).trans hnow⟩

theorem ordered_push (h : Sorted s ∧ Past s) (hq : t.connectionQueue = s.connectionQueue ++ [c])
    (hold : ∀ d ∈ s.connectionQueue, (t.connections d).aliveTime = (s.connections d).aliveTime)
    (hnew : (t.connections c).aliveTime = s.now) (hnow : t.now = s.now) : Sorted t ∧ Past t := by
  rw [Sorted, Past, hq, hnow]
  constructor
  · refine List.pairwise_append.mpr ⟨?_, List.pairwise_singleton _ _, fun d hd e he => ?_⟩
    · refine h.1.imp_of_mem fun hd he hle => ?_
      rw [hold _ hd, hold _ he]
      exact hle
    · rw [List.mem_singleton.mp he, hold d hd, hnew]
      exact h.2 d hd
  · intro d hd
    rcases List.mem_append.mp hd with hd | hd
    · rw [hold d hd]
      exact h.2 d hd
    · rw [List.mem_singleton.mp hd, hnew]

theorem ordered_move (hheld : Held s) (h : Sorted s ∧ Past s) (hm : Moves s a t) : Sorted t ∧ Past t := by
  by_cases hadds : Adds a s
  · have ht := grows_of_moves hm hadds
    refine ordered_push h ht.queue (fun d hd => ?_) ?_ ht.now
    · have hlt := hheld.2 d (List.mem_append_left _ hd)
      rw [ht.connections, Function.update_of_ne (Nat.ne_of_lt hlt)]
    · rw [ht.connections, Function.update_self]
  · cases hm with
    | add i n connected hi hlt => exact absurd (adds_advance hi hlt connected) hadds
    | produce i connected hi hopen hq hlt => exact absurd ⟨hi, hopen, hq, hlt⟩ hadds
    | drain i connected => exact ordered_of_sublist h (List.nil_sublist _) rfl (Nat.le_refl _)
    | lease i timedOut c cs hi hq =>
        refine ordered_of_sublist h ?_ rfl (Nat.le_refl _)
        rw [hq]
        exact List.sublist_cons_self c cs
    | giveBack c hc =>
        refine ordered_push h rfl (fun d hd => ?_) ?_ rfl
        · have hne : d ≠ c := by
            rintro rfl
            exact (List.nodup_append.mp hheld.1).2.2 d hd d hc rfl
          simp [push, refreshAliveTime, hne]
        · simp [push, refreshAliveTime]
    | scan i delays stale t hi hopen hloop =>
        refine evictLoop_keeps_stale (P := fun u => Sorted u ∧ Past u) (fun d u hu => ?_) (fun c u hu => ?_) _ _ h
          hloop
        · exact ordered_of_sublist hu (List.Sublist.refl _) rfl (Nat.le_add_right _ _)
        · exact ordered_of_sublist hu (List.tail_sublist _) rfl (Nat.le_refl _)
    | tick delay => exact ordered_of_sublist h (List.Sublist.refl _) rfl (Nat.le_add_right _ _)
    | _ => exact h

theorem reachable_ordered {cond : Act → ConnectionPool → Prop} (h : Reachable start step cond s) :
    Sorted s ∧ Past s := by
  induction h with
  | start h =>
      obtain ⟨owners, clients, rfl⟩ := h
      exact ⟨.nil, nofun⟩
  | next a h _ hs ih => exact ordered_move (reachable_held h) ih (moves_of_step hs)

theorem evictLoop_ends {stale : List Nat} (q delays : List Nat) (hq : s.connectionQueue = q)
    (hdry : ¬ RunsDry q delays s) (hs : evictLoop stale q delays s = some t) :
    t.deleted = s.deleted ++ (evictions q delays s).map Prod.fst ∧
      (t.tooMany = false ∨ ∃ c cs, t.connectionQueue = c :: cs ∧ t.isIdle c = false) := by
  induction q generalizing s delays with
  | nil =>
      have hfew : ¬ s.tooMany = true := hdry
      rw [evictLoop, evictStale_of_few stale hfew] at hs
      cases hs
      exact ⟨by simp [evictions], .inl (by simpa using hfew)⟩
  | cons c cs ih =>
      rw [RunsDry] at hdry
      rw [evictLoop] at hs
      rw [evictions]
      generalize delays.headD 0 = d at hdry hs
      by_cases hmany : s.tooMany = true
      · rw [if_pos hmany] at hs ⊢
        by_cases hidle : (s.tick d).isIdle c = true
        · have hq' : ((s.tick d).evict c).connectionQueue = cs := by
            simp [evict, tick, hq]
          simp only [hidle, if_true] at hs ⊢
          obtain ⟨hdeleted, hend⟩ := ih delays.tail hq' (fun hr => hdry ⟨hmany, hidle, hr⟩) hs
          exact ⟨by simpa [evict, tick] using hdeleted, hend⟩
        · simp only [hidle] at hs ⊢
          cases hs
          exact ⟨by simp [tick], .inr ⟨c, cs, hq, by simpa using hidle⟩⟩
      · rw [if_neg hmany] at hs ⊢
        cases hs
        exact ⟨by simp, .inl (by simpa using hmany)⟩

theorem aliveTime_iff (h : (s.connections c).aliveTime ≤ s.now) :
    s.maxIdleTime * 1000 ≤ s.getAliveTime c ↔ (s.connections c).aliveTime + s.maxIdleTime * 1000000000 ≤ s.now := by
  rw [getAliveTime, Nat.le_div_iff_mul_le (by decide)]
  omega

theorem evictions_idle (q delays : List Nat) (h : ∀ c ∈ q, (s.connections c).aliveTime ≤ s.now) :
    (∀ e ∈ evictions q delays s, (s.connections e.1).aliveTime + s.maxIdleTime * 1000000000 ≤ e.2) ↔
      Judged q delays s := by
  induction q generalizing s delays with
  | nil => simp [evictions, Judged]
  | cons c cs ih =>
      rw [evictions, Judged]
      generalize delays.headD 0 = d
      have hlater : ∀ c' ∈ c :: cs, (s.connections c').aliveTime ≤ s.now + d :=
        fun c' hc' => (h c' hc').trans (Nat.le_add_right _ _)
      have hc := @aliveTime_iff (s.tick d) c (hlater c List.mem_cons_self)
      have hcs := @ih ((s.tick d).evict c) delays.tail fun c' hc' => hlater c' (List.mem_cons_of_mem c hc')
      by_cases hmany : s.tooMany = true
      · by_cases hidle : (s.tick d).isIdle c = true
        · simp only [hmany, hidle, if_true, true_implies, List.forall_mem_cons]
          exact and_congr (hc.symm.trans (by simp [tick])) hcs
        · simp [hmany, hidle]
      · simp [hmany]

theorem young_of_front {cs : List Nat} (h : Sorted s) (hpast : Past s) (hq : s.connectionQueue = c :: cs)
    (hyoung : s.isIdle c = false) :
    ∀ d ∈ s.connectionQueue, s.now < (s.connections d).aliveTime + s.maxIdleTime * 1000000000 := by
  have hle : sizeT (s.maxIdleTime * 1000) ≤ s.maxIdleTime * 1000 := Nat.mod_le _ _
  have hlt : s.getAliveTime c < sizeT (s.maxIdleTime * 1000) := by simpa [isIdle] using hyoung
  have hfront := (not_congr (aliveTime_iff (hpast c (by rw [hq]; exact List.mem_cons_self)))).mp
    (Nat.not_le.mpr (hlt.trans_le hle))
  intro d hd
  have hcd : (s.connections c).aliveTime ≤ (s.connections d).aliveTime := by
    rw [Sorted, hq] at h
    rw [hq] at hd
    rcases List.mem_cons.mp hd with rfl | hd
    · exact Nat.le_refl _
    · exact (List.pairwise_cons.mp h).1 d hd
  omega

theorem count_le_of_few (h : s.tooMany = false) : s.connectionCount ≤ s.minSize := by
  have hle : ¬ s.minSize < asSize s.connectionCount := by simpa [tooMany] using h
  rw [asSize] at hle
  split at hle <;> omega

/-- The comparison cannot err where maxIdleTime_ * 1000 does not wrap. -/
theorem judged_of_small (hsmall : s.maxIdleTime * 1000 < 2 ^ 64) (q delays : List Nat) : Judged q delays s := by
  induction q generalizing s delays with
  | nil => trivial
  | cons c cs ih =>
      intro _
      refine ⟨fun hlt => ?_, fun _ => @ih ((s.tick (delays.headD 0)).evict c) hsmall _⟩
      rw [isIdle]
      exact decide_eq_false (Nat.not_le.mpr (hlt.trans_eq (sizeT_of_lt hsmall).symm))

theorem step_scan {i : Nat} {delays stale : List Nat} (hopen : s.exit = false)
    (hs : step (.scan i true delays stale) s = some t) : evictLoop stale s.connectionQueue delays s = some t := by
  obtain ⟨-, hloop⟩ := Option.ite_none_right_eq_some.mp hs
  rwa [if_neg (by simp [hopen])] at hloop

/-- The queue is ordered by the time of the last return, and a pass of the scanner that reads no
empty queue evicts exactly just when the comparison does not err on a connection it looks at. -/
theorem eviction_exact (s : ConnectionPool) (h : Reachable start step always s) :
    Sorted s ∧ ∀ (i : Nat) (delays stale : List Nat) (t : ConnectionPool), s.exit = false →
      (∀ front ∈ fronts s.connectionQueue delays s, front ≠ []) → step (.scan i true delays stale) s = some t →
        (Exact delays s t ↔ Judged s.connectionQueue delays s) := by
  obtain ⟨hsorted, hpast⟩ := reachable_ordered h
  refine ⟨hsorted, fun i delays stale t hopen hfronts hs => ?_⟩
  have hdry := (fronts_nonempty _ _ rfl).mp hfronts
  obtain ⟨hdeleted, hend⟩ := evictLoop_ends _ _ rfl hdry (step_scan hopen hs)
  have hidle := evictions_idle s.connectionQueue delays hpast
  obtain ⟨hsorted', hpast'⟩ := reachable_ordered (h.next _ trivial hs)
  refine ⟨fun he => hidle.mp he.idle, fun hj => ⟨hdeleted, ?_, hidle.mpr hj⟩⟩
  rcases hend with hfew | ⟨c, cs, hq, hyoung⟩
  · exact .inl (count_le_of_few hfew)
  · exact .inr (young_of_front hsorted' hpast' hq hyoung)

theorem eviction_exact_idle :
    ∃ s t, Reachable start step always s ∧ step (.scan 0 true [] []) s = some t ∧ t.deleted = [0] ∧
      Sorted s ∧ Exact [] s t := by
  have hrun : (run (guarded step always) (starting 0 0 2 1 ++ [.produce 0 true, .tick 2000000000]) (init 1 1)).map
      (fun s => (s.exit, s.maxIdleTime, fronts s.connectionQueue [] s, (step (.scan 0 true [] []) s).map deleted)) =
      some (false, 1, [[0]], some [0]) := by decide +kernel
  obtain ⟨s, hr, he⟩ := reachable_of_run start hrun ⟨1, 1, rfl⟩
  simp only [Prod.mk.injEq] at he
  obtain ⟨hopen, hidle, hfronts, hscan⟩ := he
  obtain ⟨t, ht, hdeleted⟩ := Option.map_eq_some_iff.mp hscan
  obtain ⟨hsorted, hpass⟩ := eviction_exact s hr
  have hexact := hpass 0 [] [] t hopen (by rw [hfronts]; simp) ht
  exact ⟨s, t, hr, ht, hdeleted, hsorted, hexact.mpr (judged_of_small (by rw [hidle]; decide) _ _)⟩

/-- The first scanner meets a configuration that start has read again. The connection has just
been given back; 2^61 * 1000 wraps to 0. -/
theorem wrapped_time_evicts :
    ¬ ∀ s, Reachable start step always s → Sorted s ∧ ∀ (i : Nat) (delays stale : List Nat) (t : ConnectionPool),
      s.exit = false → (∀ front ∈ fronts s.connectionQueue delays s, front ≠ []) →
        step (.scan i true delays stale) s = some t → Exact delays s t := by
  intro hclaim
  have hrun : (run (guarded step always) (starting 0 0 1 0 ++ starting 0 0 1 (2 ^ 61) ++ [.produce 0 true, .call 0,
      .getConnection 0, .release 0]) (init 1 1)).map
      (fun s => (s.maxIdleTime, s.exit, fronts s.connectionQueue [] s, (step (.scan 0 true [] []) s).map fun _ =>
        (evictions s.connectionQueue [] s).map fun e => e.2 - (s.connections e.1).aliveTime)) =
      some (2 ^ 61, false, [[0]], some [0]) := by decide +kernel
  obtain ⟨s, hr, he⟩ := reachable_of_run start hrun ⟨1, 1, rfl⟩
  simp only [Prod.mk.injEq] at he
  obtain ⟨hmax, hopen, hfronts, hscan⟩ := he
  obtain ⟨t, ht, hevicted⟩ := Option.map_eq_some_iff.mp hscan
  have hexact := (hclaim s hr).2 0 [] [] t hopen (by rw [hfronts]; simp) ht
  obtain ⟨e, he, htime⟩ := List.map_eq_singleton_iff.mp hevicted
  have hidle := hexact.idle e (by rw [he]; exact List.mem_singleton_self e)
  rw [hmax] at hidle
  omega

end ConnectionPool

end LearnNote.Dbcp
