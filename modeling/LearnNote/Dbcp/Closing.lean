import LearnNote.Dbcp.Accounting

namespace LearnNote.Dbcp

open Lib.Transition

namespace ConnectionPool

variable {s t : ConnectionPool}

/-- After a close that is not followed by a start the pool is empty and stays closed. -/
def Settled (s : ConnectionPool) : Prop :=
  s.settled = true → s.connectionQueue = [] ∧ s.exit = true ∧ s.owners.any Owner.starting = false

theorem any_set {l : List Owner} (h : l.any Owner.starting = false) {o : Owner} (ho : o.starting = false) (i : Nat) :
    (l.set i o).any Owner.starting = false := by
  rw [List.any_eq_false] at *
  intro x hx
  rcases List.mem_or_eq_of_mem_set hx with hx | rfl
  · exact h x hx
  · rw [ho]
    nofun

theorem not_starting {i : Nat} {o : Owner} (h : s.owners.any Owner.starting = false) (hi : s.owners[i]? = some o) :
    o.starting = false := by
  simpa using List.any_eq_false.mp h o (List.mem_of_getElem? hi)

namespace Settled

theorem drain (hexit : s.exit = true) (i : Nat) : Settled (s.drain i) := by
  intro hs
  have hany : s.owners.any Owner.starting = false := by
    simpa [ConnectionPool.drain, notifyAll] using hs
  exact ⟨rfl, hexit, any_set hany rfl i⟩

theorem of_starting (h : Settled s) {i : Nat} {o : Owner} (hi : s.owners[i]? = some o) (ho : o.starting = true)
    (hs : t.settled = s.settled) : Settled t := by
  intro hset
  have hnot := not_starting (h (hs.symm.trans hset)).2.2 hi
  rw [ho] at hnot
  cases hnot

theorem of_open (h : Settled s) (hopen : s.exit = false) (hs : t.settled = s.settled) : Settled t := by
  intro hset
  have hexit := (h (hs.symm.trans hset)).2.1
  rw [hopen] at hexit
  cases hexit

theorem move {a : Act} (h : Settled s) (hc : StaysClosed a s) (hm : Moves s a t) : Settled t := by
  cases hm with
  | start => exact fun hset => absurd hset Bool.false_ne_true
  | add i n connected hi | added i n connected hi | launchProducer i connected hi | launchScanner i connected hi
  | reopen i connected hi | started i connected hi => exact h.of_starting hi rfl rfl
  | close i => exact fun hset => ⟨(h hset).1, rfl, any_set (h hset).2.2 rfl i⟩
  | drain i connected hi => exact drain (hc hi) i
  | lease i timedOut c cs hi hq =>
      intro hset
      have hnil := (h hset).1
      rw [hq] at hnil
      cases hnil
  | giveBack c hc hopen => exact h.of_open hopen rfl
  | produce i connected hi hopen | full i connected hi hopen => exact h.of_open hopen rfl
  | scan i delays stale t hi hopen hloop =>
      have hset : t.settled = s.settled :=
        evictLoop_keeps_stale (P := fun u => u.settled = s.settled) (fun _ _ h => h) (fun _ _ h => h) _ _ rfl hloop
      exact h.of_open hopen hset
  | _ => exact h

end Settled

theorem start_whole (h : start s) : Whole s ∧ Accounted s ∧ Settled s := by
  obtain ⟨owners, clients, rfl⟩ := h
  exact ⟨.nil, rfl, nofun⟩

/-- No connection is deleted twice, or in use after its deletion, and after a close that
is not followed by a start all connections that are given back are deleted. -/
theorem deleted_once (s : ConnectionPool) (h : Reachable start step (fun a s => Fed a s ∧ StaysClosed a s) s) :
    s.deleted.Nodup ∧ (∀ c ∈ s.deleted, c ∉ s.connectionQueue ∧ c ∉ s.leased) ∧
      (s.settled = true → s.leased = [] → ∀ c < s.created, c ∈ s.deleted) := by
  have hi : Whole s ∧ Settled s := h.invariant (I := fun s => Whole s ∧ Settled s)
    (fun _ h => ⟨(start_whole h).1, (start_whole h).2.2⟩)
    (fun _ _ _ hi hc hs => ⟨hi.1.move hc.1 (moves_of_step hs), hi.2.move hc.2 (moves_of_step hs)⟩)
  obtain ⟨hwhole, hsettled⟩ := hi
  have hnodup := hwhole.nodup
  refine ⟨(List.nodup_append.mp hnodup).2.1, fun c hc => ?_, fun hset hleased c hlt => ?_⟩
  · have hdisjoint := (List.nodup_append.mp hnodup).2.2
    exact ⟨fun hq => hdisjoint c (List.mem_append_left _ hq) c hc rfl,
      fun hl => hdisjoint c (List.mem_append_right _ hl) c hc rfl⟩
  · have hmem := hwhole.mem_iff.mpr (List.mem_range.mpr hlt)
    rwa [(hsettled hset).1, hleased, List.nil_append, List.nil_append] at hmem

theorem deleted_once_release :
    ∃ s, Reachable start step (fun a s => Fed a s ∧ StaysClosed a s) s ∧ s.settled = true ∧ s.created = 2 ∧
      ∀ c < s.created, c ∈ s.deleted := by
  have hrun : (run (guarded step (fun a s => Fed a s ∧ StaysClosed a s)) (starting 0 2 2 0 ++ [.call 0, .getConnection 0,
      .close 0, .advance 0 true, .produce 0 true, .release 0]) (init 1 1)).map
      (fun s => (s.settled, s.leased, s.created)) = some (true, [], 2) := by decide +kernel
  obtain ⟨s, hr, he⟩ := reachable_of_run start hrun ⟨1, 1, rfl⟩
  simp only [Prod.mk.injEq] at he
  exact ⟨s, hr, he.1, he.2.2, (deleted_once s hr).2.2 he.1 he.2.1⟩

/-- A start that is under way opens the pool again before the close takes the lock, and
the lease that is released last goes back to the queue. -/
theorem reopened_keeps_connection :
    ¬ ∀ s, Reachable start step always s → s.settled = true → s.leased = [] → (∀ p ∈ s.producers, p = false) →
      ∀ c < s.created, c ∈ s.deleted := by
  intro h
  have hrun : (run (guarded step always) [.start 0 1 1 0, .advance 0 true, .call 0, .getConnection 0, .close 1,
      .advance 0 true, .advance 0 true, .advance 0 true, .produce 0 true, .advance 0 true, .advance 0 true,
      .advance 1 true, .release 0] (init 2 1)).map
      (fun s => (s.settled, s.leased, s.producers, s.created, s.deleted)) = some (true, [], [false], 1, []) := by
    decide +kernel
  obtain ⟨s, hr, he⟩ := reachable_of_run start hrun ⟨2, 1, rfl⟩
  simp only [Prod.mk.injEq] at he
  obtain ⟨hset, hleased, hproducers, hcreated, hdeleted⟩ := he
  have hmem := h s hr hset hleased (by rw [hproducers]; simp) 0
    (by rw [hcreated]; exact Nat.one_pos)
  rw [hdeleted] at hmem
  cases hmem

/-- The counter counts the connections that exist, through any number of sessions, and
is 0 when a close has returned and all leases are released, as long as only the scanner
deletes connections. -/
theorem count_exact (s : ConnectionPool)
    (h : Reachable start step (fun a s => Fed a s ∧ NoWrap a s ∧ Spared a s ∧ StaysClosed a s) s) :
    s.connectionCount = s.created - s.deleted.length ∧
      (s.settled = true → s.leased = [] → s.connectionCount = 0) := by
  have hi : Whole s ∧ Accounted s ∧ Settled s := h.invariant (I := fun s => Whole s ∧ Accounted s ∧ Settled s)
    (fun _ => start_whole)
    (fun _ _ _ hi hc hs => ⟨hi.1.move hc.1 (moves_of_step hs), hi.2.1.move hc.1 hc.2.1 hc.2.2.1 (moves_of_step hs),
      hi.2.2.move hc.2.2.2 (moves_of_step hs)⟩)
  obtain ⟨hwhole, hcount, hsettled⟩ := hi
  have hlen := hwhole.length
  rw [Accounted] at hcount
  refine ⟨by omega, fun hset hleased => ?_⟩
  rw [hcount, (hsettled hset).1, hleased]
  rfl

theorem count_exact_evicted :
    ∃ s, Reachable start step (fun a s => Fed a s ∧ NoWrap a s ∧ Spared a s ∧ StaysClosed a s) s ∧ s.settled = true ∧
      s.created = 1 ∧ s.connectionCount = 0 := by
  have hrun : (run (guarded step (fun a s => Fed a s ∧ NoWrap a s ∧ Spared a s ∧ StaysClosed a s))
      (starting 0 0 1 0 ++ [.produce 0 true, .scan 0 true [] [], .close 0, .advance 0 true]) (init 1 0)).map
      (fun s => (s.settled, s.leased, s.created)) = some (true, [], 1) := by decide +kernel
  obtain ⟨s, hr, he⟩ := reachable_of_run start hrun ⟨1, 0, rfl⟩
  simp only [Prod.mk.injEq] at he
  exact ⟨s, hr, he.1, he.2.2, (count_exact s hr).2 he.1 he.2.1⟩

/-- The close deletes the connection and leaves the counter as it is. -/
theorem close_keeps_count :
    ¬ ∀ s, Reachable start step always s → s.settled = true → s.leased = [] → s.connectionCount = 0 := by
  intro h
  have hrun : (run (guarded step always) (starting 0 1 1 0 ++ [.close 0, .advance 0 true]) (init 1 0)).map
      (fun s => (s.settled, s.leased, s.connectionCount)) = some (true, [], 1) := by decide +kernel
  obtain ⟨s, hr, he⟩ := reachable_of_run start hrun ⟨1, 0, rfl⟩
  simp only [Prod.mk.injEq] at he
  have hzero := h s hr he.1 he.2.1
  rw [he.2.2] at hzero
  cases hzero

end ConnectionPool

end LearnNote.Dbcp
