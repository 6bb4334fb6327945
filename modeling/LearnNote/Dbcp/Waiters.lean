import LearnNote.Dbcp.Accounting

namespace LearnNote.Dbcp

open Lib.Transition

namespace ConnectionPool

variable {s t : ConnectionPool}

/-- A caller is on its way to the lock, or a start or a close is under way: they notify
when they find the queue non-empty, or at their end. -/
def AboutToNotify (s : ConnectionPool) : Prop :=
  (∃ timedOut, .ready timedOut ∈ s.clients) ∨ ∃ o ∈ s.owners, o ≠ .idle

/-- A caller sleeps beside a connection and nothing has told it, or is going to. -/
structure Missed (s : ConnectionPool) : Prop where
  queue : s.connectionQueue ≠ []
  sleeps : .sleeping ∈ s.clients
  silent : s.notified = false
  alone : ¬ AboutToNotify s

/-- A lease goes back to an empty queue only if nobody sleeps, or a notification is on
its way in any case. -/
def Heard : Act → ConnectionPool → Prop
  | .release c, s =>
      c ∈ s.leased → s.exit = false → s.connectionQueue = [] → .sleeping ∈ s.clients → AboutToNotify s
  | _, _ => True

instance (s : ConnectionPool) : Decidable (AboutToNotify s) := inferInstanceAs (Decidable (_ ∨ _))

instance : ∀ (a : Act) (s : ConnectionPool), Decidable (Heard a s)
  | .release _, _ => inferInstanceAs (Decidable (_ → _ → _ → _ → _))
  | .start _ _ _ _, _ | .close _, _ | .advance _ _, _ | .call _, _ | .wake _ _, _ | .getConnection _, _ |
    .produce _ _, _ | .scan _ _ _ _, _ | .tick _, _ => inferInstanceAs (Decidable True)

theorem about_of_client {i : Nat} {timedOut : Bool} (h : s.clients[i]? = some (.ready timedOut)) : AboutToNotify s :=
  .inl ⟨timedOut, List.mem_of_getElem? h⟩

theorem about_of_owner {i : Nat} {o : Owner} (h : s.owners[i]? = some o) (ho : o ≠ .idle) : AboutToNotify s :=
  .inr ⟨o, List.mem_of_getElem? h, ho⟩

namespace Missed

theorem frame (h : Missed t) (hq : t.connectionQueue ≠ [] → s.connectionQueue ≠ []) (hclients : t.clients = s.clients)
    (howners : t.owners = s.owners) (hnotified : t.notified = s.notified) : Missed s := by
  obtain ⟨h1, h2, h3, h4⟩ := h
  rw [AboutToNotify, hclients, howners] at h4
  exact ⟨hq h1, hclients ▸ h2, hnotified.symm.trans h3, h4⟩

theorem giveBack {c : Nat} (hc : c ∈ s.leased) (hopen : s.exit = false)
    (h : Missed (({ s with leased := s.leased.erase c }.refreshAliveTime c).push c)) :
    Missed s ∨ ¬ Heard (.release c) s := by
  by_cases hq : s.connectionQueue = []
  · exact .inr (fun hheard => h.alone (hheard hc hopen hq h.sleeps))
  · exact .inl (h.frame (fun _ => hq) rfl rfl (by simp [push, refreshAliveTime, hq]))

theorem of_not_heard {a : Act} (h : ¬ Heard a s) (hm : Moves s a t) : Missed t := by
  cases hm with
  | discard c hc hexit =>
      refine absurd (fun _ hopen => ?_) h
      rw [hexit] at hopen
      cases hopen
  | giveBack c hc hopen =>
      simp only [Heard, Classical.not_imp] at h
      obtain ⟨-, -, hq, hsleeps, halone⟩ := h
      exact ⟨by simp [push], hsleeps, by simp [push, refreshAliveTime, hq], halone⟩
  | _ => exact absurd trivial h

theorem move {a : Act} (h : Missed t) (hm : Moves s a t) : Missed s ∨ ¬ Heard a s := by
  have hbusy : ∀ {i : Nat} {o p : Owner}, s.owners[i]? = some o → t.owners = s.owners.set i p → p = .idle := by
    intro i o p hi hset
    by_contra hp
    refine h.alone (about_of_owner (i := i) ?_ hp)
    rw [hset, List.getElem?_set_self (List.getElem?_eq_some_iff.mp hi).1]
  have hready : ∀ {i : Nat} {c : Client} {timedOut : Bool}, s.clients[i]? = some c →
      t.clients ≠ s.clients.set i (.ready timedOut) := by
    intro i c timedOut hi hset
    have hget : t.clients[i]? = some (.ready timedOut) := by
      rw [hset, List.getElem?_set_self (List.getElem?_eq_some_iff.mp hi).1]
    exact h.alone (about_of_client hget)
  cases hm with
  | start i minSize maxSize maxIdleTime hi => cases hbusy hi rfl
  | add i n connected hi | added i n connected hi | launchProducer i connected hi | launchScanner i connected hi
  | reopen i connected hi => cases hbusy hi rfl
  | started => cases h.silent
  | close i hi => cases hbusy hi rfl
  | drain => exact absurd rfl h.queue
  | call i hi => exact absurd rfl (hready hi)
  | wake i timedOut hi => exact absurd rfl (hready hi)
  | sleep i timedOut hi hq => exact absurd hq h.queue
  | lease => cases h.silent
  | discard c => exact .inl (h.frame id rfl rfl rfl)
  | giveBack c hc hopen => exact giveBack hc hopen h
  | leaveProducer => exact .inl (h.frame id rfl rfl rfl)
  | produce | full => cases h.silent
  | rest => exact .inl h
  | leaveScanner => exact .inl (h.frame id rfl rfl rfl)
  | scan i delays stale t hi hopen hloop =>
      -- a pass of the scanner only takes connections from the queue
      left
      refine evictLoop_keeps_stale (P := fun u => Missed u → Missed s) ?_ ?_ _ _ id hloop h
      · exact fun _ _ hu hm => hu (hm.frame id rfl rfl rfl)
      · intro c u hu hm
        refine hu (hm.frame (fun hq he => ?_) rfl rfl rfl)
        exact hq (by simp [evict, he])
  | tick => exact .inl (h.frame id rfl rfl rfl)

end Missed

/-- Nobody sleeps beside a connection as long as every release is heard, and a release
that is not heard leaves a caller asleep. -/
theorem no_waiter_misses (s : ConnectionPool) (h : Reachable start step Heard s) :
    ¬ Missed s ∧ ∀ a t, step a s = some t → (Heard a s ↔ ¬ Missed t) := by
  have hi : ¬ Missed s := by
    apply h.invariant (I := fun s => ¬ Missed s)
    · rintro _ ⟨owners, clients, rfl⟩ h
      exact h.queue rfl
    · intro a s t hi hheard hs hm
      exact (hm.move (moves_of_step hs)).elim hi (fun hn => hn hheard)
  refine ⟨hi, fun a t hs => ⟨fun hheard hm => ?_, fun hn => ?_⟩⟩
  · exact (hm.move (moves_of_step hs)).elim hi (fun hn => hn hheard)
  · by_contra hheard
    exact hn (.of_not_heard hheard (moves_of_step hs))

theorem no_waiter_misses_caller :
    ∃ s, Reachable start step Heard s ∧ s.connectionQueue = [0] ∧ s.clients = [.idle, .sleeping, .ready false] ∧
      s.notified = false ∧ ¬ Missed s := by
  have hrun : (run (guarded step Heard) (starting 0 1 1 0 ++ [.call 0, .getConnection 0, .call 1, .getConnection 1,
      .call 2, .release 0]) (init 1 3)).map (fun s => (s.connectionQueue, s.clients, s.notified)) =
      some ([0], [.idle, .sleeping, .ready false], false) := by decide +kernel
  obtain ⟨s, hr, he⟩ := reachable_of_run start hrun ⟨1, 3, rfl⟩
  simp only [Prod.mk.injEq] at he
  exact ⟨s, hr, he.1, he.2.1, he.2.2, (no_waiter_misses s hr).1⟩

/-- One caller holds the only connection, another one goes to sleep, and the lease is
released. -/
theorem release_is_missed : ¬ ∀ s, Reachable start step always s → s.exit = false → ¬ Missed s := by
  intro h
  have hrun : (run (guarded step always) (starting 0 1 1 0 ++ [.call 0, .getConnection 0, .call 1, .getConnection 1,
      .release 0]) (init 1 2)).map (fun s => (s.exit, s.connectionQueue, s.clients, s.notified, s.owners)) =
      some (false, [0], [.idle, .sleeping], false, [.idle]) := by decide +kernel
  obtain ⟨s, hr, he⟩ := reachable_of_run start hrun ⟨1, 2, rfl⟩
  simp only [Prod.mk.injEq] at he
  obtain ⟨hexit, hq, hclients, hnotified, howners⟩ := he
  refine h s hr hexit ⟨?_, ?_, hnotified, ?_⟩
  · rw [hq]
    nofun
  · rw [hclients]
    simp
  · rw [AboutToNotify, hclients, howners]
    simp

end ConnectionPool

end LearnNote.Dbcp
