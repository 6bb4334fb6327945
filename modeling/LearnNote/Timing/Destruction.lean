import LearnNote.Timing.Moves

namespace LearnNote.Timing

open Lib.Transition

namespace Timer

def Quiet (s : Timer) : Prop := ∀ k ∈ s.clients, k = .idle

/-- The destructor waits for the tick thread, which waits for a notification that nobody
is going to send. -/
def Deadlock (s : Timer) : Prop := s.destructor = .joining ∧ s.tick = .asleep false ∧ s.Quiet

instance (s : Timer) : Decidable s.Quiet := inferInstanceAs (Decidable (∀ _ ∈ _, _))

/-- Where no call is under way, the destructor does not find the tick thread asleep over
an empty queue, and the tick thread does not find the queue empty after the destructor has
cleared tm_runing_. -/
def Awake : Act → Timer → Prop
  | .destroy, s => s.Quiet → s.tick ≠ .asleep false
  | .runLocal _, s => s.tick = .locking → s.destructor = .joining → s.Quiet → s.tmQueue ≠ []
  | _, _ => True

instance : ∀ (a : Act) (s : Timer), Decidable (Awake a s)
  | .destroy, _ => inferInstanceAs (Decidable (_ → _))
  | .runLocal _, _ => inferInstanceAs (Decidable (_ → _ → _ → _))
  | .run, _ | .runAfter _ _ _ _ _, _ | .runRepeated _ _ _ _, _ | .advance _, _ | .cancel _, _ |
    .wake, _ | .clock _, _ | .join, _ | .finish, _ => inferInstanceAs (Decidable True)

variable {s t : Timer}

theorem not_quiet {c : Nat} {k v : Client} (hc : s.clients[c]? = some k) (hv : v ≠ .idle)
    (ht : t.clients = s.clients.set c v) : ¬ t.Quiet := by
  intro hquiet
  apply hv
  apply hquiet
  rw [ht]
  exact List.mem_set (List.getElem?_eq_some_iff.mp hc).1 v

theorem notified_ne_asleep (k : Tick) (timed : Bool) : k.notified ≠ .asleep timed := by
  cases k <;> simp [Tick.notified]

/-- Only a step that is not awake leads to a deadlock. -/
theorem Deadlock.move {a : Act} (h : Deadlock t) (hm : Moves s a t) : Deadlock s ∨ ¬ Awake a s := by
  obtain ⟨hd, htick, hquiet⟩ := h
  cases hm with
  | run => cases htick
  | runAfter c msTime isPeriod isRepeated repeatedNum _ hc => exact absurd hquiet (not_quiet hc (by simp) rfl)
  | runRepeated c msTime repeatedNum isPeriod _ hc => exact absurd hquiet (not_quiet hc (by simp) rfl)
  | enter c n hc => exact absurd hquiet (not_quiet (v := .entered n) hc (by simp) rfl)
  | build c n hc =>
      exact absurd hquiet (not_quiet (v := .built { n with tnTmPoint := s.now + n.tnPeriod }) hc (by simp) rfl)
  | push => exact absurd htick (notified_ne_asleep _ _)
  | test =>
      split at htick <;> cases htick
  | rest i hlocking hq => exact .inr (fun hawake => hawake hlocking hd hquiet hq)
  | destroy => exact .inr (fun hawake => hawake hquiet htick)
  | doze | pop | pass | drop | requeue | done | wake => cases htick
  | join | finish => cases hd
  | _ => exact .inl ⟨hd, htick, hquiet⟩

theorem deadlock_of_not_awake {a : Act} (h : ¬ Awake a s) (hm : Moves s a t) : Deadlock t := by
  cases hm with
  | destroy =>
      simp only [Awake, Classical.not_imp, not_not] at h
      exact ⟨rfl, h.2, h.1⟩
  | rest i hlocking hq =>
      simp only [Awake, Classical.not_imp] at h
      exact ⟨h.2.1, rfl, h.2.2.1⟩
  | doze i hlocking hq => exact absurd (fun _ _ _ => hq) h
  | pop i n hlocking hn => exact absurd (fun _ _ _ => List.ne_nil_of_mem hn) h
  | test i htick | pass i n htick | drop i n htick | requeue i n m htick | done i n htick =>
      refine absurd (fun hlocking => ?_) h
      cases htick.symm.trans hlocking
  | _ => exact absurd trivial h

/-- The destructor comes to its end unless it finds the tick thread asleep over an empty
queue, or the tick thread falls asleep there afterwards. -/
theorem destroyed_without_deadlock (s : Timer) (h : Reachable start step Awake s) :
    ¬ Deadlock s ∧ ∀ a t, step a s = some t → (Awake a s ↔ ¬ Deadlock t) := by
  have hi : ¬ Deadlock s := by
    apply h.invariant (I := fun s => ¬ Deadlock s)
    · rintro _ ⟨clients, rfl⟩ ⟨hd, -⟩
      cases hd
    · intro a s t hi hawake hs hdead
      exact (hdead.move (moves_of_step hs)).elim hi (fun hn => hn hawake)
  refine ⟨hi, fun a t hs => ⟨fun hawake hdead => ?_, fun hn => ?_⟩⟩
  · exact (hdead.move (moves_of_step hs)).elim hi (fun hn => hn hawake)
  · by_contra hawake
    exact hn (deadlock_of_not_awake hawake (moves_of_step hs))

theorem destroyed_without_deadlock_timed :
    ∃ s, Reachable start step Awake s ∧ s.destructor = .joining ∧ s.tick = .asleep true ∧ ¬ Deadlock s := by
  have hrun : (run (guarded step Awake) [.run, .runAfter 0 5 true false 0, .advance 0, .advance 0, .advance 0,
      .runLocal 0, .runLocal 0, .destroy] (init 1)).map (fun s => (s.destructor, s.tick)) =
      some (.joining, .asleep true) := by decide +kernel
  obtain ⟨s, hr, he⟩ := reachable_of_run start hrun ⟨1, rfl⟩
  simp only [Prod.mk.injEq] at he
  exact ⟨s, hr, he.1, he.2, (destroyed_without_deadlock s hr).1⟩

/-- A timer without tasks is run and destroyed. -/
theorem empty_timer_deadlocks : ¬ ∀ s, Reachable start step always s → ¬ Deadlock s := by
  intro h
  have hrun : (run (guarded step always) [.run, .runLocal 0, .runLocal 0, .destroy] (init 0)).map
      (fun s => (s.destructor, s.tick, s.clients)) = some (.joining, .asleep false, []) := by decide +kernel
  obtain ⟨s, hr, he⟩ := reachable_of_run start hrun ⟨0, rfl⟩
  simp only [Prod.mk.injEq] at he
  obtain ⟨hd, htick, hclients⟩ := he
  refine h s hr ⟨hd, htick, fun k hk => ?_⟩
  rw [hclients] at hk
  cases hk

end Timer

end LearnNote.Timing
