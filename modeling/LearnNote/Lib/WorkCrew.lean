import LearnNote.Lib.WorkQueue

namespace LearnNote.Lib

/-- How far the shutdown is: the queue is closed, or the first k workers are joined. -/
inductive Shutdown
  | idle
  | flagged
  | joining (k : Nat)
  | ended
deriving DecidableEq

/-- A work queue with a number of workers to hire, until all are told to leave and joined. -/
structure WorkCrew where
  size : Nat
  queue : WorkQueue
  shutdown : Shutdown

namespace WorkCrew

def Complete (s : WorkCrew) : Prop := s.queue.workers.length = s.size

instance (s : WorkCrew) : Decidable s.Complete := inferInstanceAs (Decidable (_ = _))

inductive Act
  | hire
  | look (i : Nat)
  | wake (i : Nat)
  | finish (i : Nat)
  | close
  | notify
  | join
  | leave

def step : Act → WorkCrew → Option WorkCrew
  | .hire, s => if s.queue.workers.length < s.size then some { s with queue := s.queue.hire } else none
  | .look i, s => (s.queue.look i).map (fun q => { s with queue := q })
  | .wake i, s => (s.queue.wake i).map (fun q => { s with queue := q })
  | .finish i, s => (s.queue.finish i).map (fun q => { s with queue := q })
  | .close, s =>
      if s.Complete ∧ s.shutdown = .idle then
        some { s with queue := s.queue.close, shutdown := .flagged }
      else none
  | .notify, s =>
      if s.shutdown = .flagged then some { s with queue := s.queue.notifyAll, shutdown := .joining 0 } else none
  | .join, s =>
      match s.shutdown with
      | .joining k =>
          if s.queue.workers[k]? = some .gone then some { s with shutdown := .joining (k + 1) } else none
      | _ => none
  | .leave, s =>
      match s.shutdown with
      | .joining k => if k = s.queue.workers.length then some { s with shutdown := .ended } else none
      | _ => none

def Joined (queue : WorkQueue) : Shutdown → Prop
  | .joining k => ∀ i < k, queue.workers[i]? = some .gone
  | .ended => queue.Deserted
  | _ => True

/-- A crew whose queue is closed, or not, until the shutdown closes it. -/
structure Inv (closed : Bool) (s : WorkCrew) : Prop where
  size : 0 < s.size
  sound : s.queue.Sound
  before : s.shutdown = .idle → s.queue.closed = closed
  after : s.shutdown ≠ .idle → s.queue.closed = true
  complete : s.shutdown ≠ .idle → s.Complete
  joined : Joined s.queue s.shutdown

variable {s t : WorkCrew} {q : WorkQueue} {closed : Bool}

theorem Joined.later {d : Shutdown} (h : Joined s.queue d) (hq : s.queue.Later q) : Joined q d := by
  cases d with
  | joining k => exact fun i hi => hq.gone i (h i hi)
  | ended => exact hq.deserted h
  | _ => trivial

namespace Inv

theorem init {size : Nat} (hsize : 0 < size) : Inv closed ⟨size, ⟨closed, [], [], 0, [], []⟩, .idle⟩ :=
  ⟨hsize, ⟨rfl, .nil, by simp, fun _ _ => rfl⟩, fun _ => rfl, fun hd => absurd rfl hd,
    fun hd => absurd rfl hd, trivial⟩

theorem later (h : Inv closed s) (hsound : q.Sound) (hq : s.queue.Later q) : Inv closed { s with queue := q } := by
  obtain ⟨h1, -, h3, h4, h5, h6⟩ := h
  exact ⟨h1, hsound, fun hd => hq.closed.trans (h3 hd), fun hd => hq.closed.trans (h4 hd),
    fun hd => hq.length.trans (h5 hd), h6.later hq⟩

theorem hire (h : Inv closed s) (hlt : s.queue.workers.length < s.size) :
    Inv closed { s with queue := s.queue.hire } := by
  have hidle : s.shutdown = .idle := by
    by_contra hd
    exact hlt.ne (h.complete hd)
  refine ⟨h.size, h.sound.hire, h.before, h.after, fun hd => absurd hidle hd, ?_⟩
  rw [hidle]
  trivial

theorem close (h : Inv closed s) (hc : s.Complete) :
    Inv closed { s with queue := s.queue.close, shutdown := .flagged } := by
  have hworkers : s.queue.workers ≠ [] := by
    apply List.ne_nil_of_length_pos
    rw [hc]
    exact h.size
  exact ⟨h.size, h.sound.close hworkers, fun hd => absurd hd (by simp), fun _ => rfl, fun _ => hc, trivial⟩

theorem notify (h : Inv closed s) (hd : s.shutdown = .flagged) :
    Inv closed { s with queue := s.queue.notifyAll, shutdown := .joining 0 } := by
  have hnot : s.shutdown ≠ .idle := by simp [hd]
  refine ⟨h.size, h.sound.notifyAll, fun hd => absurd hd (by simp), fun _ => h.after hnot, fun _ => ?_, ?_⟩
  · exact (List.length_map _).trans (h.complete hnot)
  · intro i hi
    cases hi

theorem join (h : Inv closed s) {k : Nat} (hd : s.shutdown = .joining k)
    (hgone : s.queue.workers[k]? = some .gone) :
    Inv closed { s with shutdown := .joining (k + 1) } := by
  have hnot : s.shutdown ≠ .idle := by simp [hd]
  have hjoined := h.joined
  rw [hd] at hjoined
  refine ⟨h.size, h.sound, fun hd => absurd hd (by simp), fun _ => h.after hnot, fun _ => h.complete hnot,
    fun i hi => ?_⟩
  rcases Nat.lt_succ_iff_lt_or_eq.mp hi with hi | rfl
  · exact hjoined i hi
  · exact hgone

theorem leave (h : Inv closed s) (hd : s.shutdown = .joining s.queue.workers.length) :
    Inv closed { s with shutdown := .ended } := by
  have hnot : s.shutdown ≠ .idle := by simp [hd]
  have hjoined := h.joined
  rw [hd] at hjoined
  refine ⟨h.size, h.sound, fun hd => absurd hd (by simp), fun _ => h.after hnot, fun _ => h.complete hnot,
    fun w hw => ?_⟩
  obtain ⟨i, hi⟩ := List.mem_iff_getElem?.mp hw
  exact Option.some.inj (hi.symm.trans (hjoined i (List.getElem?_eq_some_iff.mp hi).1))

theorem step {a : Act} (h : Inv closed s) (hs : step a s = some t) : Inv closed t := by
  cases a with
  | hire =>
      obtain ⟨hlt, he⟩ := Option.ite_none_right_eq_some.mp hs
      cases he
      exact h.hire hlt
  | look i =>
      obtain ⟨q, hq, rfl⟩ := Option.map_eq_some_iff.mp hs
      exact h.later (h.sound.look hq) (.look hq)
  | wake i =>
      obtain ⟨q, hq, rfl⟩ := Option.map_eq_some_iff.mp hs
      exact h.later (h.sound.wake hq) (.wake hq)
  | finish i =>
      obtain ⟨q, hq, rfl⟩ := Option.map_eq_some_iff.mp hs
      exact h.later (h.sound.finish hq) (.finish hq)
  | close =>
      obtain ⟨⟨hc, -⟩, he⟩ := Option.ite_none_right_eq_some.mp hs
      cases he
      exact h.close hc
  | notify =>
      obtain ⟨hd, he⟩ := Option.ite_none_right_eq_some.mp hs
      cases he
      exact h.notify hd
  | join =>
      simp only [WorkCrew.step] at hs
      split at hs
      next k hd =>
        obtain ⟨hgone, he⟩ := Option.ite_none_right_eq_some.mp hs
        cases he
        exact h.join hd hgone
      next => cases hs
  | leave =>
      simp only [WorkCrew.step] at hs
      split at hs
      next k hd =>
        obtain ⟨rfl, he⟩ := Option.ite_none_right_eq_some.mp hs
        cases he
        exact h.leave hd
      next => cases hs

/-- After the shutdown everything that was submitted has been executed. -/
theorem drained (h : Inv closed s) (hd : s.shutdown = .ended) :
    s.queue.tasks = [] ∧ s.queue.executed.Perm (List.range s.queue.submitted) := by
  have hdeserted := h.joined
  rw [hd] at hdeserted
  exact h.sound.drained (h.after (by simp [hd])) hdeserted

end Inv

end WorkCrew

end LearnNote.Lib
