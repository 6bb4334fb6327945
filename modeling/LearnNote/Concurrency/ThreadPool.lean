import LearnNote.Lib.Transition
import LearnNote.Lib.WorkCrew

namespace LearnNote.Concurrency

open Lib Lib.Transition

/-- The threads with their tasks, exit_flag and the destructor. -/
structure ThreadPool where
  crew : WorkCrew

namespace ThreadPool

def init (nthreads hardwareConcurrency : Nat) : ThreadPool where
  crew := ⟨if nthreads = 0 then hardwareConcurrency else nthreads, ⟨false, [], [], 0, [], []⟩, .idle⟩

def start (nthreads hardwareConcurrency : Nat) (s : ThreadPool) : Prop := s = init nthreads hardwareConcurrency

def submit (s : ThreadPool) : ThreadPool := ⟨{ s.crew with queue := s.crew.queue.submit.notifyAll }⟩

def Running (i : Nat) (s : ThreadPool) : Prop := (s.crew.queue.workers[i]?.bind Worker.task).isSome

instance (i : Nat) (s : ThreadPool) : Decidable (s.Running i) := inferInstanceAs (Decidable (_ = true))

inductive Act
  | crew (a : WorkCrew.Act)
  | submit
  | submitFrom (i : Nat)

/-- The constructor launches the workers, each of them goes round its loop, and the
destructor sets exit_flag, notifies and joins. Clients submit tasks until the destructor
begins, tasks while they run. A sleeper may wake at any time. -/
def step : Act → ThreadPool → Option ThreadPool
  | .crew a, s => (WorkCrew.step a s.crew).map (fun c => ⟨c⟩)
  | .submit, s => if s.crew.Complete ∧ s.crew.shutdown = .idle then some s.submit else none
  | .submitFrom i, s => if s.Running i then some s.submit else none

variable {s t : ThreadPool}

theorem inv_submit (h : s.crew.Inv false) (hleft : s.crew.queue.closed = true → ¬ s.crew.queue.Deserted) :
    s.submit.crew.Inv false :=
  h.later (h.sound.submit hleft).notifyAll (.notifyAll rfl rfl)

theorem inv_step {a : Act} (h : s.crew.Inv false) (hs : step a s = some t) : t.crew.Inv false := by
  cases a with
  | crew a =>
      obtain ⟨c, hc, rfl⟩ := Option.map_eq_some_iff.mp hs
      exact h.step hc
  | submit =>
      obtain ⟨⟨-, hidle⟩, he⟩ := Option.ite_none_right_eq_some.mp hs
      cases he
      apply inv_submit h
      intro hclosed
      cases (h.before hidle).symm.trans hclosed
  | submitFrom i =>
      obtain ⟨hrunning, he⟩ := Option.ite_none_right_eq_some.mp hs
      cases he
      apply inv_submit h
      -- the task that submits keeps its worker from leaving
      intro _ hd
      obtain ⟨j, hj⟩ := Option.isSome_iff_exists.mp hrunning
      obtain ⟨w, hw, hwj⟩ := Option.bind_eq_some_iff.mp hj
      rw [hd w (List.mem_of_getElem? hw)] at hwj
      cases hwj

/-- Tasks are taken in the order of submission, each at most once, and when the
destructor has joined the workers all have been executed. -/
theorem every_task_once (nthreads hardwareConcurrency : Nat) (hn : 1 ≤ nthreads) (s : ThreadPool)
    (h : Reachable (start nthreads hardwareConcurrency) step always s) :
    s.crew.queue.taken ++ s.crew.queue.tasks = List.range s.crew.queue.submitted ∧
      (s.crew.queue.executed ++ s.crew.queue.inHand).Perm s.crew.queue.taken ∧ s.crew.queue.executed.Nodup ∧
      (s.crew.shutdown = .ended →
        s.crew.queue.tasks = [] ∧ s.crew.queue.executed.Perm (List.range s.crew.queue.submitted)) := by
  have hi : s.crew.Inv false := by
    apply h.invariant (I := fun s => s.crew.Inv false) ?_ (fun _ _ _ hi _ hs => inv_step hi hs)
    rintro _ rfl
    apply WorkCrew.Inv.init
    rw [if_neg (Nat.ne_of_gt hn)]
    exact hn
  exact ⟨hi.sound.order, hi.sound.once, hi.sound.nodup, hi.drained⟩

theorem every_task_once_nested :
    ∃ s, Reachable (start 1 0) step always s ∧ s.crew.shutdown = .ended ∧ s.crew.queue.submitted = 2 ∧
      s.crew.queue.executed.Perm [0, 1] := by
  have hrun : (run (guarded step always) [.crew .hire, .submit, .crew (.look 0), .crew .close, .crew .notify,
      .submitFrom 0, .crew (.finish 0), .crew (.look 0), .crew (.finish 0), .crew (.look 0), .crew .join,
      .crew .leave] (init 1 0)).map (fun s => (s.crew.shutdown, s.crew.queue.submitted)) =
        some (.ended, 2) := by decide +kernel
  obtain ⟨s, hr, he⟩ := reachable_of_run (start 1 0) hrun rfl
  simp only [Prod.mk.injEq] at he
  have honce := ((every_task_once 1 0 le_rfl s hr).2.2.2 he.1).2
  rw [he.2] at honce
  exact ⟨s, hr, he.1, he.2, honce⟩

end ThreadPool

end LearnNote.Concurrency
