import LearnNote.Lib.Transition
import LearnNote.Lib.WorkCrew

namespace LearnNote.Server

open Lib Lib.Transition

/-- The threads with their tasks, stop and the destructor. The calls of add that have
thrown are counted. -/
structure ThreadPool where
  crew : WorkCrew
  thrown : Nat

namespace ThreadPool

/-- The constructor starts size threads, and leaves stop as it is in memory. -/
def init (size : Int) (stop : Bool) : ThreadPool := ⟨⟨size.toNat, ⟨stop, [], [], 0, [], []⟩, .idle⟩, 0⟩

def start (size : Int) (stop : Bool) (s : ThreadPool) : Prop := s = init size stop

def add (i : Nat) (s : ThreadPool) : ThreadPool :=
  if s.crew.queue.closed then { s with thrown := s.thrown + 1 }
  else { s with crew := { s.crew with queue := s.crew.queue.submit.notifyOne i } }

inductive Act
  | crew (a : WorkCrew.Act)
  | add (i : Nat)

/-- Anybody may call add from the end of the constructor to the end of the destructor. A
sleeper may wake at any time. -/
def step : Act → ThreadPool → Option ThreadPool
  | .crew a, s => (WorkCrew.step a s.crew).map (fun c => { s with crew := c })
  | .add i, s => if s.crew.Complete ∧ s.crew.shutdown ≠ .ended then some (s.add i) else none

/-- A call of add puts its task at the end of the queue until the destructor begins, and
throws when stop is set. All tasks are executed once before the destructor returns. -/
structure Works (s : ThreadPool) : Prop where
  accepts : ∀ i t, s.crew.shutdown = .idle → step (.add i) s = some t →
    t.thrown = s.thrown ∧ t.crew.queue.tasks = s.crew.queue.tasks ++ [s.crew.queue.submitted]
  refuses : ∀ i t, s.crew.queue.closed = true → step (.add i) s = some t →
    t.thrown = s.thrown + 1 ∧ t.crew.queue.tasks = s.crew.queue.tasks
  executes : s.crew.shutdown = .ended → s.crew.queue.executed.Perm (List.range s.crew.queue.submitted)

variable {s t : ThreadPool} {stop : Bool} {size : Int}

theorem inv_step {a : Act} (h : s.crew.Inv stop) (hs : step a s = some t) : t.crew.Inv stop := by
  cases a with
  | crew a =>
      obtain ⟨c, hc, rfl⟩ := Option.map_eq_some_iff.mp hs
      exact h.step hc
  | add i =>
      obtain ⟨-, he⟩ := Option.ite_none_right_eq_some.mp hs
      cases he
      rw [add]
      split
      next => exact h
      next hopen =>
        have hsound := (h.sound.submit (fun hclosed => absurd hclosed hopen)).notifyOne i
        have hsame : s.crew.queue.Later s.crew.queue.submit := .same rfl rfl
        exact h.later hsound (hsame.trans (.notifyOne _ i))

theorem tasks_notifyOne (q : WorkQueue) (i : Nat) : (q.notifyOne i).tasks = q.tasks := by
  rw [WorkQueue.notifyOne, WorkQueue.wake]
  split <;> rfl

theorem inv_of_reachable (hsize : 1 ≤ size) (h : Reachable (start size stop) step always s) : s.crew.Inv stop := by
  apply h.invariant (I := fun s => s.crew.Inv stop) ?_ (fun _ _ _ hi _ hs => inv_step hi hs)
  rintro _ rfl
  apply WorkCrew.Inv.init
  omega

theorem works_of_inv (h : s.crew.Inv false) : Works s := by
  refine ⟨fun i t hidle hs => ?_, fun i t hclosed hs => ?_, fun hd => (h.drained hd).2⟩
  · obtain ⟨-, he⟩ := Option.ite_none_right_eq_some.mp hs
    cases he
    have hopen : ¬ s.crew.queue.closed = true := by simp [h.before hidle]
    rw [add, if_neg hopen]
    exact ⟨rfl, tasks_notifyOne _ i⟩
  · obtain ⟨-, he⟩ := Option.ite_none_right_eq_some.mp hs
    cases he
    rw [add, if_pos hclosed]
    exact ⟨rfl, rfl⟩

theorem hired (stop : Bool) {n : Nat} (hn : n ≤ size.toNat) :
    ∃ s, Reachable (start size stop) step always s ∧ s.crew.size = size.toNat ∧ s.crew.queue.workers.length = n ∧
      s.crew.queue.closed = stop ∧ s.crew.shutdown = .idle := by
  induction n with
  | zero => exact ⟨init size stop, .start rfl, rfl, rfl, rfl, rfl⟩
  | succ n ih =>
      obtain ⟨s, hr, hsize, hlength, hstop, hidle⟩ := ih (Nat.le_of_succ_le hn)
      have hlt : s.crew.queue.workers.length < s.crew.size := by omega
      have hs : step (.crew .hire) s = some { s with crew := { s.crew with queue := s.crew.queue.hire } } := by
        simp only [step, WorkCrew.step, if_pos hlt, Option.map_some]
      refine ⟨_, .next _ hr trivial hs, hsize, ?_, hstop, hidle⟩
      rw [WorkQueue.hire, List.length_append, hlength]
      rfl

/-- The pool accepts and runs its tasks exactly when stop happens to be false at first. -/
theorem works_iff_stop_false (size : Int) (hsize : 1 ≤ size) (stop : Bool) :
    (∀ s, Reachable (start size stop) step always s → Works s) ↔ stop = false := by
  constructor
  · intro h
    obtain ⟨s, hr, hcomplete, hlength, hstop, hidle⟩ := hired stop (n := size.toNat) le_rfl
    cases stop with
    | false => rfl
    | true =>
        have hok : s.crew.Complete ∧ s.crew.shutdown ≠ .ended := ⟨hlength.trans hcomplete.symm, by simp [hidle]⟩
        have hthrown := ((h s hr).accepts 0 (s.add 0) hidle (if_pos hok)).1
        rw [add, if_pos hstop] at hthrown
        exact absurd hthrown (Nat.succ_ne_self _)
  · rintro rfl s hr
    exact works_of_inv (inv_of_reachable hsize hr)

theorem works_one_thread :
    ∃ s, Reachable (start 1 false) step always s ∧ s.crew.shutdown = .ended ∧ s.crew.queue.executed.Perm [0] := by
  have hrun : (run (guarded step always) [.crew .hire, .crew (.look 0), .add 0, .crew .close, .crew (.look 0),
      .crew .notify, .crew (.finish 0), .crew (.look 0), .crew .join, .crew .leave] (init 1 false)).map
      (fun s => (s.crew.shutdown, s.crew.queue.submitted)) = some (.ended, 1) := by decide +kernel
  obtain ⟨s, hr, he⟩ := reachable_of_run (start 1 false) hrun rfl
  simp only [Prod.mk.injEq] at he
  have hworks := (works_iff_stop_false 1 (by decide) false).mpr rfl s hr
  have honce := hworks.executes he.1
  rw [he.2] at honce
  exact ⟨s, hr, he.1, honce⟩

/-- stop happens to be true: the worker leaves at once and the first add throws. -/
theorem first_add_throws :
    ¬ ∀ (size : Int) (stop : Bool), 1 ≤ size → ∀ s, Reachable (start size stop) step always s → Works s := by
  intro h
  have hrun : (run (guarded step always) [.crew .hire, .crew (.look 0)] (init 1 true)).map
      (fun s => (s.crew.shutdown, s.thrown, (s.add 0).thrown, decide s.crew.Complete)) =
      some (.idle, 0, 1, true) := by decide +kernel
  obtain ⟨s, hr, he⟩ := reachable_of_run (start 1 true) hrun rfl
  simp only [Prod.mk.injEq, decide_eq_true_eq] at he
  obtain ⟨hidle, hzero, hone, hcomplete⟩ := he
  have hworks := h 1 true (by decide) s hr
  have hthrown := (hworks.accepts 0 (s.add 0) hidle (if_pos ⟨hcomplete, by simp [hidle]⟩)).1
  rw [hone, hzero] at hthrown
  cases hthrown

end ThreadPool

end LearnNote.Server
