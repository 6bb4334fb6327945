import Mathlib.Data.List.Nodup
import Mathlib.Data.List.Range
import LearnNote.Lib.Slots

namespace LearnNote.Lib

/-- A worker is about to look at the queue, or asleep, or at work on a task, or has left. -/
inductive Worker
  | ready
  | asleep
  | busy (task : Nat)
  | gone
deriving DecidableEq

namespace Worker

def task : Worker → Option Nat
  | .busy j => some j
  | _ => none

def woken : Worker → Worker
  | .asleep => .ready
  | w => w

end Worker

/-- Tasks, numbered in the order of their submission, and those who work on them. The
history of the queue: what has been taken from it and executed. -/
structure WorkQueue where
  closed : Bool
  tasks : List Nat
  workers : List Worker
  submitted : Nat
  taken : List Nat
  executed : List Nat

namespace WorkQueue

def hire (s : WorkQueue) : WorkQueue := { s with workers := s.workers ++ [.ready] }

def submit (s : WorkQueue) : WorkQueue :=
  { s with
    tasks := s.tasks ++ [s.submitted]
    submitted := s.submitted + 1 }

def close (s : WorkQueue) : WorkQueue := { s with closed := true }

def notifyAll (s : WorkQueue) : WorkQueue := { s with workers := s.workers.map Worker.woken }

def put (i : Nat) (w : Worker) (s : WorkQueue) : WorkQueue := { s with workers := s.workers.set i w }

def wake (i : Nat) (s : WorkQueue) : Option WorkQueue :=
  if s.workers[i]? = some .asleep then some (s.put i .ready) else none

/-- A notification that reaches worker i, if it sleeps. -/
def notifyOne (i : Nat) (s : WorkQueue) : WorkQueue := (s.wake i).getD s

/-- A worker sleeps while the queue is open and empty, leaves when it is closed and
empty, and takes the first task otherwise. -/
def look (i : Nat) (s : WorkQueue) : Option WorkQueue :=
  if s.workers[i]? = some .ready then
    match s.tasks with
    | [] => some (s.put i (if s.closed then .gone else .asleep))
    | j :: tasks => some ({ s with tasks := tasks, taken := s.taken ++ [j] }.put i (.busy j))
  else none

def finish (i : Nat) (s : WorkQueue) : Option WorkQueue :=
  match s.workers[i]? with
  | some (.busy j) => some ({ s with executed := s.executed ++ [j] }.put i .ready)
  | _ => none

def inHand (s : WorkQueue) : List Nat := s.workers.filterMap Worker.task

def Deserted (s : WorkQueue) : Prop := ∀ w ∈ s.workers, w = .gone

/-- Tasks are taken in order and each is in one place. While the queue is open nobody
leaves, and when all have left there is nothing to do. -/
structure Sound (s : WorkQueue) : Prop where
  order : s.taken ++ s.tasks = List.range s.submitted
  once : (s.executed ++ s.inHand).Perm s.taken
  stays : s.closed = false → .gone ∉ s.workers
  served : s.closed = true → s.Deserted → s.tasks = []

variable {s t : WorkQueue} {i j : Nat} {w : Worker}

theorem inHand_put (hi : s.workers[i]? = some w) (v : Worker) :
    (w.task.toList ++ (s.put i v).inHand).Perm (v.task.toList ++ s.inHand) :=
  Slots.filterMap_set Worker.task v hi

theorem task_woken (w : Worker) : w.woken.task = w.task := by
  cases w <;> rfl

theorem woken_eq_gone : w.woken = .gone ↔ w = .gone := by
  cases w <;> simp [Worker.woken]

theorem not_deserted (hi : s.workers[i]? = some w) {v : Worker} (hv : v ≠ .gone) : ¬ (s.put i v).Deserted :=
  fun hd => hv (hd v (List.mem_set (List.getElem?_eq_some_iff.mp hi).1 v))

theorem gone_of_put {v : Worker} (hv : v ≠ .gone) (hin : .gone ∈ (s.put i v).workers) : .gone ∈ s.workers := by
  rcases List.mem_or_eq_of_mem_set hin with hin | he
  · exact hin
  · exact absurd he.symm hv

namespace Sound

theorem hire (h : Sound s) : Sound s.hire := by
  obtain ⟨h1, h2, h3, h4⟩ := h
  refine ⟨h1, ?_, ?_, ?_⟩
  · have hhand : s.hire.inHand = s.inHand := by
      rw [inHand, WorkQueue.hire, List.filterMap_append]
      exact List.append_nil _
    rw [hhand]
    exact h2
  · simpa [WorkQueue.hire] using h3
  · intro _ hd
    cases hd .ready (by simp [WorkQueue.hire])

theorem submit (h : Sound s) (hleft : s.closed = true → ¬ s.Deserted) : Sound s.submit := by
  obtain ⟨h1, h2, h3, h4⟩ := h
  refine ⟨?_, h2, h3, fun hc hd => absurd hd (hleft hc)⟩
  rw [WorkQueue.submit, List.range_succ, ← h1, List.append_assoc]

theorem close (h : Sound s) (hworkers : s.workers ≠ []) : Sound s.close := by
  refine ⟨h.order, h.once, ?_, fun _ hd => ?_⟩
  · intro hopen
    cases hopen
  · cases hc : s.closed with
    | true => exact h.served hc hd
    | false =>
        obtain ⟨w, hw⟩ := List.exists_mem_of_ne_nil _ hworkers
        exact absurd (hd w hw ▸ hw) (h.stays hc)

theorem notifyAll (h : Sound s) : Sound s.notifyAll := by
  obtain ⟨h1, h2, h3, h4⟩ := h
  have hhand : s.notifyAll.inHand = s.inHand := by
    rw [inHand, inHand, WorkQueue.notifyAll, List.filterMap_map]
    congr 1
    funext w
    exact task_woken w
  refine ⟨h1, hhand ▸ h2, fun hopen hin => ?_, fun hc hd => h4 hc (fun w hw => ?_)⟩
  · obtain ⟨w, hw, he⟩ := List.mem_map.mp hin
    exact h3 hopen (woken_eq_gone.mp he ▸ hw)
  · exact woken_eq_gone.mp (hd _ (List.mem_map_of_mem hw))

theorem put (h : Sound s) (hi : s.workers[i]? = some w) (hw : w.task = none) {v : Worker} (hv : v.task = none)
    (hgone : v ≠ .gone) : Sound (s.put i v) := by
  have hhand := inHand_put hi v
  rw [hw, hv] at hhand
  refine ⟨h.order, (hhand.append_left s.executed).trans h.once, ?_, fun _ hd => absurd hd (not_deserted hi hgone)⟩
  exact fun hopen hin => h.stays hopen (gone_of_put hgone hin)

theorem leave (h : Sound s) (hi : s.workers[i]? = some .ready) (hc : s.closed = true) (hnil : s.tasks = []) :
    Sound (s.put i .gone) := by
  refine ⟨h.order, ((inHand_put hi .gone).append_left s.executed).trans h.once, ?_, fun _ _ => hnil⟩
  intro hopen
  cases hc.symm.trans hopen

theorem take (h : Sound s) (hi : s.workers[i]? = some .ready) {tasks : List Nat} (hcons : s.tasks = j :: tasks) :
    Sound ({ s with tasks := tasks, taken := s.taken ++ [j] }.put i (.busy j)) := by
  refine ⟨?_, ?_, fun hopen hin => h.stays hopen (gone_of_put (by simp) hin), ?_⟩
  · have horder := h.order
    rw [hcons] at horder
    simpa [WorkQueue.put] using horder
  · apply ((inHand_put hi (.busy j)).append_left s.executed).trans
    apply List.perm_middle.trans
    exact (h.once.cons j).trans (List.perm_append_singleton j s.taken).symm
  · exact fun _ hd => absurd hd (not_deserted (s := { s with tasks := tasks, taken := s.taken ++ [j] })
    hi (by simp))

theorem wake (h : Sound s) (hs : s.wake i = some t) : Sound t := by
  obtain ⟨hi, he⟩ := Option.ite_none_right_eq_some.mp hs
  cases he
  exact h.put hi rfl rfl (by simp)

theorem notifyOne (h : Sound s) (i : Nat) : Sound (s.notifyOne i) := by
  rw [WorkQueue.notifyOne]
  cases hs : s.wake i with
  | none => exact h
  | some t => exact h.wake hs

theorem look (h : Sound s) (hs : s.look i = some t) : Sound t := by
  obtain ⟨hi, hs⟩ := Option.ite_none_right_eq_some.mp hs
  split at hs
  next hnil =>
    cases hs
    cases hc : s.closed with
    | true => exact h.leave hi hc hnil
    | false => exact h.put hi rfl rfl (by simp)
  next j tasks hcons =>
    cases hs
    exact h.take hi hcons

theorem finish (h : Sound s) (hs : s.finish i = some t) : Sound t := by
  rw [WorkQueue.finish] at hs
  split at hs
  next j hi =>
    cases hs
    refine ⟨h.order, ?_, fun hopen hin => h.stays hopen (gone_of_put (by simp) hin), ?_⟩
    · apply List.Perm.trans _ h.once
      rw [WorkQueue.put, List.append_assoc]
      exact (inHand_put hi .ready).append_left s.executed
    · exact fun _ hd => absurd hd (not_deserted (s := { s with executed := s.executed ++ [j] }) hi (by simp))
  next => cases hs

theorem nodup (h : Sound s) : s.executed.Nodup := by
  have htaken : s.taken.Nodup := (List.nodup_append.mp (h.order ▸ List.nodup_range)).1
  exact (List.nodup_append.mp (h.once.nodup_iff.mpr htaken)).1

theorem inHand_of_deserted (hd : s.Deserted) : s.inHand = [] := by
  rw [inHand, List.filterMap_eq_nil_iff]
  intro w hw
  rw [hd w hw]
  rfl

/-- When the queue is closed and all have left, everything has been executed. -/
theorem drained (h : Sound s) (hc : s.closed = true) (hd : s.Deserted) :
    s.tasks = [] ∧ s.executed.Perm (List.range s.submitted) := by
  have hnil := h.served hc hd
  have honce := h.once
  rw [inHand_of_deserted hd, List.append_nil] at honce
  refine ⟨hnil, ?_⟩
  rw [← h.order, hnil, List.append_nil]
  exact honce

end Sound

/-- The same workers, and who has left stays away. -/
structure Later (s t : WorkQueue) : Prop where
  closed : t.closed = s.closed
  length : t.workers.length = s.workers.length
  gone : ∀ k : Nat, s.workers[k]? = some .gone → t.workers[k]? = some .gone

namespace Later

theorem put (hi : s.workers[i]? = some w) (hw : w ≠ .gone) {v : Worker} (hclosed : t.closed = s.closed)
    (ht : t.workers = s.workers.set i v) : Later s t := by
  refine ⟨hclosed, by rw [ht, List.length_set], fun k hk => ?_⟩
  have hne : i ≠ k := by
    rintro rfl
    exact hw (Option.some.inj (hi.symm.trans hk))
  rw [ht, List.getElem?_set_ne hne]
  exact hk

theorem same (hclosed : t.closed = s.closed) (ht : t.workers = s.workers) : Later s t :=
  ⟨hclosed, congrArg List.length ht, fun _ hk => ht ▸ hk⟩

theorem trans {u : WorkQueue} (h : Later s t) (h' : Later t u) : Later s u :=
  ⟨h'.closed.trans h.closed, h'.length.trans h.length, fun k hk => h'.gone k (h.gone k hk)⟩

theorem deserted (h : Later s t) (hd : s.Deserted) : t.Deserted := by
  intro w hw
  obtain ⟨k, hk⟩ := List.mem_iff_getElem?.mp hw
  have hlt : k < s.workers.length := h.length ▸ (List.getElem?_eq_some_iff.mp hk).1
  have hgone : s.workers[k] = .gone := hd _ (List.getElem_mem hlt)
  have htk := h.gone k (by rw [List.getElem?_eq_getElem hlt, hgone])
  exact Option.some.inj (hk.symm.trans htk)

theorem notifyAll (hclosed : t.closed = s.closed) (ht : t.workers = s.workers.map Worker.woken) : Later s t := by
  refine ⟨hclosed, by rw [ht, List.length_map], fun k hk => ?_⟩
  rw [ht, List.getElem?_map, hk]
  rfl

theorem wake (hs : s.wake i = some t) : Later s t := by
  obtain ⟨hi, he⟩ := Option.ite_none_right_eq_some.mp hs
  cases he
  exact put hi (by simp) rfl rfl

theorem notifyOne (s : WorkQueue) (i : Nat) : Later s (s.notifyOne i) := by
  rw [WorkQueue.notifyOne]
  cases hs : s.wake i with
  | none => exact .same rfl rfl
  | some t => exact wake hs

theorem look (hs : s.look i = some t) : Later s t := by
  obtain ⟨hi, hs⟩ := Option.ite_none_right_eq_some.mp hs
  split at hs
  next =>
    cases hs
    exact put hi (by simp) rfl rfl
  next j tasks hcons =>
    cases hs
    exact put hi (by simp) rfl rfl

theorem finish (hs : s.finish i = some t) : Later s t := by
  rw [WorkQueue.finish] at hs
  split at hs
  next j hi =>
    cases hs
    exact put hi (by simp) rfl rfl
  next => cases hs

end Later

end WorkQueue

end LearnNote.Lib
