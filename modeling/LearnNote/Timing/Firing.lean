import LearnNote.Timing.Moves

namespace LearnNote.Timing

open Lib.Transition

/-- A node that was popped as due, with the queue it was taken from and the reading of the clock. -/
structure Firing where
  node : TimerNode
  queue : List TimerNode
  clock : Int

/-- The timer with the nodes popped so far. -/
structure FiredTimer where
  timer : Timer
  fired : List Firing

namespace FiredTimer

open Timer (Act Moves moves_of_step IsTop early)

def record (s : FiredTimer) (t : Timer) : FiredTimer where
  timer := t
  fired :=
    match s.timer.tick, t.tick with
    | .locking, .popped n => s.fired ++ [⟨n, s.timer.tmQueue, s.timer.now⟩]
    | _, _ => s.fired

def step (a : Act) (s : FiredTimer) : Option FiredTimer := (Timer.step a s.timer).map s.record

def start (s : FiredTimer) : Prop := Timer.start s.timer ∧ s.fired = []

def Ordered (f : Firing) : Prop := f.node ∈ f.queue ∧ IsTop f.node f.queue

def Due (f : Firing) : Prop := f.node.tnTmPoint ≤ f.clock

/-- The tick thread does not look at the queue in the last millisecond before its top is due. -/
def Punctual : Act → FiredTimer → Prop
  | .runLocal _, s => s.timer.tick = .locking → ∀ n ∈ s.timer.tmQueue, IsTop n s.timer.tmQueue →
      s.timer.now < n.tnTmPoint → s.timer.now + 1000000 ≤ n.tnTmPoint
  | _, _ => True

instance : ∀ (a : Act) (s : FiredTimer), Decidable (Punctual a s)
  | .runLocal _, _ => inferInstanceAs (Decidable (_ → _))
  | .run, _ | .runAfter _ _ _ _ _, _ | .runRepeated _ _ _ _, _ | .advance _, _ | .cancel _, _ | .wake, _ |
    .clock _, _ | .destroy, _ | .join, _ | .finish, _ => inferInstanceAs (Decidable True)

variable {s t : FiredTimer} {a : Act} {n : TimerNode}

/-- The difference is cut to whole milliseconds, so the last one does not count. -/
theorem early_iff (n : TimerNode) (now : Int) : early n now = true ↔ now + 1000000 ≤ n.tnTmPoint := by
  rw [early, decide_eq_true_iff]
  rcases Int.le_total 0 (n.tnTmPoint - now) with h | h
  · rw [Int.tdiv_eq_ediv_of_nonneg h]
    omega
  · have hneg : 0 ≤ (-(n.tnTmPoint - now)).tdiv 1000000 := Int.tdiv_nonneg (by omega) (by decide)
    rw [Int.neg_tdiv] at hneg
    omega

theorem locked_of_step {u v : Timer} {i : Nat} (htick : u.tick = .locking) (hs : u.runLocal i = some v) :
    u.tmQueue = [] ∧ v = { u with tick := .asleep false } ∨
      ∃ n ∈ u.tmQueue, IsTop n u.tmQueue ∧
        (early n u.now = true ∧ v = { u with tick := .asleep true } ∨ early n u.now = false ∧ v = u.pop n) := by
  rw [Timer.runLocal, htick] at hs
  simp only at hs
  split at hs
  next =>
    obtain ⟨hq, he⟩ := Option.ite_none_right_eq_some.mp hs
    cases he
    exact .inl ⟨hq, rfl⟩
  next n hi =>
    obtain ⟨htop, hs⟩ := Option.ite_none_left_eq_some.mp hs
    refine .inr ⟨n, List.mem_of_getElem? hi, not_not.mp htop, ?_⟩
    split at hs
    next hearly =>
      cases hs
      exact .inl ⟨hearly, rfl⟩
    next hearly =>
      cases hs
      exact .inr ⟨by simpa using hearly, rfl⟩

theorem fired_of_other (hs : step a s = some t) (hother : s.timer.tick = .locking → ∀ i, a ≠ .runLocal i) :
    t.fired = s.fired := by
  obtain ⟨u, hu, rfl⟩ := Option.map_eq_some_iff.mp hs
  by_cases htick : s.timer.tick = .locking
  · have hstay : u.tick = .locking := by
      cases moves_of_step hu with
      | run h | wake _ h => simp [htick] at h
      | test i | rest i | doze i | pop i | pass i | drop i | requeue i | done i => exact absurd rfl (hother htick i)
      | push c n => exact congrArg Timer.Tick.notified htick
      | finish => exact congrArg Timer.Tick.notified htick
      | _ => exact htick
    simp only [record, htick, hstay]
  · rw [record]
    split
    next h _ => exact absurd h htick
    next => rfl

theorem punctual_of_other (hother : s.timer.tick = .locking → ∀ i, a ≠ .runLocal i) : Punctual a s := by
  cases a with
  | runLocal i => exact fun htick => absurd rfl (hother htick i)
  | _ => trivial

/-- A look at the queue pops a node before it is due just when it comes in the last millisecond. -/
theorem locked_fires {i : Nat} (htick : s.timer.tick = .locking) (hs : step (.runLocal i) s = some t) :
    (t.fired = s.fired ∧ Punctual (.runLocal i) s) ∨
      ∃ f, t.fired = s.fired ++ [f] ∧ Ordered f ∧ f.node.tnTmPoint < f.clock + 1000000 ∧
        (Due f ↔ Punctual (.runLocal i) s) := by
  obtain ⟨u, hu, rfl⟩ := Option.map_eq_some_iff.mp hs
  rcases locked_of_step htick hu with ⟨hq, rfl⟩ | ⟨n, hn, htop, ⟨hearly, rfl⟩ | ⟨hearly, rfl⟩⟩
  · refine .inl ⟨by simp [record, htick], fun _ m hm => ?_⟩
    rw [hq] at hm
    cases hm
  · refine .inl ⟨by simp [record, htick], fun _ m hm _ _ => ?_⟩
    exact Int.le_trans ((early_iff n _).mp hearly) (htop m hm)
  · have hnot : ¬ s.timer.now + 1000000 ≤ n.tnTmPoint := (not_congr (early_iff n _)).mp (by simp [hearly])
    refine .inr ⟨⟨n, s.timer.tmQueue, s.timer.now⟩, ?_, ⟨hn, htop⟩, Int.not_le.mp hnot, ?_⟩
    · simp [record, htick, Timer.pop]
    constructor
    · intro hdue _ m hm hmtop hlt
      exact absurd hlt (Int.not_lt.mpr (Int.le_trans (hmtop n hn) hdue))
    · intro hpunctual
      exact Int.not_lt.mp fun hlt => hnot (hpunctual htick n hn htop hlt)

theorem fires_of_step (hs : step a s = some t) :
    (t.fired = s.fired ∧ Punctual a s) ∨
      ∃ f, t.fired = s.fired ++ [f] ∧ Ordered f ∧ f.node.tnTmPoint < f.clock + 1000000 ∧ (Due f ↔ Punctual a s) := by
  by_cases hlook : s.timer.tick = .locking ∧ ∃ i, a = .runLocal i
  · obtain ⟨htick, i, rfl⟩ := hlook
    exact locked_fires htick hs
  · have hother : s.timer.tick = .locking → ∀ i, a ≠ .runLocal i := fun htick i ha => hlook ⟨htick, i, ha⟩
    exact .inl ⟨fired_of_other hs hother, punctual_of_other hother⟩

theorem ordered_of_reachable {cond : Act → FiredTimer → Prop} (h : Reachable start step cond s) :
    ∀ f ∈ s.fired, Ordered f ∧ f.node.tnTmPoint < f.clock + 1000000 := by
  induction h with
  | start h =>
      rw [h.2]
      exact List.forall_mem_nil _
  | next a _ _ hs ih =>
      rcases fires_of_step hs with ⟨hf, -⟩ | ⟨f, hf, hordered, hlate, -⟩
      · rwa [hf]
      · rw [hf]
        exact List.forall_mem_append.mpr ⟨ih, List.forall_mem_singleton.mpr ⟨hordered, hlate⟩⟩

theorem due_iff (h : ∀ f ∈ s.fired, Due f) (hs : step a s = some t) : (∀ f ∈ t.fired, Due f) ↔ Punctual a s := by
  rcases fires_of_step hs with ⟨hf, hpunctual⟩ | ⟨f, hf, -, -, hdue⟩
  · rw [hf]
    exact ⟨fun _ => hpunctual, fun _ => h⟩
  · rw [hf, List.forall_mem_append, List.forall_mem_singleton, hdue]
    exact ⟨fun hall => hall.2, fun hpunctual => ⟨h, hpunctual⟩⟩

/-- Nodes are popped in the order of their times, less than a millisecond early; they are popped on
time as long as the tick thread does not look in the last millisecond. -/
theorem fires_on_time (s : FiredTimer) (h : Reachable start step always s) :
    (∀ f ∈ s.fired, Ordered f ∧ f.node.tnTmPoint < f.clock + 1000000) ∧
      (Reachable start step Punctual s → ∀ f ∈ s.fired, Due f) ∧
      ((∀ f ∈ s.fired, Due f) → ∀ a t, step a s = some t → ((∀ f ∈ t.fired, Due f) ↔ Punctual a s)) := by
  refine ⟨ordered_of_reachable h, fun hpunctual => ?_, fun hdue a t hs => due_iff hdue hs⟩
  apply hpunctual.invariant (I := fun s => ∀ f ∈ s.fired, Due f)
  · intro s hs
    rw [hs.2]
    exact List.forall_mem_nil _
  · intro a s t hdue hc hs
    exact (due_iff hdue hs).mpr hc

def init (clients : Nat) : FiredTimer := ⟨Timer.init clients, []⟩

theorem fires_on_time_two :
    ∃ s, Reachable start step Punctual s ∧ s.fired.map (fun f => (f.node.tnTmPoint, f.clock, f.queue.length)) =
      [(1000000, 1000000, 2), (2000000, 2500000, 1)] ∧ ∀ f ∈ s.fired, Ordered f ∧ Due f := by
  have hrun : (run (guarded step Punctual) [.run, .runLocal 0, .runAfter 0 2 false false 0, .advance 0, .advance 0,
      .advance 0, .runAfter 0 1 false false 0, .advance 0, .advance 0, .advance 0, .runLocal 1, .clock 1000000, .wake,
      .runLocal 0, .runLocal 1, .runLocal 0, .runLocal 0, .clock 1500000, .runLocal 0, .runLocal 0] (init 1)).map
      (fun s => s.fired.map fun f => (f.node.tnTmPoint, f.clock, f.queue.length)) =
      some [(1000000, 1000000, 2), (2000000, 2500000, 1)] := by decide +kernel
  obtain ⟨s, hr, he⟩ := reachable_of_run start hrun ⟨⟨1, rfl⟩, rfl⟩
  obtain ⟨hordered, hdue, -⟩ := fires_on_time s hr.forget
  exact ⟨s, hr, he, fun f hf => ⟨(hordered f hf).1, hdue hr f hf⟩⟩

/-- A task for one millisecond is popped half a millisecond after it was added. -/
theorem fires_early : ¬ ∀ s, Reachable start step always s → ∀ f ∈ s.fired, Ordered f ∧ Due f := by
  intro hclaim
  have hrun : (run (guarded step always) [.run, .runLocal 0, .runAfter 0 1 false false 0, .advance 0, .advance 0,
      .advance 0, .clock 500000, .runLocal 0] (init 1)).map
      (fun s => s.fired.map fun f => (f.node.tnTmPoint, f.clock)) = some [(1000000, 500000)] := by decide +kernel
  obtain ⟨s, hr, he⟩ := reachable_of_run start hrun ⟨⟨1, rfl⟩, rfl⟩
  obtain ⟨f, hf, hpair⟩ := List.map_eq_singleton_iff.mp he
  have hdue := (hclaim s hr f (by rw [hf]; exact List.mem_singleton_self f)).2
  simp only [Prod.mk.injEq] at hpair
  rw [Due, hpair.1, hpair.2] at hdue
  omega

end FiredTimer

end LearnNote.Timing
