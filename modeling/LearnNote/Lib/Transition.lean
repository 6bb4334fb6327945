import Mathlib.Logic.Relation

namespace LearnNote.Lib.Transition

variable {State Act : Type*}

/-- States reached from the initial ones by steps that meet a condition. The
condition is on the state before the step and on the action taken there. -/
inductive Reachable (init : State → Prop) (step : Act → State → Option State)
    (cond : Act → State → Prop) : State → Prop
  | start {s : State} (h : init s) : Reachable init step cond s
  | next {s t : State} (a : Act) (h : Reachable init step cond s) (hc : cond a s)
      (hs : step a s = some t) : Reachable init step cond t

def always : Act → State → Prop := fun _ _ => True

variable {init : State → Prop} {step : Act → State → Option State}
  {cond cond' : Act → State → Prop} {I : State → Prop}

/-- The induction behind every safety theorem: an invariant holds initially
and each admissible step keeps it. -/
theorem Reachable.invariant (h0 : ∀ s, init s → I s)
    (hstep : ∀ a s t, I s → cond a s → step a s = some t → I t)
    {s : State} (h : Reachable init step cond s) : I s := by
  induction h with
  | start h => exact h0 _ h
  | next a _ hc hs ih => exact hstep a _ _ ih hc hs

theorem Reachable.weaken (hcond : ∀ a s, cond a s → cond' a s) {s : State}
    (h : Reachable init step cond s) : Reachable init step cond' s := by
  induction h with
  | start h => exact .start h
  | next a _ hc hs ih => exact .next a ih (hcond a _ hc) hs

theorem Reachable.forget {s : State} (h : Reachable init step cond s) :
    Reachable init step always s :=
  h.weaken (fun _ _ _ => trivial)

def run (step : Act → State → Option State) : List Act → State → Option State
  | [], s => some s
  | a :: as, s => (step a s).bind (run step as)

theorem run_append (as bs : List Act) (s : State) : run step (as ++ bs) s = (run step as s).bind (run step bs) := by
  induction as generalizing s with
  | nil => rfl
  | cons a as ih =>
      rw [List.cons_append, run, run, Option.bind_assoc]
      exact congrArg _ (funext ih)

theorem run_keeps (hstep : ∀ a s t, I s → step a s = some t → I t) {as : List Act} {s t : State} (h : I s)
    (hr : run step as s = some t) : I t := by
  induction as generalizing s with
  | nil => cases hr; exact h
  | cons a as ih =>
      obtain ⟨u, hs, hr⟩ := Option.bind_eq_some_iff.mp hr
      exact ih (hstep a s u h hs) hr

instance (a : Act) (s : State) : Decidable (always a s) := .isTrue trivial

/-- A step that is taken only where the condition holds. -/
def guarded (step : Act → State → Option State) (cond : Act → State → Prop)
    [∀ a s, Decidable (cond a s)] (a : Act) (s : State) : Option State :=
  if cond a s then step a s else none

theorem guarded_always : guarded step always = step := by
  funext a s
  exact if_pos trivial

theorem Reachable.run [∀ a s, Decidable (cond a s)] {s t : State} (h : Reachable init step cond s)
    (as : List Act) (hr : run (guarded step cond) as s = some t) : Reachable init step cond t := by
  induction as generalizing s with
  | nil => cases hr; exact h
  | cons a as ih =>
      obtain ⟨u, hs, hr⟩ := Option.bind_eq_some_iff.mp hr
      simp only [guarded] at hs
      split at hs
      · exact ih (.next a h ‹_› hs) hr
      · cases hs

theorem reachable_of_run {β : Type*} [∀ a s, Decidable (cond a s)] {f : State → β} {b : β} {as : List Act} {s : State}
    (init : State → Prop) (hr : (run (guarded step cond) as s).map f = some b) (h : init s) :
    ∃ t, Reachable init step cond t ∧ f t = b := by
  obtain ⟨t, ht, hb⟩ := Option.map_eq_some_iff.mp hr
  exact ⟨t, Reachable.run (.start h) as ht, hb⟩

section Progress

variable {P : Nat → Prop} {n m : Nat}

theorem propagate (hnext : ∀ n, P n → P (n + 1)) (hnm : n ≤ m) (h : P n) : P m := by
  induction hnm with
  | refl => exact h
  | step _ ih => exact hnext _ ih

/-- What is reached when as long as it is not a measure decreases. -/
theorem reached_of_measure (μ : Nat → Nat) (N : Nat) (h : ∀ n, N ≤ n → P n ∨ μ (n + 1) < μ n) : ∃ n, N ≤ n ∧ P n := by
  generalize hm : μ N = m
  induction m using Nat.strongRecOn generalizing N with
  | ind m ih =>
      rcases h N (Nat.le_refl N) with hP | hlt
      · exact ⟨N, Nat.le_refl N, hP⟩
      · obtain ⟨n, hn, hP⟩ := ih _ (hm ▸ hlt) (N + 1) (fun n hn => h n (Nat.le_of_succ_le hn)) rfl
        exact ⟨n, Nat.le_of_succ_le hn, hP⟩

/-- What is reached when as long as it is not a measure never grows and decreases again and
again. -/
theorem reached_of_often (μ : Nat → Nat) (hle : ∀ n, P n ∨ μ (n + 1) ≤ μ n)
    (hlt : ∀ N, ∃ n, N ≤ n ∧ (P n ∨ μ (n + 1) < μ n)) : ∃ n, P n := by
  apply Classical.byContradiction
  intro hnone
  rw [not_exists] at hnone
  have hanti {n m : Nat} (hnm : n ≤ m) : μ m ≤ μ n := by
    induction hnm with
    | refl => exact Nat.le_refl _
    | step _ ih => exact Nat.le_trans ((hle _).resolve_left (hnone _)) ih
  have hbelow (k : Nat) : ∃ n, μ n + k ≤ μ 0 := by
    induction k with
    | zero => exact ⟨0, Nat.le_refl _⟩
    | succ k ih =>
        obtain ⟨n, hn⟩ := ih
        obtain ⟨m, hnm, hm⟩ := hlt n
        have hstep := hm.resolve_left (hnone m)
        have hle := hanti hnm
        exact ⟨m + 1, by omega⟩
  obtain ⟨n, hn⟩ := hbelow (μ 0 + 1)
  omega

variable {done : State → Prop} {s t : State}

theorem length_le_of_measure (μ : State → Nat) (hstep : ∀ a s t, I s → step a s = some t → I t ∧ μ t < μ s)
    {as : List Act} (h : I s) (hr : run step as s = some t) : I t ∧ μ t + as.length ≤ μ s := by
  induction as generalizing s with
  | nil =>
      cases hr
      exact ⟨h, Nat.le_refl _⟩
  | cons a as ih =>
      obtain ⟨u, hs, hr⟩ := Option.bind_eq_some_iff.mp hr
      obtain ⟨hu, hlt⟩ := hstep a s u h hs
      obtain ⟨ht, hle⟩ := ih hu hr
      refine ⟨ht, ?_⟩
      rw [List.length_cons]
      omega

theorem exists_done (μ : State → Nat)
    (hgo : ∀ s, I s → done s ∨ ∃ a t, cond a s ∧ step a s = some t ∧ I t ∧ μ t < μ s)
    (hr : Reachable init step cond s) (h : I s) : ∃ t, Reachable init step cond t ∧ I t ∧ done t := by
  induction hn : μ s using Nat.strongRecOn generalizing s with
  | ind n ih =>
      rcases hgo s h with hdone | ⟨a, t, hc, hs, ht, hlt⟩
      · exact ⟨s, hr, h, hdone⟩
      · exact ih _ (hn ▸ hlt) (.next a hr hc hs) ht rfl

end Progress

end LearnNote.Lib.Transition
