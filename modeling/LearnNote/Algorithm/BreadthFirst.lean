import Mathlib.Algebra.BigOperators.Group.Finset.Piecewise
import Mathlib.Algebra.GroupWithZero.Nat
import Mathlib.Algebra.Order.BigOperators.Group.Finset
import LearnNote.Algorithm.CourseSchedule
import LearnNote.Lib.CheckedInt
import LearnNote.Lib.LeastSolution

namespace LearnNote.Algorithm.CourseSchedule.BreadthFirst

open Lib Lib.Finishing Lib.LeastSolution

structure State where
  indeg : List Int
  q : List Nat
  cnt : Int

/-- No result, here and below, is an access outside a vector, an overflow, or out of fuel. -/
def increase (indeg : List Int) (prequisite : Nat × Nat) : Option (List Int) :=
  indeg[prequisite.1]?.bind fun d => (checkedInt (d + 1)).map fun d => indeg.set prequisite.1 d

def pushIndependent (indeg : List Int) (q : List Nat) (i : Nat) : Option (List Nat) :=
  indeg[i]?.map fun d => if d = 0 then q ++ [i] else q

/-- The source asks for the decreased value itself, not for its being 0. -/
def decrease (s : State) (j : Nat) : Option State :=
  s.indeg[j]?.bind fun d => (checkedInt (d - 1)).map fun d =>
    { s with indeg := s.indeg.set j d, q := if d ≠ 0 then s.q ++ [j] else s.q }

def whileQueued (G : List (List Nat)) : Nat → State → Option State
  | 0, _ => none
  | fuel + 1, s =>
      match s.q with
      | [] => some s
      | i :: q => (checkedInt (s.cnt + 1)).bind fun cnt => G[i]?.bind fun row =>
          (row.foldlM decrease { s with q := q, cnt := cnt }).bind (whileQueued G fuel)

def canFinish (fuel n : Nat) (prequisites : List (Nat × Nat)) : Option Bool :=
  (adjacency n prequisites).bind fun G => (prequisites.foldlM increase (List.replicate n 0)).bind fun indeg =>
    ((List.range n).foldlM (pushIndependent indeg) []).bind fun q =>
      (whileQueued G fuel ⟨indeg, q, 0⟩).map fun s => decide (s.cnt = (n : Int))

def Decides (n : Nat) (prequisites : List (Nat × Nat)) : Prop :=
  ∃ N, ∀ fuel, N ≤ fuel → ∃ b, canFinish fuel n prequisites = some b ∧ (b = true ↔ ¬ Cyclic (Needed prequisites))

def indegree (prequisites : List (Nat × Nat)) (v : Nat) : Nat := prequisites.countP fun p => p.1 = v

/-- How often v is come to, when each course has so many turns. -/
def arrivals (prequisites : List (Nat × Nat)) (turns : Nat → Nat) (v : Nat) : Nat :=
  ((prequisites.filter fun p => p.1 = v).map fun p => turns p.2).sum

/-- How often v is queued, when it is come to so many times: once if it needs no course, and
otherwise every time but the one that would be the last of all. -/
def queued (n : Nat) (prequisites : List (Nat × Nat)) (arrived : Nat → Nat) (v : Nat) : Nat :=
  if v < n then
    if indegree prequisites v = 0 then 1
    else arrived v - if indegree prequisites v ≤ arrived v then 1 else 0
  else 0

def turned (n : Nat) (prequisites : List (Nat × Nat)) (turns : Nat → Nat) : Nat → Nat :=
  queued n prequisites (arrivals prequisites turns)

/-- No counter leaves the ints. -/
structure Fits (n : Nat) (prequisites : List (Nat × Nat)) (turns : Nat → Nat) : Prop where
  indegree_le : ∀ v < n, (indegree prequisites v : Int) ≤ intMax
  arrivals_le : ∀ v < n, (arrivals prequisites turns v : Int) ≤ indegree prequisites v - intMin
  total_le : ((∑ v ∈ Finset.range n, turns v : Nat) : Int) ≤ intMax

/-- A moment of the loop: the turns that each course had, and how often each was come to. -/
structure Flow (n : Nat) (prequisites : List (Nat × Nat)) (turns arrived : Nat → Nat) (s : State) : Prop where
  length : s.indeg.length = n
  indeg : ∀ v < n, s.indeg[v]? = some (indegree prequisites v - arrived v : Int)
  queue : ∀ v, s.q.count v + turns v = queued n prequisites arrived v
  cnt : s.cnt = (∑ v ∈ Finset.range n, turns v : Nat)
  arrived_le : ∀ v < n, (arrived v : Int) ≤ indegree prequisites v - intMin
  cnt_le : s.cnt ≤ intMax

variable {n i j v fuel : Nat} {prequisites : List (Nat × Nat)} {turns arrived turns' arrived' : Nat → Nat}
  {s t : State} {G : List (List Nat)}

theorem arrivals_zero : arrivals prequisites (fun _ => 0) v = 0 := by
  simp [arrivals]

theorem arrivals_mono (h : ∀ v, turns v ≤ turns' v) (v : Nat) :
    arrivals prequisites turns v ≤ arrivals prequisites turns' v := by
  unfold arrivals
  induction prequisites.filter fun p => p.1 = v with
  | nil => exact le_rfl
  | cons p l ih => exact Nat.add_le_add (h p.2) ih

theorem arrivals_turn (i v : Nat) :
    arrivals prequisites (Function.update turns i (turns i + 1)) v =
      arrivals prequisites turns v + (row prequisites i).count v := by
  induction prequisites with
  | nil => rfl
  | cons p l ih =>
      simp only [arrivals, row] at ih ⊢
      by_cases hv : p.1 = v <;> by_cases hi : p.2 = i <;> simp [hv, hi, ih] <;> omega

theorem indegree_pos (h : Needed prequisites i j) : 0 < indegree prequisites j :=
  List.countP_pos_iff.mpr ⟨(j, i), h, by simp⟩

theorem queued_mono (h : ∀ v, arrived v ≤ arrived' v) (v : Nat) :
    queued n prequisites arrived v ≤ queued n prequisites arrived' v := by
  have hv := h v
  unfold queued
  split_ifs <;> omega

theorem turned_grows : Grows (turned n prequisites) := fun _ _ h => queued_mono (arrivals_mono h)

/-- Coming to a course queues it, unless that was the last of what it needs. -/
theorem queued_arrive (hv : v < n) (hpos : 0 < indegree prequisites v) :
    queued n prequisites (Function.update arrived v (arrived v + 1)) v =
      queued n prequisites arrived v + if arrived v + 1 = indegree prequisites v then 0 else 1 := by
  simp only [queued, if_pos hv, Function.update_self]
  split_ifs <;> omega

theorem queued_congr (h : arrived v = arrived' v) :
    queued n prequisites arrived v = queued n prequisites arrived' v := by
  simp only [queued, h]

def along (prequisites : List (Nat × Nat)) (turns : Nat → Nat) (done : List Nat) (v : Nat) : Nat :=
  arrivals prequisites turns v + done.count v

theorem along_concat (done : List Nat) (j : Nat) :
    along prequisites turns (done ++ [j]) =
      Function.update (along prequisites turns done) j (along prequisites turns done j + 1) := by
  funext v
  by_cases h : v = j
  · subst h
    rw [Function.update_self, along, along, List.count_append, List.count_singleton_self, Nat.add_assoc]
  · rw [Function.update_of_ne h, along, along, List.count_append, List.count_singleton,
      if_neg (by simpa using Ne.symm h),
      Nat.add_zero]

theorem Flow.decrease (h : Flow n prequisites turns arrived s) (hj : j < n) (hpos : 0 < indegree prequisites j)
    (ht : decrease s j = some t) :
    Flow n prequisites turns (Function.update arrived j (arrived j + 1)) t := by
  rw [BreadthFirst.decrease, h.indeg j hj, Option.bind_some] at ht
  obtain ⟨d, hd, rfl⟩ := Option.map_eq_some_iff.mp ht
  obtain ⟨⟨hmin, -⟩, rfl⟩ := checkedInt_eq_some.mp hd
  refine ⟨by rw [List.length_set, h.length], fun v hv => ?_, fun v => ?_, h.cnt, fun v hv => ?_, h.cnt_le⟩
  · by_cases he : j = v
    · subst he
      rw [List.getElem?_set_self (h.length ▸ hj), Function.update_self, Option.some_inj]
      omega
    · rw [List.getElem?_set_ne he, Function.update_of_ne (Ne.symm he), h.indeg v hv]
  · by_cases he : v = j
    · subst he
      rw [queued_arrive hj hpos, ← h.queue v]
      split_ifs <;> simp only [List.count_append, List.count_singleton_self] <;> omega
    · rw [queued_congr (Function.update_of_ne he _ _), ← h.queue v]
      split_ifs <;> simp [Ne.symm he]
  · by_cases he : v = j
    · subst he
      rw [Function.update_self]
      omega
    · rw [Function.update_of_ne he]
      exact h.arrived_le v hv

theorem Flow.decreases (h : Flow n prequisites turns arrived s) (hj : j < n)
    (hneeded : (indegree prequisites j : Int) ≤ intMax)
    (hfits : (arrived j + 1 : Int) ≤ indegree prequisites j - intMin) : ∃ t, BreadthFirst.decrease s j = some t := by
  rw [BreadthFirst.decrease, h.indeg j hj, Option.bind_some, checkedInt_of_mem (by omega) (by omega)]
  exact ⟨_, rfl⟩

theorem sum_turn (hi : i < n) :
    ∑ v ∈ Finset.range n, Function.update turns i (turns i + 1) v = ∑ v ∈ Finset.range n, turns v + 1 := by
  have hsplit := Finset.add_sum_erase (Finset.range n) turns (Finset.mem_range.mpr hi)
  rw [Finset.sum_update_of_mem (Finset.mem_range.mpr hi), Finset.sdiff_singleton_eq_erase]
  omega

theorem Flow.turn {q : List Nat} (h : Flow n prequisites turns arrived s) (hq : s.q = i :: q) (hi : i < n)
    (hcnt : s.cnt + 1 ≤ intMax) :
    Flow n prequisites (Function.update turns i (turns i + 1)) arrived { s with q := q, cnt := s.cnt + 1 } := by
  refine ⟨h.length, h.indeg, fun v => ?_, ?_, h.arrived_le, hcnt⟩
  · rw [← h.queue v, hq]
    by_cases he : v = i
    · subst he
      rw [Function.update_self, List.count_cons_self]
      simp only
      omega
    · rw [Function.update_of_ne he, List.count_cons_of_ne (Ne.symm he)]
  · simp only [h.cnt, sum_turn hi]
    omega

theorem along_nil : along prequisites turns [] = arrivals prequisites turns := by
  funext v
  rw [along, List.count_nil, Nat.add_zero]

theorem along_row : along prequisites turns (row prequisites i) =
    arrivals prequisites (Function.update turns i (turns i + 1)) := by
  funext v
  rw [along, arrivals_turn]

def Between (n : Nat) (prequisites : List (Nat × Nat)) (turns : Nat → Nat) (s : State) : Prop :=
  Flow n prequisites turns (arrivals prequisites turns) s ∧ Below (turned n prequisites) turns

theorem Between.head_lt {q : List Nat} (h : Between n prequisites turns s) (hq : s.q = i :: q) :
    i < n ∧ turns i < turned n prequisites turns i := by
  have hqueue := h.1.queue i
  rw [hq, List.count_cons_self] at hqueue
  have hlt : turns i < queued n prequisites (arrivals prequisites turns) i := by omega
  refine ⟨?_, hlt⟩
  by_contra hi
  rw [queued, if_neg hi] at hlt
  exact absurd hlt (Nat.not_lt_zero _)

theorem Between.round {q : List Nat} (hcourses : Courses n prequisites) (h : Between n prequisites turns s)
    (hq : s.q = i :: q) (hcnt : s.cnt + 1 ≤ intMax)
    (ht : (row prequisites i).foldlM BreadthFirst.decrease { s with q := q, cnt := s.cnt + 1 } = some t) :
    Between n prequisites (Function.update turns i (turns i + 1)) t := by
  obtain ⟨hi, hlt⟩ := h.head_lt hq
  refine ⟨?_, h.2.raise turned_grows hlt⟩
  rw [← along_row]
  refine Loops.foldlM_induction
    (I := fun done => Flow n prequisites (Function.update turns i (turns i + 1)) (along prequisites turns done)) ?_ ?_ ht
  · rw [along_nil]
    exact h.1.turn hq hi hcnt
  · intro done j rest s t hl hflow hs
    have hj : Needed prequisites i j := mem_row.mp (hl ▸ List.mem_append_right _ List.mem_cons_self)
    rw [along_concat]
    exact hflow.decrease (hcourses _ hj).1 (indegree_pos hj) hs

/-- A loop that returns has given each course its least number of turns. -/
theorem Between.whileQueued (hcourses : Courses n prequisites) (hG : ∀ i < n, G[i]? = some (row prequisites i))
    (h : Between n prequisites turns s) (ht : whileQueued G fuel s = some t) :
    ∃ turns', Between n prequisites turns' t ∧ t.q = [] := by
  induction fuel generalizing s turns with
  | zero => cases ht
  | succ fuel ih =>
      rw [BreadthFirst.whileQueued] at ht
      cases hq : s.q with
      | nil =>
          simp only [hq, Option.some_inj] at ht
          exact ⟨turns, ht ▸ h, ht ▸ hq⟩
      | cons i q =>
          simp only [hq] at ht
          obtain ⟨cnt, hcnt, ht⟩ := Option.bind_eq_some_iff.mp ht
          obtain ⟨⟨-, hmax⟩, rfl⟩ := checkedInt_eq_some.mp hcnt
          rw [hG i (h.head_lt hq).1, Option.bind_some] at ht
          obtain ⟨u, hu, ht⟩ := Option.bind_eq_some_iff.mp ht
          exact ih (h.round hcourses hq hmax hu) ht

/-- Where the equations have a solution that fits, every round of the loop returns. -/
theorem Between.round_returns {q : List Nat} (hcourses : Courses n prequisites)
    (hsolves : turned n prequisites turns' = turns')
    (hfits : Fits n prequisites turns') (h : Between n prequisites turns s) (hq : s.q = i :: q) :
    s.cnt + 1 ≤ intMax ∧
      ∃ t, (row prequisites i).foldlM BreadthFirst.decrease { s with q := q, cnt := s.cnt + 1 } = some t := by
  obtain ⟨hi, hlt⟩ := h.head_lt hq
  have hbelow := h.2.raise turned_grows hlt turns' hsolves
  have hcnt : s.cnt + 1 ≤ intMax := by
    have hsum := Finset.sum_le_sum fun v (_ : v ∈ Finset.range n) => hbelow v
    rw [sum_turn hi] at hsum
    have htotal := hfits.total_le
    rw [h.1.cnt]
    omega
  refine ⟨hcnt, ?_⟩
  have hround : ∀ done j rest s, row prequisites i = done ++ j :: rest →
      Flow n prequisites (Function.update turns i (turns i + 1)) (along prequisites turns done) s →
      ∃ t, BreadthFirst.decrease s j = some t ∧
        Flow n prequisites (Function.update turns i (turns i + 1)) (along prequisites turns (done ++ [j])) t := by
    intro done j rest s hl hflow
    have hmem : Needed prequisites i j := mem_row.mp (hl ▸ List.mem_append_right _ List.mem_cons_self)
    have hj : j < n := (hcourses _ hmem).1
    have harrived : along prequisites turns done j + 1 ≤ arrivals prequisites turns' j := by
      have hmono : arrivals prequisites (Function.update turns i (turns i + 1)) j ≤
          arrivals prequisites turns' j := arrivals_mono hbelow j
      rw [arrivals_turn, hl, List.count_append, List.count_cons_self] at hmono
      rw [along]
      omega
    obtain ⟨t, ht⟩ := hflow.decreases hj (hfits.indegree_le j hj) (by have := hfits.arrivals_le j hj; omega)
    rw [along_concat]
    exact ⟨t, ht, hflow.decrease hj (indegree_pos hmem) ht⟩
  obtain ⟨t, ht, -⟩ := Loops.foldlM_spec
    (I := fun done => Flow n prequisites (Function.update turns i (turns i + 1)) (along prequisites turns done))
    (along_nil ▸ h.1.turn hq hi hcnt) hround
  exact ⟨t, ht⟩

theorem Between.whileQueued_returns (hcourses : Courses n prequisites)
    (hG : ∀ i < n, G[i]? = some (row prequisites i)) (hsolves : turned n prequisites turns' = turns')
    (hfits : Fits n prequisites turns') (h : Between n prequisites turns s)
    (hfuel : ∑ v ∈ Finset.range n, turns' v < fuel + ∑ v ∈ Finset.range n, turns v) :
    ∃ t, BreadthFirst.whileQueued G fuel s = some t := by
  induction fuel generalizing s turns with
  | zero =>
      have hsum := Finset.sum_le_sum fun v (_ : v ∈ Finset.range n) => h.2 turns' hsolves v
      omega
  | succ fuel ih =>
      rw [BreadthFirst.whileQueued]
      cases hq : s.q with
      | nil => exact ⟨s, rfl⟩
      | cons i q =>
          obtain ⟨hi, -⟩ := h.head_lt hq
          obtain ⟨hcnt, t, ht⟩ := h.round_returns hcourses hsolves hfits hq
          have hmin : intMin ≤ s.cnt + 1 := by
            rw [h.1.cnt, intMin]
            omega
          simp only
          rw [checkedInt_of_mem hmin hcnt, Option.bind_some, hG i hi, Option.bind_some, ht, Option.bind_some]
          refine ih (h.round hcourses hq hcnt ht) ?_
          rw [sum_turn hi]
          omega

def Counted (n : Nat) (prequisites : List (Nat × Nat)) (indeg : List Int) : Prop :=
  indeg.length = n ∧ ∀ v < n, indeg[v]? = some (indegree prequisites v : Int) ∧ (indegree prequisites v : Int) ≤ intMax

theorem indegree_concat (done : List (Nat × Nat)) (p : Nat × Nat) (v : Nat) :
    indegree (done ++ [p]) v = indegree done v + if p.1 = v then 1 else 0 := by
  simp [indegree, List.countP_append, List.countP_cons]

theorem indegree_le_of_append (done rest : List (Nat × Nat)) (v : Nat) :
    indegree done v ≤ indegree (done ++ rest) v := by
  simp [indegree, List.countP_append]

theorem Counted.nil : Counted n [] (List.replicate n 0) :=
  ⟨List.length_replicate, fun v hv => ⟨by simp [indegree, hv], by simp [indegree, intMax]⟩⟩

theorem Counted.increase {done : List (Nat × Nat)} {indeg indeg' : List Int} {p : Nat × Nat} (h : Counted n done indeg)
    (hp : p.1 < n) (hincrease : increase indeg p = some indeg') : Counted n (done ++ [p]) indeg' := by
  rw [BreadthFirst.increase, (h.2 p.1 hp).1, Option.bind_some] at hincrease
  obtain ⟨d, hd, rfl⟩ := Option.map_eq_some_iff.mp hincrease
  obtain ⟨⟨-, hmax⟩, rfl⟩ := checkedInt_eq_some.mp hd
  refine ⟨by rw [List.length_set, h.1], fun v hv => ?_⟩
  rw [indegree_concat]
  by_cases he : p.1 = v
  · subst he
    rw [List.getElem?_set_self (h.1 ▸ hv), if_pos rfl]
    exact ⟨rfl, hmax⟩
  · rw [List.getElem?_set_ne he, if_neg he, Nat.add_zero]
    exact h.2 v hv

theorem counted_of_some {indeg : List Int} (hcourses : Courses n prequisites)
    (h : prequisites.foldlM increase (List.replicate n 0) = some indeg) : Counted n prequisites indeg := by
  refine Loops.foldlM_induction (I := Counted n) Counted.nil (fun done p rest b c hl hcounted hincrease => ?_) h
  exact hcounted.increase (hcourses p (hl ▸ List.mem_append_right _ List.mem_cons_self)).1 hincrease

theorem counted (hcourses : Courses n prequisites) (hfits : ∀ v < n, (indegree prequisites v : Int) ≤ intMax) :
    ∃ indeg, prequisites.foldlM increase (List.replicate n 0) = some indeg ∧ Counted n prequisites indeg := by
  refine Loops.foldlM_spec (I := Counted n) Counted.nil fun done p rest indeg hl hcounted => ?_
  have hp : p.1 < n := (hcourses p (hl ▸ List.mem_append_right _ List.mem_cons_self)).1
  have hnext : increase indeg p = some (indeg.set p.1 (indegree done p.1 + 1 : Int)) := by
    have hle := indegree_le_of_append (done ++ [p]) rest p.1
    rw [indegree_concat, if_pos rfl, List.append_assoc, List.singleton_append, ← hl] at hle
    have hmax := hfits p.1 hp
    rw [increase, (hcounted.2 p.1 hp).1, Option.bind_some, checkedInt_of_mem (by rw [intMin]; omega) (by omega),
      Option.map_some]
  exact ⟨_, hnext, hcounted.increase hp hnext⟩

theorem pushIndependent_spec {indeg : List Int} (h : Counted n prequisites indeg) :
    ∃ q, (List.range n).foldlM (pushIndependent indeg) [] = some q ∧
      ∀ v, q.count v = if v < n ∧ indegree prequisites v = 0 then 1 else 0 := by
  refine Loops.forRange_spec
    (I := fun i (q : List Nat) => ∀ v, q.count v = if v < i ∧ indegree prequisites v = 0 then 1 else 0) ?_ ?_
  · intro v
    simp
  · intro i hi q hq
    rw [pushIndependent, (h.2 i hi).1, Option.map_some]
    refine ⟨_, rfl, fun v => ?_⟩
    by_cases he : v = i
    · subst he
      by_cases hzero : indegree prequisites v = 0 <;> simp [hzero, hq]
    · have hlt : v < i + 1 ↔ v < i := by omega
      simp only [hlt, ← hq v]
      split_ifs
      · simp [Ne.symm he]
      · rfl

theorem between_start {indeg : List Int} {q : List Nat} (h : Counted n prequisites indeg)
    (hq : ∀ v, q.count v = if v < n ∧ indegree prequisites v = 0 then 1 else 0) :
    Between n prequisites (fun _ => 0) ⟨indeg, q, 0⟩ := by
  refine ⟨⟨h.1, fun v hv => ?_, fun v => ?_, ?_, fun v hv => ?_, ?_⟩, Below.zero⟩
  · rw [arrivals_zero, (h.2 v hv).1]
    simp
  · simp only [queued, arrivals_zero, hq v]
    split_ifs <;> omega
  · simp
  · rw [arrivals_zero, intMin]
    omega
  · simp [intMax]

theorem Between.least (h : Between n prequisites turns s) (hq : s.q = []) : Least (turned n prequisites) turns := by
  refine ⟨?_, h.2⟩
  funext v
  have hqueue := h.1.queue v
  rw [hq, List.count_nil, Nat.zero_add] at hqueue
  exact hqueue.symm

theorem canFinish_of_some {b : Bool} (hcourses : Courses n prequisites) (h : canFinish fuel n prequisites = some b) :
    ∃ turns, Least (turned n prequisites) turns ∧ Fits n prequisites turns ∧
      b = decide (∑ v ∈ Finset.range n, turns v = n) := by
  obtain ⟨G, hG, -, hrow⟩ := adjacency_spec hcourses
  rw [canFinish, hG, Option.bind_some] at h
  obtain ⟨indeg, hindeg, h⟩ := Option.bind_eq_some_iff.mp h
  have hcounted := counted_of_some hcourses hindeg
  obtain ⟨q, hq, hcount⟩ := pushIndependent_spec hcounted
  rw [hq, Option.bind_some] at h
  obtain ⟨t, ht, rfl⟩ := Option.map_eq_some_iff.mp h
  obtain ⟨turns, hbetween, hempty⟩ := (between_start hcounted hcount).whileQueued hcourses hrow ht
  refine ⟨turns, hbetween.least hempty, ⟨fun v hv => (hcounted.2 v hv).2, hbetween.1.arrived_le, ?_⟩, ?_⟩
  · exact hbetween.1.cnt ▸ hbetween.1.cnt_le
  · rw [hbetween.1.cnt]
    exact decide_eq_decide.mpr Int.ofNat_inj

theorem canFinish_returns (hcourses : Courses n prequisites) (hsolves : turned n prequisites turns = turns)
    (hfits : Fits n prequisites turns) (hfuel : ∑ v ∈ Finset.range n, turns v < fuel) :
    ∃ b, canFinish fuel n prequisites = some b := by
  obtain ⟨G, hG, -, hrow⟩ := adjacency_spec hcourses
  obtain ⟨indeg, hindeg, hcounted⟩ := counted hcourses hfits.indegree_le
  obtain ⟨q, hq, hcount⟩ := pushIndependent_spec hcounted
  obtain ⟨t, ht⟩ := (between_start hcounted hcount).whileQueued_returns hcourses hrow hsolves hfits
    (by simpa using hfuel)
  refine ⟨decide (t.cnt = (n : Int)), ?_⟩
  rw [canFinish, hG, Option.bind_some, hindeg, Option.bind_some, hq, Option.bind_some, ht, Option.map_some]

/-- The answer is right exactly if the turns come to an end without an overflow, and there are as
many turns as courses exactly if there is no cycle. -/
theorem decides_acyclic_iff (h : Courses n prequisites) :
    Decides n prequisites ↔
      ∃ turns, Least (turned n prequisites) turns ∧ Fits n prequisites turns ∧
        (¬ Cyclic (Needed prequisites) ∧ ∑ v ∈ Finset.range n, turns v = n ∨
          Cyclic (Needed prequisites) ∧ ∑ v ∈ Finset.range n, turns v ≠ n) := by
  constructor
  · rintro ⟨N, hN⟩
    obtain ⟨b, hb, hdecides⟩ := hN N le_rfl
    obtain ⟨turns, hleast, hfits, rfl⟩ := canFinish_of_some h hb
    refine ⟨turns, hleast, hfits, ?_⟩
    rw [decide_eq_true_eq] at hdecides
    by_cases hcyclic : Cyclic (Needed prequisites)
    · exact .inr ⟨hcyclic, fun hsum => hdecides.mp hsum hcyclic⟩
    · exact .inl ⟨hcyclic, hdecides.mpr hcyclic⟩
  · rintro ⟨turns, hleast, hfits, hsum⟩
    refine ⟨∑ v ∈ Finset.range n, turns v + 1, fun fuel hfuel => ?_⟩
    obtain ⟨b, hb⟩ := canFinish_returns h hleast.solves hfits hfuel
    obtain ⟨turns', hleast', -, rfl⟩ := canFinish_of_some h hb
    cases hleast.unique hleast'
    refine ⟨_, hb, ?_⟩
    rw [decide_eq_true_eq]
    rcases hsum with ⟨hacyclic, hsum⟩ | ⟨hcyclic, hsum⟩
    · exact iff_of_true hsum hacyclic
    · exact iff_of_false hsum (not_not.mpr hcyclic)

theorem decides_acyclic_iff_pair :
    Decides 2 [(1, 0)] ↔
      ∃ turns, Least (turned 2 [(1, 0)]) turns ∧ Fits 2 [(1, 0)] turns ∧
        (¬ Cyclic (Needed [(1, 0)]) ∧ ∑ v ∈ Finset.range 2, turns v = 2 ∨
          Cyclic (Needed [(1, 0)]) ∧ ∑ v ∈ Finset.range 2, turns v ≠ 2) :=
  decides_acyclic_iff (by decide)

/-- The second course is not queued when the only one that it needs is done. -/
theorem pair_not_decided : ¬ ∀ n prequisites, Courses n prequisites → Decides n prequisites := by
  intro h
  obtain ⟨N, hN⟩ := h 2 [(1, 0)] (by decide)
  obtain ⟨b, hb, hdecides⟩ := hN (N + 2) (Nat.le_add_right N 2)
  have hfalse : canFinish (N + 2) 2 [(1, 0)] = some false := rfl
  cases hb.symm.trans hfalse
  have hordered : Ordered (Needed [(1, 0)]) ([] ++ [1] ++ [0]) :=
    (Ordered.nil.concat List.not_mem_nil (by simp [Needed])).concat (by simp) (by simp [Needed])
  refine absurd (hdecides.mpr (hordered.not_cyclic fun v w hE => ?_)) Bool.false_ne_true
  simp only [Needed, List.mem_singleton, Prod.mk.injEq] at hE
  simp [hE.2]

end LearnNote.Algorithm.CourseSchedule.BreadthFirst
