import LearnNote.Algorithm.BackTrack
import LearnNote.Algorithm.CourseOrder

namespace LearnNote.Algorithm.SolverCalls

open Lib Lib.Finishing CourseSchedule

/-- The globals of the solvers, in one process. -/
structure Process where
  course : CourseSchedule.Globals
  search : BackTrack.Globals

def initial : Process := ⟨⟨[], [], false, []⟩, ⟨[], [], []⟩⟩

inductive Call
  | canFinish (n : Nat) (prequisites : List (Nat × Nat))
  | findOrder (n : Nat) (prequisites : List (Nat × Nat))
  | permutate (nums : List Int)
  | subsetWithDup (nums : List Int)

inductive Answer
  | verdict (b : Bool)
  | order (l : List Nat)
  | lists (l : List (List Int))
deriving DecidableEq

def call (p : Process) : Call → Option (Process × Answer)
  | .canFinish n prequisites =>
      (CanFinish.canFinish n prequisites p.course).map fun r => (⟨r.1, p.search⟩, .verdict r.2)
  | .findOrder n prequisites =>
      (FindOrder.findOrder n prequisites p.course).map fun r => (⟨r.1, p.search⟩, .order r.2)
  | .permutate nums => (BackTrack.Permutate.permutate nums p.search).map fun r => (⟨p.course, r.1⟩, .lists r.2)
  | .subsetWithDup nums =>
      (BackTrack.SubsetWithDup.subsetWithDup nums p.search).map fun r => (⟨p.course, r.1⟩, .lists r.2.2)

def calls : Process → List Call → Option (List Answer)
  | _, [] => some []
  | p, c :: l => (call p c).bind fun r => (calls r.1 l).map (r.2 :: ·)

def first (c : Call) : Option Answer := (call initial c).map Prod.snd

/-- Every call of the sequence answers as it would if it were made first. -/
def Independent (l : List Call) : Prop :=
  ∃ answers, calls initial l = some answers ∧ List.Forall₂ (fun c a => first c = some a) l answers

/-- The pairs are of the courses of the call. -/
def WellFormed : Call → Prop
  | .canFinish n prequisites | .findOrder n prequisites => Courses n prequisites
  | .permutate _ | .subsetWithDup _ => True

def HasCycle : Call → Prop
  | .canFinish _ prequisites | .findOrder _ prequisites => Cyclic (Needed prequisites)
  | .permutate _ | .subsetWithDup _ => False

def Orders : Call → Prop
  | .findOrder n _ => 0 < n
  | .canFinish _ _ | .permutate _ | .subsetWithDup _ => False

def Searches : Call → Prop
  | .permutate _ | .subsetWithDup _ => True
  | .canFinish _ _ | .findOrder _ _ => False

def Unaffected (before : List Call) : Call → Prop
  | .canFinish _ prequisites => Cyclic (Needed prequisites) ∨ ∀ c ∈ before, ¬ HasCycle c
  | .findOrder n prequisites => Cyclic (Needed prequisites) ∨ ((∃ c ∈ before, HasCycle c) ∧ n = 0) ∨
      ∀ c ∈ before, ¬ HasCycle c ∧ ¬ Orders c
  | .permutate _ | .subsetWithDup _ => ∀ c ∈ before, ¬ Searches c

/-- What the calls before have left in the globals. -/
structure Left (before : List Call) (p : Process) : Prop where
  hasCycle : p.course.hasCycle = true ↔ ∃ c ∈ before, HasCycle c
  postorder : p.course.hasCycle = false → (p.course.postorder = [] ↔ ∀ c ∈ before, ¬ Orders c)
  res : p.search.res = [] ↔ ∀ c ∈ before, ¬ Searches c
  track : p.search.track = []

variable {before : List Call} {p : Process} {c : Call} {n : Nat} {prequisites : List (Nat × Nat)} {nums : List Int}

theorem left_initial : Left [] initial :=
  ⟨by simp [initial], by simp [initial], by simp [initial], rfl⟩

def added : Call → List (List Int)
  | .permutate nums =>
      (Arrangements.arrangements nums.length (List.range nums.length)).map (BackTrack.Permutate.pick nums)
  | .subsetWithDup nums => SortedChoices.choices (nums.insertionSort (· ≤ ·))
  | .canFinish _ _ | .findOrder _ _ => []

theorem added_ne_nil (hc : Searches c) : added c ≠ [] := by
  cases c with
  | canFinish | findOrder => exact absurd hc id
  | permutate nums =>
      intro h
      exact Arrangements.arrangements_ne_nil List.length_range (List.map_eq_nil_iff.mp h)
  | subsetWithDup nums => exact List.cons_ne_nil _ _

theorem call_search (hc : Searches c) (htrack : p.search.track = []) :
    ∃ g, call p c = some (⟨p.course, g⟩, .lists (p.search.res ++ added c)) ∧
      g.res = p.search.res ++ added c ∧ g.track = [] := by
  cases c with
  | canFinish | findOrder => exact absurd hc id
  | permutate nums =>
      rw [call, BackTrack.Permutate.permutate_eq nums htrack]
      exact ⟨_, rfl, rfl, htrack⟩
  | subsetWithDup nums =>
      rw [call, BackTrack.SubsetWithDup.subsetWithDup_eq nums htrack]
      exact ⟨_, rfl, rfl, htrack⟩

theorem first_search (hc : Searches c) : first c = some (.lists (added c)) := by
  obtain ⟨g, hg, -⟩ := call_search (p := initial) hc rfl
  rw [first, hg]
  rfl

theorem unaffected_search (hc : Searches c) : Unaffected before c ↔ ∀ c ∈ before, ¬ Searches c := by
  cases c with
  | canFinish | findOrder => exact absurd hc id
  | permutate | subsetWithDup => exact Iff.rfl

theorem Left.search (h : Left before p) (hc : Searches c) :
    ∃ p' a, call p c = some (p', a) ∧ Left (before ++ [c]) p' ∧ (first c = some a ↔ Unaffected before c) := by
  obtain ⟨g, hg, hres, htrack⟩ := call_search hc h.track
  have hcycle : ¬ HasCycle c := by cases c <;> first | exact absurd hc id | exact id
  have horders : ¬ Orders c := by cases c <;> first | exact absurd hc id | exact id
  refine ⟨_, _, hg, ⟨?_, fun hp => ?_, ?_, htrack⟩, ?_⟩
  · simpa [or_and_right, exists_or, hcycle] using h.hasCycle
  · rw [h.postorder hp]
    simp [or_imp, forall_and, horders]
  · exact iff_of_false (by simp [hres, added_ne_nil hc]) fun hall => hall c (by simp) hc
  · rw [first_search hc, unaffected_search hc, ← h.res, Option.some_inj, Answer.lists.injEq]
    exact ⟨fun he => by simpa using he, fun he => by rw [he, List.nil_append]⟩

theorem Left.course (h : Left before p) (hc : ¬ Searches c) {g : CourseSchedule.Globals}
    (hcycle : g.hasCycle = true ↔ p.course.hasCycle = true ∨ HasCycle c)
    (hpostorder : g.hasCycle = false → (g.postorder = [] ↔ p.course.postorder = [] ∧ ¬ Orders c)) :
    Left (before ++ [c]) ⟨g, p.search⟩ where
  hasCycle := by
    rw [hcycle, h.hasCycle]
    simp [or_and_right, exists_or]
  postorder hg := by
    have hp : p.course.hasCycle = false := by
      by_contra hp
      simp [hcycle.mpr (.inl (by simpa using hp))] at hg
    rw [hpostorder hg, h.postorder hp]
    simp [or_imp, forall_and]
  res := by
    rw [h.res]
    simp [or_imp, forall_and, hc]
  track := h.track

theorem Left.no_cycle (h : Left before p) (hp : p.course.hasCycle = false) : ∀ c ∈ before, ¬ HasCycle c := by
  intro c hc hcycle
  simp [h.hasCycle.mpr ⟨c, hc, hcycle⟩] at hp

theorem Left.canFinish (h : Left before p) (hcourses : Courses n prequisites) :
    ∃ p' a, call p (.canFinish n prequisites) = some (p', a) ∧ Left (before ++ [.canFinish n prequisites]) p' ∧
      (first (.canFinish n prequisites) = some a ↔ Unaffected before (.canFinish n prequisites)) := by
  obtain ⟨G, s, hs⟩ := searched hcourses
  have hfirst : first (.canFinish n prequisites) = some (.verdict (!s.hasCycle)) := by
    rw [first, call, hs.canFinish (g := initial.course) rfl]
    rfl
  cases hp : p.course.hasCycle with
  | true =>
      refine ⟨_, _, by rw [call, hs.canFinish_of_left hp, Option.map_some], h.course id ?_ ?_, ?_⟩
      · exact iff_of_true hp (.inl hp)
      · exact fun hg => absurd (hp.symm.trans hg) (by simp)
      · obtain ⟨c, hc, hcycle⟩ := h.hasCycle.mp hp
        have hleft : ¬ ∀ c ∈ before, ¬ HasCycle c := fun hall => hall c hc hcycle
        rw [hfirst, Unaffected, or_iff_left hleft, ← hs.hasCycle]
        simp
  | false =>
      refine ⟨_, _, by rw [call, hs.canFinish hp, Option.map_some], h.course id ?_ ?_, ?_⟩
      · exact hs.hasCycle.trans (by simp [hp, HasCycle])
      · exact fun _ => (and_iff_left id).symm
      · exact iff_of_true hfirst (.inr (h.no_cycle hp))

theorem postorder_eq_nil {G : List (List Nat)} {s : CourseSchedule.Globals} (hs : Searched n prequisites G s)
    (hcycle : s.hasCycle = false) : s.postorder = [] ↔ n = 0 := by
  rw [List.eq_nil_iff_forall_not_mem]
  simp only [hs.mem_postorder hcycle, not_lt]
  exact ⟨fun hall => Nat.le_zero.mp (hall 0), fun hn i => hn ▸ Nat.zero_le i⟩

theorem first_findOrder {G : List (List Nat)} {s : CourseSchedule.Globals} (hs : Searched n prequisites G s) :
    first (.findOrder n prequisites) = some (.order (if s.hasCycle then [] else s.postorder.reverse)) := by
  rw [first, call]
  cases hcycle : s.hasCycle with
  | true =>
      rw [hs.findOrder_of_hasCycle (g := initial.course) rfl hcycle]
      rfl
  | false =>
      rw [hs.findOrder_of_ordered (g := initial.course) rfl hcycle]
      rfl

theorem unaffected_after_cycle {G : List (List Nat)} {s : CourseSchedule.Globals} (hs : Searched n prequisites G s)
    (hfound : ∃ c ∈ before, HasCycle c) :
    first (.findOrder n prequisites) = some (.order []) ↔ Unaffected before (.findOrder n prequisites) := by
  have hleft : ¬ ∀ c ∈ before, ¬ HasCycle c ∧ ¬ Orders c := by
    obtain ⟨c, hc, hcycle⟩ := hfound
    exact fun hall => (hall c hc).1 hcycle
  rw [first_findOrder hs, Unaffected, ← hs.hasCycle, or_iff_left hleft, and_iff_right hfound]
  cases hcycle : s.hasCycle with
  | true => simp
  | false => simp [← postorder_eq_nil hs hcycle]

/-- As long as there is no cycle, what was ordered before is in front. -/
theorem unaffected_after_orders {G : List (List Nat)} {s : CourseSchedule.Globals} (hs : Searched n prequisites G s)
    (hcycle : s.hasCycle = false) (hnone : ∀ c ∈ before, ¬ HasCycle c) {l : List Nat}
    (hl : l = [] ↔ ∀ c ∈ before, ¬ Orders c) :
    first (.findOrder n prequisites) = some (.order (l ++ s.postorder).reverse) ↔
      Unaffected before (.findOrder n prequisites) := by
  have hacyclic : ¬ Cyclic (Needed prequisites) := by simp [← hs.hasCycle, hcycle]
  have hfound : ¬ ((∃ c ∈ before, HasCycle c) ∧ n = 0) := fun ⟨⟨c, hc, hc'⟩, _⟩ => hnone c hc hc'
  have hall : (∀ c ∈ before, ¬ HasCycle c ∧ ¬ Orders c) ↔ l = [] := by
    rw [hl]
    exact forall₂_congr fun c hc => and_iff_right (hnone c hc)
  rw [first_findOrder hs, hcycle, Unaffected, or_iff_right hacyclic, or_iff_right hfound, hall]
  simp

theorem Left.findOrder (h : Left before p) (hcourses : Courses n prequisites) :
    ∃ p' a, call p (.findOrder n prequisites) = some (p', a) ∧ Left (before ++ [.findOrder n prequisites]) p' ∧
      (first (.findOrder n prequisites) = some a ↔ Unaffected before (.findOrder n prequisites)) := by
  obtain ⟨G, s, hs⟩ := searched hcourses
  cases hp : p.course.hasCycle with
  | true =>
      refine ⟨_, _, by rw [call, hs.findOrder_of_left hp, Option.map_some], h.course id ?_ ?_,
        unaffected_after_cycle hs (h.hasCycle.mp hp)⟩
      · exact iff_of_true hp (.inl hp)
      · exact fun hg => absurd (hp.symm.trans hg) (by simp)
  | false =>
      cases hcycle : s.hasCycle with
      | true =>
          have hcyclic := hs.hasCycle.mp hcycle
          refine ⟨_, _, by rw [call, hs.findOrder_of_hasCycle hp hcycle, Option.map_some], h.course id ?_ ?_, ?_⟩
          · exact iff_of_true hcycle (.inr hcyclic)
          · exact fun hg => absurd (hcycle.symm.trans hg) (by simp)
          · rw [first_findOrder hs, hcycle]
            exact iff_of_true rfl (.inl hcyclic)
      | false =>
          refine ⟨_, _, by rw [call, hs.findOrder_of_ordered hp hcycle, Option.map_some], h.course id ?_ ?_,
            unaffected_after_orders hs hcycle (h.no_cycle hp) (h.postorder hp)⟩
          · have hacyclic : ¬ Cyclic (Needed prequisites) := by simp [← hs.hasCycle, hcycle]
            exact iff_of_false (by simp [hcycle]) (by simp [hp, HasCycle, hacyclic])
          · intro _
            simp only [List.reverse_eq_nil_iff, List.append_eq_nil_iff, postorder_eq_nil hs hcycle, Orders,
              Nat.pos_iff_ne_zero, not_not]

/-- Every call returns, and leaves the globals as its own history says. -/
theorem Left.call (h : Left before p) (hc : WellFormed c) :
    ∃ p' a, call p c = some (p', a) ∧ Left (before ++ [c]) p' ∧ (first c = some a ↔ Unaffected before c) := by
  cases c with
  | canFinish n prequisites => exact h.canFinish hc
  | findOrder n prequisites => exact h.findOrder hc
  | permutate nums => exact h.search trivial
  | subsetWithDup nums => exact h.search trivial

theorem Left.calls {l : List Call} (h : Left before p) (hl : ∀ c ∈ l, WellFormed c) :
    (∃ answers, calls p l = some answers ∧ List.Forall₂ (fun c a => first c = some a) l answers) ↔
      ∀ between c after, l = between ++ c :: after → Unaffected (before ++ between) c := by
  induction l generalizing before p with
  | nil =>
      refine iff_of_true ⟨[], rfl, .nil⟩ fun between c after he => ?_
      exact absurd he.symm (List.append_ne_nil_of_right_ne_nil _ (List.cons_ne_nil _ _))
  | cons c l ih =>
      obtain ⟨p', a, hcall, hleft, hfirst⟩ := h.call (hl c List.mem_cons_self)
      have hrest := ih hleft fun d hd => hl d (List.mem_cons_of_mem _ hd)
      rw [SolverCalls.calls, hcall, Option.bind_some]
      constructor
      · rintro ⟨answers, hanswers, hall⟩ between d after he
        obtain ⟨rest, hrest', rfl⟩ := Option.map_eq_some_iff.mp hanswers
        obtain ⟨ha, hall⟩ := List.forall₂_cons.mp hall
        cases between with
        | nil =>
            obtain ⟨rfl, -⟩ := List.cons.inj he
            rw [List.append_nil]
            exact hfirst.mp ha
        | cons e between =>
            obtain ⟨rfl, htail⟩ := List.cons.inj he
            have hd := hrest.mp ⟨rest, hrest', hall⟩ between d after htail
            rwa [List.append_assoc, List.singleton_append] at hd
      · intro hall
        have ha := hfirst.mpr (by simpa using hall [] c l rfl)
        obtain ⟨rest, hrest', hforall⟩ := hrest.mpr fun between d after he => by
          rw [List.append_assoc, List.singleton_append]
          exact hall (c :: between) d after (by rw [he, List.cons_append])
        exact ⟨a :: rest, by rw [hrest', Option.map_some], .cons ha hforall⟩

theorem independent_iff {l : List Call} (hl : ∀ c ∈ l, WellFormed c) :
    Independent l ↔ ∀ before c after, l = before ++ c :: after → Unaffected before c :=
  left_initial.calls hl

theorem independent_iff_orders :
    Independent [.findOrder 1 [], .permutate [1], .findOrder 1 []] ↔
      ∀ before c after, [.findOrder 1 [], .permutate [1], .findOrder 1 []] = before ++ c :: after →
        Unaffected before c := by
  refine independent_iff fun c hc => ?_
  simp only [List.mem_cons, List.not_mem_nil, or_false] at hc
  rcases hc with rfl | rfl | rfl
  · exact fun p hp => absurd hp List.not_mem_nil
  · trivial
  · exact fun p hp => absurd hp List.not_mem_nil

theorem cycle_remembered : ¬ ∀ l : List Call, (∀ c ∈ l, WellFormed c) → Independent l := by
  intro h
  obtain ⟨answers, hanswers, hall⟩ := h [.canFinish 1 [(0, 0)], .canFinish 1 []] fun c hc => by
    simp only [List.mem_cons, List.not_mem_nil, or_false] at hc
    rcases hc with rfl | rfl
    · exact fun p hp => by simp [List.mem_singleton.mp hp]
    · exact fun p hp => absurd hp List.not_mem_nil
  have hcomputed : calls initial [.canFinish 1 [(0, 0)], .canFinish 1 []] = some [.verdict false, .verdict false] := rfl
  cases hanswers.symm.trans hcomputed
  have hfirst : first (.canFinish 1 []) = some (.verdict true) := rfl
  obtain ⟨-, hall⟩ := List.forall₂_cons.mp hall
  exact absurd (hfirst.symm.trans (List.forall₂_cons.mp hall).1) (by simp)

end LearnNote.Algorithm.SolverCalls
