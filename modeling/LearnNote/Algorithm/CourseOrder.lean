import LearnNote.Algorithm.DepthFirst

namespace LearnNote.Algorithm.CourseSchedule

open Lib Lib.Finishing Relation

variable {n i j fuel : Nat} {prequisites : List (Nat × Nat)} {g g' s : Globals} {G : List (List Nat)}

def start (n : Nat) : Globals := ⟨List.replicate n false, List.replicate n false, false, []⟩

theorem start_explored {E : Nat → Nat → Prop} : Explored E n (start n) where
  onPath_length := List.length_replicate
  visited_length := List.length_replicate
  onPath_visited i hi := by simp [start, List.getElem?_replicate] at hi
  mem_postorder i := by simp [start, List.getElem?_replicate]
  ordered := .nil

theorem lists (h : Courses n prequisites) (hrow : ∀ i < n, G[i]? = some (row prequisites i)) :
    Lists (Needed prequisites) n G where
  row i hi := ⟨row prequisites i, hrow i hi, fun _ => mem_row⟩
  lt hE := (h _ hE).1

/-- The whole search from a state in which nothing is found, as the two solvers share it. -/
structure Searched (n : Nat) (prequisites : List (Nat × Nat)) (G : List (List Nat)) (s : Globals) : Prop where
  adjacency : adjacency n prequisites = some G
  run : (List.range n).foldlM (FindOrder.traverse G (n + 1)) (start n) = some s
  hasCycle : s.hasCycle = true ↔ Cyclic (Needed prequisites)
  ordered : s.hasCycle = false → Ordered (Needed prequisites) s.postorder
  mem_postorder : s.hasCycle = false → ∀ i, i ∈ s.postorder ↔ i < n

theorem searched (h : Courses n prequisites) : ∃ G s, Searched n prequisites G s := by
  obtain ⟨G, hadjacency, -, hrow⟩ := adjacency_spec h
  have hG := lists h hrow
  have hcount : (start n).visited.count false < n + 1 := by simp [start]
  obtain ⟨s, hs, hend⟩ := FindOrder.foldlM_traverse (FindOrder.traverse_spec hG (n + 1)) (l := List.range n)
    start_explored rfl (fun j hj => List.mem_range.mp hj) hcount
    fun v hv => by simp [start, List.getElem?_replicate] at hv
  refine ⟨G, s, hadjacency, hs, ?_, ?_, ?_⟩
  · rcases hend with hfound | ⟨hreturned, hall⟩
    · exact iff_of_true hfound.hasCycle hfound.cyclic
    · refine iff_of_false (by simp [hreturned.hasCycle]) (hreturned.explored.ordered.not_cyclic ?_)
      exact fun v w hE => hall v (List.mem_range.mpr (h _ hE).2)
  · intro hcycle
    rcases hend with hfound | ⟨hreturned, -⟩
    · simp [hfound.hasCycle] at hcycle
    · exact hreturned.explored.ordered
  · intro hcycle i
    rcases hend with hfound | ⟨hreturned, hall⟩
    · simp [hfound.hasCycle] at hcycle
    · refine ⟨fun hi => ?_, fun hi => hall i (List.mem_range.mpr hi)⟩
      obtain ⟨hlt, -⟩ := List.getElem?_eq_some_iff.mp ((hreturned.explored.mem_postorder i).mp hi).1
      exact hreturned.explored.visited_length ▸ hlt

theorem FindOrder.traverse_cases (h : FindOrder.traverse G (fuel + 1) g i = some g') :
    ∃ onPath visited, g.onPath[i]? = some onPath ∧ g.visited[i]? = some visited ∧
      (g.hasCycle = true ∧ g' = g ∨ g.hasCycle = false ∧ onPath = true ∧ g' = { g with hasCycle := true } ∨
        g.hasCycle = false ∧ onPath = false ∧ visited = true ∧ g' = g ∨
        g.hasCycle = false ∧ onPath = false ∧ visited = false ∧ ∃ row s, G[i]? = some row ∧
          row.foldlM (FindOrder.traverse G fuel)
            { g with visited := g.visited.set i true, onPath := g.onPath.set i true } = some s ∧
          g' = { s with postorder := s.postorder ++ [i], onPath := s.onPath.set i false }) := by
  rw [FindOrder.traverse] at h
  obtain ⟨onPath, honPath, h⟩ := Option.bind_eq_some_iff.mp h
  obtain ⟨visited, hvisited, h⟩ := Option.bind_eq_some_iff.mp h
  have hsame : (if onPath then { g with hasCycle := true } else g).visited = g.visited := by split <;> rfl
  refine ⟨onPath, visited, honPath, hsame ▸ hvisited, ?_⟩
  cases g with
  | mk onPaths visiteds hasCycle postorder =>
      cases hasCycle with
      | true => exact .inl ⟨rfl, by cases onPath <;> simpa using h.symm⟩
      | false =>
          cases onPath with
          | true => exact .inr (.inl ⟨rfl, rfl, by simpa using h.symm⟩)
          | false =>
              cases visited with
              | true => exact .inr (.inr (.inl ⟨rfl, rfl, rfl, by simpa using h.symm⟩))
              | false =>
                  simp only [Bool.false_eq_true, if_false, Bool.or_self] at h
                  obtain ⟨row, hrow, h⟩ := Option.bind_eq_some_iff.mp h
                  obtain ⟨s, hs, rfl⟩ := Option.map_eq_some_iff.mp h
                  exact .inr (.inr (.inr ⟨rfl, rfl, rfl, row, s, hrow, hs, rfl⟩))

/-- The search of canFinish is that of findOrder without the order. -/
theorem CanFinish.traverse_eq (p : List Nat) (h : FindOrder.traverse G fuel g i = some g') :
    CanFinish.traverse G fuel { g with postorder := p } i = some { g' with postorder := p } := by
  induction fuel generalizing g g' i with
  | zero => cases h
  | succ fuel ih =>
      obtain ⟨onPath, visited, honPath, hvisited, hcases⟩ := FindOrder.traverse_cases h
      rcases hcases with ⟨hcycle, rfl⟩ | ⟨hcycle, rfl, rfl⟩ | ⟨hcycle, rfl, rfl, rfl⟩ |
        ⟨hcycle, rfl, rfl, row, s, hrow, hs, rfl⟩
      · simp [CanFinish.traverse, hcycle]
      · simp [CanFinish.traverse, hcycle, honPath]
      · simp [CanFinish.traverse, hcycle, honPath, hvisited]
      · have hloop := Loops.foldlM_simulates (fun g : Globals => { g with postorder := p })
          (fun j _ g g' h => ih h) hs
        simp only at hloop
        rw [CanFinish.traverse, if_neg (by simp [hcycle]), honPath, Option.bind_some, if_neg Bool.false_ne_true,
          hvisited, Option.bind_some, if_neg Bool.false_ne_true, hrow, Option.bind_some, hloop, Option.map_some]

theorem FindOrder.traverse_eq (p : List Nat) (h : FindOrder.traverse G fuel g i = some g') :
    FindOrder.traverse G fuel { g with postorder := p ++ g.postorder } i =
      some { g' with postorder := p ++ g'.postorder } := by
  induction fuel generalizing g g' i with
  | zero => cases h
  | succ fuel ih =>
      obtain ⟨onPath, visited, honPath, hvisited, hcases⟩ := FindOrder.traverse_cases h
      rcases hcases with ⟨hcycle, rfl⟩ | ⟨hcycle, rfl, rfl⟩ | ⟨hcycle, rfl, rfl, rfl⟩ |
        ⟨hcycle, rfl, rfl, row, s, hrow, hs, rfl⟩
      · cases onPath <;> simp [FindOrder.traverse, hcycle, honPath, hvisited]
      · simp [FindOrder.traverse, honPath, hvisited]
      · simp [FindOrder.traverse, honPath, hvisited]
      · have hloop := Loops.foldlM_simulates (fun g : Globals => { g with postorder := p ++ g.postorder })
          (fun j _ g g' h => ih h) hs
        simp only at hloop
        rw [FindOrder.traverse_enter (g := { g with postorder := p ++ g.postorder }) hcycle honPath hvisited hrow, hloop,
          Option.map_some]
        simp only [List.append_assoc]

theorem Searched.canFinish (h : Searched n prequisites G s) (hg : g.hasCycle = false) :
    CanFinish.canFinish n prequisites g = some ({ s with postorder := g.postorder }, !s.hasCycle) := by
  have hloop := Loops.foldlM_simulates (fun s : Globals => { s with postorder := g.postorder })
    (fun j _ s s' h => CanFinish.traverse_eq g.postorder h) h.run
  rw [CanFinish.canFinish, h.adjacency, Option.bind_some, hg]
  exact (congrArg (Option.map _) hloop).trans (Option.map_some _ _)

theorem Searched.findOrder (h : Searched n prequisites G s) (hg : g.hasCycle = false) :
    FindOrder.findOrder n prequisites g =
      some (if s.hasCycle then ({ s with postorder := g.postorder ++ s.postorder }, [])
        else ({ s with postorder := (g.postorder ++ s.postorder).reverse }, (g.postorder ++ s.postorder).reverse)) := by
  have hloop := Loops.foldlM_simulates (fun s : Globals => { s with postorder := g.postorder ++ s.postorder })
    (fun j _ s s' h => FindOrder.traverse_eq g.postorder h) h.run
  simp only [start, List.append_nil] at hloop
  rw [FindOrder.findOrder, h.adjacency, Option.bind_some, hg]
  exact (congrArg (Option.map _) hloop).trans (Option.map_some _ _)

theorem Searched.findOrder_of_hasCycle (h : Searched n prequisites G s) (hg : g.hasCycle = false)
    (hcycle : s.hasCycle = true) :
    FindOrder.findOrder n prequisites g = some ({ s with postorder := g.postorder ++ s.postorder }, []) := by
  rw [h.findOrder hg, if_pos hcycle]

theorem Searched.findOrder_of_ordered (h : Searched n prequisites G s) (hg : g.hasCycle = false)
    (hcycle : s.hasCycle = false) :
    FindOrder.findOrder n prequisites g =
      some ({ s with postorder := (g.postorder ++ s.postorder).reverse }, (g.postorder ++ s.postorder).reverse) := by
  rw [h.findOrder hg, if_neg (by simp [hcycle])]

theorem Searched.canFinish_of_left (h : Searched n prequisites G s) (hg : g.hasCycle = true) :
    CanFinish.canFinish n prequisites g =
      some ({ g with onPath := List.replicate n false, visited := List.replicate n false }, false) := by
  have hround : ∀ i ∈ List.range n, CanFinish.traverse G (n + 1)
      { g with onPath := List.replicate n false, visited := List.replicate n false } i =
        some { g with onPath := List.replicate n false, visited := List.replicate n false } := by
    intro i _
    rw [CanFinish.traverse, if_pos hg]
  rw [CanFinish.canFinish, h.adjacency, Option.bind_some, Loops.foldlM_fixed hround, Option.map_some, hg]
  rfl

theorem Searched.findOrder_of_left (h : Searched n prequisites G s) (hg : g.hasCycle = true) :
    FindOrder.findOrder n prequisites g =
      some ({ g with onPath := List.replicate n false, visited := List.replicate n false }, []) := by
  have hround : ∀ i ∈ List.range n, FindOrder.traverse G (n + 1)
      { g with onPath := List.replicate n false, visited := List.replicate n false } i =
        some { g with onPath := List.replicate n false, visited := List.replicate n false } := by
    intro i hi
    exact FindOrder.traverse_of_hasCycle hg (by simpa using hi) (by simpa using hi)
  rw [FindOrder.findOrder, h.adjacency, Option.bind_some, Loops.foldlM_fixed hround, Option.map_some, if_pos hg]

/-- For every list of pairs of the courses 0, …, n - 1. -/
theorem canFinish_iff (h : Courses n prequisites) (hg : g.hasCycle = false) :
    ∃ g' b, CanFinish.canFinish n prequisites g = some (g', b) ∧ (b = true ↔ ¬ Cyclic (Needed prequisites)) := by
  obtain ⟨G, s, hs⟩ := searched h
  refine ⟨_, _, hs.canFinish hg, ?_⟩
  rw [← hs.hasCycle, Bool.not_eq_true']
  exact (Bool.not_eq_true _).symm.to_iff

theorem canFinish_iff_loop : ∃ g' b, CanFinish.canFinish 2 [(1, 0), (1, 0), (0, 0)] (start 0) = some (g', b) ∧
    (b = true ↔ ¬ Cyclic (Needed [(1, 0), (1, 0), (0, 0)])) :=
  canFinish_iff (by decide) rfl

theorem findOrder_spec (h : Courses n prequisites) (hg : g.hasCycle = false) (hempty : g.postorder = []) :
    ∃ g' order, FindOrder.findOrder n prequisites g = some (g', order) ∧
      (¬ Cyclic (Needed prequisites) → order.Perm (List.range n) ∧
        ∀ i j, Needed prequisites i j → order.idxOf i < order.idxOf j) ∧
      (Cyclic (Needed prequisites) → order = []) := by
  obtain ⟨G, s, hs⟩ := searched h
  cases hcycle : s.hasCycle with
  | true =>
      exact ⟨_, _, hs.findOrder_of_hasCycle hg hcycle, fun hacyclic => absurd (hs.hasCycle.mp hcycle) hacyclic,
        fun _ => rfl⟩
  | false =>
      have hacyclic : ¬ Cyclic (Needed prequisites) := by simp [← hs.hasCycle, hcycle]
      have hordered := hs.ordered hcycle
      have hmem := hs.mem_postorder hcycle
      refine ⟨_, _, hs.findOrder_of_ordered hg hcycle, fun _ => ?_, fun hcyclic => absurd hcyclic hacyclic⟩
      rw [hempty, List.nil_append]
      refine ⟨?_, fun i j hE => hordered.idxOf_reverse_lt ((hmem i).mpr (h _ hE).2) hE⟩
      refine (List.perm_ext_iff_of_nodup (List.nodup_reverse.mpr hordered.nodup) List.nodup_range).mpr fun i => ?_
      rw [List.mem_reverse, hmem, List.mem_range]

theorem findOrder_spec_pair :
    ∃ g' order, FindOrder.findOrder 2 [(1, 0)] (start 0) = some (g', order) ∧
      (¬ Cyclic (Needed [(1, 0)]) → order.Perm (List.range 2) ∧
        ∀ i j, Needed [(1, 0)] i j → order.idxOf i < order.idxOf j) ∧
      (Cyclic (Needed [(1, 0)]) → order = []) :=
  findOrder_spec (by decide) rfl rfl

end LearnNote.Algorithm.CourseSchedule
