import Mathlib.Data.List.Nodup
import LearnNote.Lib.Finishing
import LearnNote.Lib.Loops

namespace LearnNote.Algorithm.CourseSchedule

open Lib Lib.Finishing

/-- What outlives a call of the two solvers that search depth-first. -/
structure Globals where
  onPath : List Bool
  visited : List Bool
  hasCycle : Bool
  postorder : List Nat

/-- Of a pair, 0 is the course to take and 1 the one to take from. No result, here and below, is an
access outside a vector, or a recursion deeper than the fuel. -/
def pushBack (G : List (List Nat)) (prequisite : Nat × Nat) : Option (List (List Nat)) :=
  G[prequisite.2]?.map fun row => G.set prequisite.2 (row ++ [prequisite.1])

def adjacency (n : Nat) (prequisites : List (Nat × Nat)) : Option (List (List Nat)) :=
  prequisites.foldlM pushBack (List.replicate n [])

namespace CanFinish

def traverse (G : List (List Nat)) : Nat → Globals → Nat → Option Globals
  | 0, _, _ => none
  | fuel + 1, g, i =>
      if g.hasCycle then some g
      else g.onPath[i]?.bind fun onPath =>
        if onPath then some { g with hasCycle := true }
        else g.visited[i]?.bind fun visited =>
          if visited then some g
          else G[i]?.bind fun row =>
            (row.foldlM (traverse G fuel)
              { g with visited := g.visited.set i true, onPath := g.onPath.set i true }).map
                fun g => { g with onPath := g.onPath.set i false }

/-- Every call that goes on marks a vertex, so the recursion is never deeper than n + 1. -/
def canFinish (n : Nat) (prequisites : List (Nat × Nat)) (g : Globals) : Option (Globals × Bool) :=
  (adjacency n prequisites).bind fun G =>
    ((List.range n).foldlM (traverse G (n + 1))
      { g with onPath := List.replicate n false, visited := List.replicate n false }).map
        fun g => (g, !g.hasCycle)

end CanFinish

namespace FindOrder

def traverse (G : List (List Nat)) : Nat → Globals → Nat → Option Globals
  | 0, _, _ => none
  | fuel + 1, g, i =>
      g.onPath[i]?.bind fun onPath =>
        let g := if onPath then { g with hasCycle := true } else g
        g.visited[i]?.bind fun visited =>
          if visited || g.hasCycle then some g
          else G[i]?.bind fun row =>
            (row.foldlM (traverse G fuel)
              { g with visited := g.visited.set i true, onPath := g.onPath.set i true }).map
                fun g => { g with postorder := g.postorder ++ [i], onPath := g.onPath.set i false }

def findOrder (n : Nat) (prequisites : List (Nat × Nat)) (g : Globals) : Option (Globals × List Nat) :=
  (adjacency n prequisites).bind fun G =>
    ((List.range n).foldlM (traverse G (n + 1))
      { g with onPath := List.replicate n false, visited := List.replicate n false }).map
        fun g => if g.hasCycle then (g, []) else ({ g with postorder := g.postorder.reverse }, g.postorder.reverse)

end FindOrder

variable {n i j : Nat} {prequisites : List (Nat × Nat)}

def Needed (prequisites : List (Nat × Nat)) (i j : Nat) : Prop := (j, i) ∈ prequisites

/-- The pairs are of the courses 0, …, n - 1. -/
def Courses (n : Nat) (prequisites : List (Nat × Nat)) : Prop := ∀ p ∈ prequisites, p.1 < n ∧ p.2 < n

instance : Decidable (Needed prequisites i j) := inferInstanceAs (Decidable (_ ∈ _))

instance : Decidable (Courses n prequisites) := inferInstanceAs (Decidable (∀ p ∈ prequisites, _))

def row (prequisites : List (Nat × Nat)) (i : Nat) : List Nat :=
  (prequisites.filter fun p => p.2 = i).map Prod.fst

theorem mem_row : j ∈ row prequisites i ↔ Needed prequisites i j := by
  simp [row, Needed]

theorem row_append (p : Nat × Nat) (i : Nat) :
    row (prequisites ++ [p]) i = row prequisites i ++ if p.2 = i then [p.1] else [] := by
  by_cases h : p.2 = i <;> simp [row, h]

theorem adjacency_spec (h : Courses n prequisites) :
    ∃ G, adjacency n prequisites = some G ∧ G.length = n ∧ ∀ i < n, G[i]? = some (row prequisites i) := by
  refine Loops.foldlM_spec
    (I := fun done (G : List (List Nat)) => G.length = n ∧ ∀ i < n, G[i]? = some (row done i)) ?_ ?_
  · exact ⟨List.length_replicate, fun i hi => by simp [row, hi]⟩
  · rintro done p rest G hl ⟨hlength, hrow⟩
    have hp := h p (hl ▸ List.mem_append_right _ List.mem_cons_self)
    refine ⟨_, by rw [pushBack, hrow p.2 hp.2, Option.map_some], by rw [List.length_set, hlength], ?_⟩
    intro i hi
    rw [row_append]
    by_cases he : p.2 = i
    · subst he
      rw [List.getElem?_set_self (by omega), if_pos rfl]
    · rw [List.getElem?_set_ne he, hrow i hi, if_neg he, List.append_nil]

end LearnNote.Algorithm.CourseSchedule
