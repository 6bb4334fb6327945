import LearnNote.Algorithm.CourseSchedule
import LearnNote.Lib.Flags

namespace LearnNote.Algorithm.CourseSchedule

open Lib Lib.Finishing Relation

/-- A row for every vertex, with where its edges lead. -/
structure Lists (E : Nat → Nat → Prop) (n : Nat) (G : List (List Nat)) : Prop where
  row : ∀ i < n, ∃ row, G[i]? = some row ∧ ∀ j, j ∈ row ↔ E i j
  lt : ∀ {i j}, E i j → j < n

/-- The vertices with a flag for each of them, and behind the search those that it is done with. -/
structure Explored (E : Nat → Nat → Prop) (n : Nat) (g : Globals) : Prop where
  onPath_length : g.onPath.length = n
  visited_length : g.visited.length = n
  onPath_visited : ∀ i : Nat, g.onPath[i]? = some true → g.visited[i]? = some true
  mem_postorder : ∀ i : Nat, i ∈ g.postorder ↔ g.visited[i]? = some true ∧ g.onPath[i]? = some false
  ordered : Ordered E g.postorder

/-- The search goes on: it is on the same path, and has not lost a vertex. -/
structure Returned (E : Nat → Nat → Prop) (n : Nat) (g g' : Globals) : Prop where
  explored : Explored E n g'
  hasCycle : g'.hasCycle = false
  onPath : g'.onPath = g.onPath
  visited : ∀ i : Nat, g.visited[i]? = some true → g'.visited[i]? = some true
  count : g'.visited.count false ≤ g.visited.count false

/-- The search is over. -/
structure Found (E : Nat → Nat → Prop) (n : Nat) (g : Globals) : Prop where
  hasCycle : g.hasCycle = true
  cyclic : Cyclic E
  onPath_length : g.onPath.length = n
  visited_length : g.visited.length = n

variable {E : Nat → Nat → Prop} {n i j fuel : Nat} {g g' g'' : Globals} {G : List (List Nat)} {l : List Nat}

theorem Returned.refl (hg : Explored E n g) (hcycle : g.hasCycle = false) : Returned E n g g :=
  ⟨hg, hcycle, rfl, fun _ h => h, le_rfl⟩

theorem Returned.trans (h : Returned E n g g') (h' : Returned E n g' g'') : Returned E n g g'' where
  explored := h'.explored
  hasCycle := h'.hasCycle
  onPath := h'.onPath.trans h.onPath
  visited i hi := h'.visited i (h.visited i hi)
  count := h'.count.trans h.count

theorem Returned.mem_postorder (hg : Explored E n g) (h : Returned E n g g') (hi : i ∈ g.postorder) :
    i ∈ g'.postorder := by
  obtain ⟨hvisited, honPath⟩ := (hg.mem_postorder i).mp hi
  exact (h.explored.mem_postorder i).mpr ⟨h.visited i hvisited, h.onPath ▸ honPath⟩

theorem Explored.enter (hg : Explored E n g) (hi : i < n) (hvisited : g.visited[i]? = some false) :
    Explored E n { g with visited := g.visited.set i true, onPath := g.onPath.set i true } where
  onPath_length := by rw [List.length_set, hg.onPath_length]
  visited_length := by rw [List.length_set, hg.visited_length]
  onPath_visited j hj := by
    by_cases he : i = j
    · subst he
      exact List.getElem?_set_self (hg.visited_length ▸ hi)
    · rw [List.getElem?_set_ne he] at hj ⊢
      exact hg.onPath_visited j hj
  mem_postorder j := by
    by_cases he : i = j
    · subst he
      have hnot : i ∉ g.postorder := fun h => by simp [((hg.mem_postorder i).mp h).1] at hvisited
      simp [hnot, hg.onPath_length, hi]
    · rw [List.getElem?_set_ne he, List.getElem?_set_ne he]
      exact hg.mem_postorder j
  ordered := hg.ordered

theorem Explored.leave (hg : Explored E n g) (hi : g.onPath[i]? = some true)
    (hnext : ∀ j, E i j → j ∈ g.postorder) :
    Explored E n { g with postorder := g.postorder ++ [i], onPath := g.onPath.set i false } where
  onPath_length := by rw [List.length_set, hg.onPath_length]
  visited_length := hg.visited_length
  onPath_visited j hj := by
    by_cases he : i = j
    · subst he
      exact hg.onPath_visited i hi
    · rw [List.getElem?_set_ne he] at hj
      exact hg.onPath_visited j hj
  mem_postorder j := by
    rw [List.mem_append, List.mem_singleton]
    by_cases he : i = j
    · subst he
      obtain ⟨hlt, -⟩ := List.getElem?_eq_some_iff.mp hi
      simp [hg.onPath_visited i hi, hlt]
    · rw [List.getElem?_set_ne he, hg.mem_postorder j, or_iff_left (Ne.symm he)]
  ordered := hg.ordered.concat (fun h => by simp [((hg.mem_postorder i).mp h).2] at hi) hnext

theorem FindOrder.traverse_of_hasCycle (hcycle : g.hasCycle = true) (honPath : i < g.onPath.length)
    (hvisited : i < g.visited.length) : FindOrder.traverse G (fuel + 1) g i = some g := by
  have hsame : { g with hasCycle := true } = g := by
    cases g with
    | mk onPath visited hasCycle postorder =>
        have he : hasCycle = true := hcycle
        rw [he]
  rcases Flags.value g.onPath honPath with h | h <;>
    simp [FindOrder.traverse, h, List.getElem?_eq_getElem hvisited, hcycle, hsame]

theorem Returned.leave (hg : Explored E n g) (hi : i < n) (honPath : g.onPath[i]? = some false)
    (hvisited : g.visited[i]? = some false)
    (h : Returned E n { g with visited := g.visited.set i true, onPath := g.onPath.set i true } g')
    (hnext : ∀ j, E i j → j ∈ g'.postorder) :
    Returned E n g { g' with postorder := g'.postorder ++ [i], onPath := g'.onPath.set i false } where
  explored := by
    refine h.explored.leave ?_ hnext
    rw [h.onPath]
    exact List.getElem?_set_self (hg.onPath_length ▸ hi)
  hasCycle := h.hasCycle
  onPath := by
    simp only [h.onPath]
    exact Flags.set_set_false honPath
  visited j hj := by
    apply h.visited
    by_cases he : i = j
    · subst he
      exact List.getElem?_set_self (hg.visited_length ▸ hi)
    · rwa [List.getElem?_set_ne he]
  count := h.count.trans (Flags.count_set_true hvisited).le

/-- What a call comes to. Everything on the path leads to the vertex that it is for. -/
def Traverses (E : Nat → Nat → Prop) (n : Nat) (G : List (List Nat)) (fuel : Nat) : Prop :=
  ∀ g i, Explored E n g → g.hasCycle = false → i < n → g.visited.count false < fuel →
    (∀ v : Nat, g.onPath[v]? = some true → TransGen E v i) →
    ∃ g', FindOrder.traverse G fuel g i = some g' ∧ (Found E n g' ∨ Returned E n g g' ∧ i ∈ g'.postorder)

theorem FindOrder.foldlM_traverse (h : Traverses E n G fuel) (hg : Explored E n g) (hcycle : g.hasCycle = false)
    (hl : ∀ j ∈ l, j < n) (hfuel : g.visited.count false < fuel)
    (hpath : ∀ v : Nat, g.onPath[v]? = some true → ∀ j ∈ l, TransGen E v j) :
    ∃ g', l.foldlM (FindOrder.traverse G fuel) g = some g' ∧
      (Found E n g' ∨ Returned E n g g' ∧ ∀ j ∈ l, j ∈ g'.postorder) := by
  refine Loops.foldlM_spec
    (I := fun done g' => Found E n g' ∨ Returned E n g g' ∧ ∀ j ∈ done, j ∈ g'.postorder) ?_ ?_
  · exact .inr ⟨Returned.refl hg hcycle, fun _ hj => absurd hj List.not_mem_nil⟩
  · intro done j rest g' hsplit hI
    have hj : j ∈ l := hsplit ▸ List.mem_append_right _ List.mem_cons_self
    rcases hI with hfound | ⟨hreturned, hdone⟩
    · obtain ⟨fuel, rfl⟩ : ∃ k, fuel = k + 1 := ⟨fuel - 1, by omega⟩
      exact ⟨g', FindOrder.traverse_of_hasCycle hfound.hasCycle (hfound.onPath_length ▸ hl j hj)
        (hfound.visited_length ▸ hl j hj), .inl hfound⟩
    · obtain ⟨g'', hg'', hfound | ⟨hreturned', hmem⟩⟩ := h g' j hreturned.explored hreturned.hasCycle (hl j hj)
        (hreturned.count.trans_lt hfuel) fun v hv => hpath v (hreturned.onPath ▸ hv) j hj
      · exact ⟨g'', hg'', .inl hfound⟩
      · refine ⟨g'', hg'', .inr ⟨hreturned.trans hreturned', fun k hk => ?_⟩⟩
        rcases List.mem_append.mp hk with hk | hk
        · exact hreturned'.mem_postorder hreturned.explored (hdone k hk)
        · exact List.mem_singleton.mp hk ▸ hmem

theorem FindOrder.traverse_enter (hcycle : g.hasCycle = false) (honPath : g.onPath[i]? = some false)
    (hvisited : g.visited[i]? = some false) (hrow : G[i]? = some l) :
    FindOrder.traverse G (fuel + 1) g i =
      (l.foldlM (FindOrder.traverse G fuel)
        { g with visited := g.visited.set i true, onPath := g.onPath.set i true }).map
          fun g => { g with postorder := g.postorder ++ [i], onPath := g.onPath.set i false } := by
  rw [FindOrder.traverse, honPath, Option.bind_some]
  simp only [Bool.false_eq_true, if_false]
  rw [hvisited, Option.bind_some, if_neg (by simp [hcycle]), hrow, Option.bind_some]

theorem FindOrder.traverse_spec (hG : Lists E n G) : ∀ fuel, Traverses E n G fuel := by
  intro fuel
  induction fuel with
  | zero => exact fun g i _ _ _ hfuel => absurd hfuel (Nat.not_lt_zero _)
  | succ fuel ih =>
      intro g i hg hcycle hi hfuel hpath
      rcases Flags.value g.visited (hg.visited_length ▸ hi) with hvisited | hvisited
      · rcases Flags.value g.onPath (hg.onPath_length ▸ hi) with honPath | honPath
        · refine ⟨{ g with hasCycle := true }, ?_, .inl ⟨rfl, ⟨i, hpath i honPath⟩, hg.onPath_length, hg.visited_length⟩⟩
          simp [FindOrder.traverse, honPath, hvisited]
        · refine ⟨g, ?_, .inr ⟨Returned.refl hg hcycle, (hg.mem_postorder i).mpr ⟨hvisited, honPath⟩⟩⟩
          simp [FindOrder.traverse, honPath, hvisited]
      · have honPath : g.onPath[i]? = some false := by
          refine (Flags.value g.onPath (hg.onPath_length ▸ hi)).resolve_left fun h => ?_
          simp [hg.onPath_visited i h] at hvisited
        obtain ⟨row, hrow, hmem⟩ := hG.row i hi
        have hcount := Flags.count_set_true hvisited
        have hpath' : ∀ v : Nat, (g.onPath.set i true)[v]? = some true → ∀ j ∈ row, TransGen E v j := by
          intro v hv j hj
          have hedge : E i j := (hmem j).mp hj
          by_cases he : i = v
          · exact he ▸ .single hedge
          · rw [List.getElem?_set_ne he] at hv
            exact (hpath v hv).tail hedge
        obtain ⟨g', hg', hend⟩ := FindOrder.foldlM_traverse ih (hg.enter hi hvisited) hcycle
          (fun j hj => hG.lt ((hmem j).mp hj)) (Nat.lt_of_lt_of_le hcount (Nat.le_of_lt_succ hfuel)) hpath'
        refine ⟨{ g' with postorder := g'.postorder ++ [i], onPath := g'.onPath.set i false }, ?_, ?_⟩
        · rw [FindOrder.traverse_enter hcycle honPath hvisited hrow, hg', Option.map_some]
        · rcases hend with hfound | ⟨hreturned, hnext⟩
          · exact .inl ⟨hfound.hasCycle, hfound.cyclic, by rw [List.length_set, hfound.onPath_length],
              hfound.visited_length⟩
          · refine .inr ⟨Returned.leave hg hi honPath hvisited hreturned fun j hj => hnext j ((hmem j).mpr hj), ?_⟩
            exact List.mem_append_right _ List.mem_cons_self

end LearnNote.Algorithm.CourseSchedule
