import Mathlib.Algebra.BigOperators.Fin
import Mathlib.Algebra.Order.BigOperators.Group.Finset
import LearnNote.Lib.CheckedInt
import LearnNote.Lib.Loops
import LearnNote.Lib.ShortestWalk

namespace LearnNote.Algorithm.Dijkstra

open Lib Lib.ShortestWalk

variable {n : Nat}

/-- The globals that a call writes. The vectors have n entries, as they are declared. -/
structure State (n : Nat) where
  dist : Fin n → Int
  visited : Fin n → Bool

def pickMin (s : State n) : Option (Fin n) :=
  ((List.finRange n).foldl (fun (best : Int × Option (Fin n)) j =>
    if s.dist j < best.1 ∧ s.visited j = false then (s.dist j, some j) else best) (intMax, none)).2

/-- No result, here and below, is an overflow. -/
def relax (G : Fin n → Fin n → Int) (u : Fin n) (s : State n) (v : Fin n) : Option (State n) :=
  if s.visited v = false ∧ G u v ≠ intMax then
    (checkedInt (s.dist u + G u v)).map fun d =>
      if d < s.dist v then { s with dist := Function.update s.dist v d } else s
  else some s

def visit (s : State n) (u : Fin n) : State n := { s with visited := Function.update s.visited u true }

def rounds (G : Fin n → Fin n → Int) : Nat → State n → Option (State n)
  | 0, s => some s
  | i + 1, s =>
      match pickMin s with
      | none => some s
      | some u => ((List.finRange n).foldlM (relax G u) (visit s u)).bind (rounds G i)

def start (G : Fin n → Fin n → Int) (src : Fin n) (s : State n) : State n :=
  (List.finRange n).foldl (fun s i =>
    { s with dist := Function.update s.dist i (G src i), visited := Function.update s.visited i false }) s

def dijkstra (G : Fin n → Fin n → Int) (src : Fin n) (s : State n) : Option (State n) := rounds G n (start G src s)

/-- An entry as a weight: none of it where there is no edge. -/
def weight (G : Fin n → Fin n → Int) (u v : Fin n) : Int := if G u v = intMax then 0 else G u v

structure Weights (G : Fin n → Fin n → Int) : Prop where
  diagonal : ∀ v, G v v = 0
  nonneg : ∀ u v, 0 ≤ G u v
  le_intMax : ∀ u v, G u v ≤ intMax
  sum_lt : ∑ u, ∑ v, weight G u v < intMax

def Edge (G : Fin n → Fin n → Int) (u v : Fin n) (x : Int) : Prop := G u v ≠ intMax ∧ x = G u v

/-- All that the rows of the vertices gone through weigh, and the row of src. -/
def weighed (G : Fin n → Fin n → Int) (src : Fin n) (visited : Fin n → Bool) : Int :=
  ∑ u with visited u = true ∨ u = src, ∑ v, weight G u v

/-- Before a round: a distance is of a walk, those visited are not above the others, and no edge from
one of them leads to less. -/
structure Greedy (G : Fin n → Fin n → Int) (src : Fin n) (s : State n) : Prop where
  dist_src : s.dist src = 0
  nonneg : ∀ v, 0 ≤ s.dist v
  le_intMax : ∀ v, s.dist v ≤ intMax
  walk : ∀ v, s.dist v ≠ intMax → Walk (Edge G) src v (s.dist v)
  finite : ∀ u, s.visited u = true → s.dist u < intMax
  order : ∀ u v, s.visited u = true → s.visited v = false → s.dist u ≤ s.dist v
  edge : ∀ u v, s.visited u = true → G u v ≠ intMax → s.dist v ≤ s.dist u + G u v
  behind : ∀ u v, s.visited u = true → G u v ≠ intMax → s.dist v < intMax
  weighed_le : ∀ v, s.dist v ≠ intMax → s.dist v ≤ weighed G src s.visited

variable {G : Fin n → Fin n → Int} {src u v : Fin n} {s s' : State n}

theorem start_eq (G : Fin n → Fin n → Int) (src : Fin n) (s : State n) : start G src s = ⟨G src, fun _ => false⟩ := by
  have h := Loops.foldl_induction (l := List.finRange n) (b := s)
    (I := fun done (t : State n) => ∀ i ∈ done, t.dist i = G src i ∧ t.visited i = false)
    (f := fun s i => { s with dist := Function.update s.dist i (G src i), visited := Function.update s.visited i false })
    (fun i hi => absurd hi List.not_mem_nil) fun done i _ t _ ht j hj => ?_
  · have hdist : (start G src s).dist = G src := funext fun i => (h i (List.mem_finRange i)).1
    have hvisited : (start G src s).visited = fun _ => false := funext fun i => (h i (List.mem_finRange i)).2
    rw [← hdist, ← hvisited]
  · by_cases he : j = i
    · simp [he]
    · have hmem : j ∈ done := by simpa [he] using hj
      simpa [he] using ht j hmem

/-- The best of the vertices looked at. -/
structure Best (s : State n) (done : List (Fin n)) (best : Int × Option (Fin n)) : Prop where
  le : ∀ j ∈ done, s.visited j = false → best.1 ≤ s.dist j
  none : best.2 = none → best.1 = intMax
  some : ∀ u, best.2 = some u → s.visited u = false ∧ s.dist u < intMax ∧ best.1 = s.dist u
  le_intMax : best.1 ≤ intMax

theorem best_pick (s : State n) : ∃ min, Best s (List.finRange n) (min, pickMin s) := by
  have h := Loops.foldl_induction (l := List.finRange n) (b := ((intMax, none) : Int × Option (Fin n))) (I := Best s)
    (f := fun best j => if s.dist j < best.1 ∧ s.visited j = false then (s.dist j, some j) else best)
    ⟨fun j hj => absurd hj List.not_mem_nil, fun _ => rfl, fun u hu => by simp at hu, le_rfl⟩
    fun done j _ best _ hbest => ?_
  · exact ⟨_, h⟩
  · split_ifs with hj
    · refine ⟨fun k hk hvisited => ?_, fun he => by simp at he, fun u hu => ?_, hj.1.le.trans hbest.le_intMax⟩
      · rcases List.mem_append.mp hk with hk | hk
        · exact hj.1.le.trans (hbest.le k hk hvisited)
        · exact le_of_eq (by rw [List.mem_singleton.mp hk])
      · cases Option.some_inj.mp hu
        exact ⟨hj.2, hj.1.trans_le hbest.le_intMax, rfl⟩
    · refine ⟨fun k hk hvisited => ?_, hbest.none, hbest.some, hbest.le_intMax⟩
      rcases List.mem_append.mp hk with hk | hk
      · exact hbest.le k hk hvisited
      · cases List.mem_singleton.mp hk
        by_contra hlt
        exact hj ⟨not_le.mp hlt, hvisited⟩

theorem pickMin_none (h : pickMin s = none) (hv : s.visited v = false) : intMax ≤ s.dist v := by
  obtain ⟨min, hbest⟩ := best_pick s
  rw [← hbest.none h]
  exact hbest.le v (List.mem_finRange v) hv

theorem pickMin_some (h : pickMin s = some u) :
    s.visited u = false ∧ s.dist u < intMax ∧ ∀ v, s.visited v = false → s.dist u ≤ s.dist v := by
  obtain ⟨min, hbest⟩ := best_pick s
  obtain ⟨hvisited, hlt, hmin⟩ := hbest.some u h
  exact ⟨hvisited, hlt, fun v hv => hmin ▸ hbest.le v (List.mem_finRange v) hv⟩

def relaxed (G : Fin n → Fin n → Int) (u : Fin n) (s : State n) (i : Nat) (v : Fin n) : Int :=
  if v.val < i ∧ s.visited v = false ∧ G u v ≠ intMax ∧ s.dist u + G u v < s.dist v then s.dist u + G u v else s.dist v

theorem relaxed_of_visited (hv : s.visited v = true) (i : Nat) : relaxed G u s i v = s.dist v :=
  if_neg fun h => by simp [h.2.1] at hv

theorem relaxed_of_le {i : Nat} (hi : i ≤ v.val) : relaxed G u s i v = s.dist v :=
  if_neg fun h => absurd h.1 (Nat.not_lt.mpr hi)

theorem relaxed_succ (i : Fin n) : relaxed G u s (i.val + 1) =
    if s.visited i = false ∧ G u i ≠ intMax ∧ s.dist u + G u i < s.dist i then
      Function.update (relaxed G u s i) i (s.dist u + G u i)
    else relaxed G u s i := by
  funext v
  by_cases he : v = i
  · subst he
    split_ifs with h
    · rw [Function.update_self, relaxed, if_pos ⟨Nat.lt_succ_self _, h⟩]
    · rw [relaxed_of_le le_rfl, relaxed, if_neg fun h' => h h'.2]
  · have hval : v.val ≠ i.val := fun h => he (Fin.ext h)
    have hlt : v.val < i.val + 1 ↔ v.val < i.val := by omega
    have hsame : relaxed G u s (i.val + 1) v = relaxed G u s i v := by simp only [relaxed, hlt]
    split_ifs
    · rw [Function.update_of_ne he, hsame]
    · exact hsame

theorem foldlM_relax (hu : s.visited u = true)
    (hfits : ∀ v, G u v ≠ intMax → intMin ≤ s.dist u + G u v ∧ s.dist u + G u v ≤ intMax) :
    (List.finRange n).foldlM (relax G u) s = some ⟨relaxed G u s n, s.visited⟩ := by
  have hstart : s = ⟨relaxed G u s 0, s.visited⟩ := by
    have hzero : relaxed G u s 0 = s.dist := funext fun v => relaxed_of_le (Nat.zero_le _)
    rw [hzero]
  have hround : ∀ (i : Fin n) t, t = ⟨relaxed G u s i, s.visited⟩ →
      ∃ t', relax G u t i = some t' ∧ t' = ⟨relaxed G u s (i + 1), s.visited⟩ := by
    rintro i _ rfl
    refine ⟨_, ?_, rfl⟩
    rw [relax]
    simp only [relaxed_of_visited hu, relaxed_of_le (le_refl i.val), relaxed_succ]
    by_cases hedge : s.visited i = false ∧ G u i ≠ intMax
    · obtain ⟨hmin, hmax⟩ := hfits i hedge.2
      rw [if_pos hedge, checkedInt_of_mem hmin hmax, Option.map_some]
      by_cases hlt : s.dist u + G u i < s.dist i
      · rw [if_pos hlt, if_pos ⟨hedge.1, hedge.2, hlt⟩]
      · rw [if_neg hlt, if_neg fun h => hlt h.2.2]
    · rw [if_neg hedge, if_neg fun h => hedge ⟨h.1, h.2.1⟩]
  obtain ⟨t, ht, rfl⟩ := Loops.forFin_spec (I := fun (i : Nat) (t : State n) => t = ⟨relaxed G u s i, s.visited⟩)
    hstart hround
  exact ht

theorem weight_of_ne (h : G u v ≠ intMax) : weight G u v = G u v := if_neg h

theorem Weights.weight_nonneg (hG : Weights G) (u v : Fin n) : 0 ≤ weight G u v := by
  rw [weight]
  split_ifs
  · exact le_rfl
  · exact hG.nonneg u v

theorem Weights.le_row (hG : Weights G) (h : G u v ≠ intMax) : G u v ≤ ∑ w, weight G u w := by
  rw [← weight_of_ne h]
  exact Finset.single_le_sum (fun w _ => hG.weight_nonneg u w) (Finset.mem_univ v)

theorem Weights.row_nonneg (hG : Weights G) (u : Fin n) : 0 ≤ ∑ w, weight G u w :=
  Finset.sum_nonneg fun w _ => hG.weight_nonneg u w

theorem Weights.weighed_lt (hG : Weights G) (visited : Fin n → Bool) : weighed G src visited < intMax :=
  (Finset.sum_le_sum_of_subset_of_nonneg (Finset.filter_subset _ _) fun u _ _ => hG.row_nonneg u).trans_lt hG.sum_lt

theorem Weights.row_le_weighed (hG : Weights G) (visited : Fin n → Bool) : ∑ w, weight G src w ≤ weighed G src visited :=
  Finset.single_le_sum (f := fun u => ∑ w, weight G u w) (fun u _ => hG.row_nonneg u) (by simp)

theorem weighed_visit {visited : Fin n → Bool} (hu : visited u = false) (hne : u ≠ src) :
    weighed G src (Function.update visited u true) = weighed G src visited + ∑ w, weight G u w := by
  have hset : (Finset.univ.filter fun p => Function.update visited u true p = true ∨ p = src) =
      insert u (Finset.univ.filter fun p => visited p = true ∨ p = src) := by
    ext p
    by_cases he : p = u <;> simp [he]
  rw [weighed, hset, Finset.sum_insert (by simp [hu, hne]), add_comm, weighed]

/-- The vertex taken is at its distance for good, and what lies behind its edges is within the weight of
the rows. -/
theorem Greedy.within (hG : Weights G) (h : Greedy G src s) (hu : s.visited u = false) (hlt : s.dist u < intMax)
    (hv : G u v ≠ intMax) : s.dist u + G u v ≤ weighed G src (Function.update s.visited u true) := by
  have hrow := hG.le_row hv
  by_cases he : u = src
  · subst he
    rw [h.dist_src, zero_add]
    exact hrow.trans (hG.row_le_weighed _)
  · rw [weighed_visit hu he]
    exact add_le_add (h.weighed_le u hlt.ne) hrow

theorem Weights.weighed_mono (hG : Weights G) (visited : Fin n → Bool) (u : Fin n) :
    weighed G src visited ≤ weighed G src (Function.update visited u true) := by
  refine Finset.sum_le_sum_of_subset_of_nonneg (fun p hp => ?_) fun p _ _ => hG.row_nonneg p
  by_cases he : p = u <;> simp_all

theorem relaxed_cases (v : Fin n) :
    (G u v ≠ intMax ∧ s.visited v = false ∧ s.dist u + G u v < s.dist v ∧ relaxed G u s n v = s.dist u + G u v) ∨
      (relaxed G u s n v = s.dist v ∧ (s.visited v = false → G u v ≠ intMax → s.dist v ≤ s.dist u + G u v)) := by
  rw [relaxed]
  split_ifs with h
  · exact .inl ⟨h.2.2.1, h.2.1, h.2.2.2, rfl⟩
  · exact .inr ⟨rfl, fun hv hedge => not_lt.mp fun hlt => h ⟨v.isLt, hv, hedge, hlt⟩⟩

theorem relaxed_le (v : Fin n) : relaxed G u s n v ≤ s.dist v := by
  rcases relaxed_cases (G := G) (u := u) (s := s) v with ⟨-, -, hlt, he⟩ | ⟨he, -⟩
  · exact he ▸ hlt.le
  · exact he.le

theorem visit_of_ne (h : v ≠ u) : (visit s u).visited v = s.visited v := Function.update_of_ne h _ _

theorem visit_visited (s : State n) (u : Fin n) : (visit s u).visited u = true := Function.update_self _ _ _

theorem visited_of_visit (h : (visit s u).visited v = true) : v = u ∨ s.visited v = true := by
  by_cases he : v = u
  · exact .inl he
  · exact .inr (visit_of_ne he ▸ h)

theorem not_visited_of_visit (h : (visit s u).visited v = false) : s.visited v = false := by
  by_cases he : v = u
  · subst he
    simp [visit] at h
  · exact visit_of_ne he ▸ h

theorem Greedy.le_taken (h : Greedy G src s) (hu : s.visited u = false) (hv : (visit s u).visited v = true) :
    s.dist v ≤ s.dist u := by
  rcases visited_of_visit hv with rfl | hv
  · exact le_rfl
  · exact h.order v u hv hu

theorem Greedy.relaxed_nonneg (hG : Weights G) (h : Greedy G src s) (u v : Fin n) :
    0 ≤ relaxed G u (visit s u) n v := by
  rcases relaxed_cases (G := G) (u := u) (s := visit s u) v with ⟨-, -, -, he⟩ | ⟨he, -⟩
  · rw [he]
    exact add_nonneg (h.nonneg u) (hG.nonneg u v)
  · rw [he]
    exact h.nonneg v

theorem Greedy.relaxed_le_edge (hG : Weights G) (h : Greedy G src s) (hu : s.visited u = false)
    (hedge : G u v ≠ intMax) : relaxed G u (visit s u) n v ≤ s.dist u + G u v := by
  cases hv : (visit s u).visited v with
  | true =>
      calc relaxed G u (visit s u) n v ≤ s.dist v := relaxed_le v
        _ ≤ s.dist u := h.le_taken hu hv
        _ ≤ s.dist u + G u v := le_add_of_nonneg_right (hG.nonneg u v)
  | false =>
      rcases relaxed_cases (G := G) (u := u) (s := visit s u) v with ⟨-, -, -, he⟩ | ⟨he, hrest⟩
      · exact he.le
      · exact he ▸ hrest hv hedge

/-- Every distance is the one before, or that of the vertex taken and one of its edges. -/
theorem relaxed_induction {P : Fin n → Int → Prop}
    (hsame : ∀ v, s.dist v ≠ intMax → P v (s.dist v))
    (hedge : ∀ v, G u v ≠ intMax → P v (s.dist u + G u v)) (hv : relaxed G u (visit s u) n v ≠ intMax) :
    P v (relaxed G u (visit s u) n v) := by
  rcases relaxed_cases (G := G) (u := u) (s := visit s u) v with ⟨hne, -, -, he⟩ | ⟨he, -⟩
  · rw [he]
    exact hedge v hne
  · rw [he] at hv ⊢
    exact hsame v hv

theorem Greedy.round (hG : Weights G) (h : Greedy G src s) (hu : s.visited u = false) (hlt : s.dist u < intMax)
    (hmin : ∀ v, s.visited v = false → s.dist u ≤ s.dist v) :
    Greedy G src ⟨relaxed G u (visit s u) n, (visit s u).visited⟩ := by
  have hkept : ∀ v, (visit s u).visited v = true → relaxed G u (visit s u) n v = s.dist v :=
    fun v hv => relaxed_of_visited hv n
  have hle : ∀ v, relaxed G u (visit s u) n v ≤ s.dist v := relaxed_le
  exact {
    dist_src := le_antisymm ((hle src).trans h.dist_src.le) (h.relaxed_nonneg hG u src)
    nonneg := h.relaxed_nonneg hG u
    le_intMax := fun v => (hle v).trans (h.le_intMax v)
    walk := fun v hv =>
      relaxed_induction h.walk (fun v hne => (h.walk u hlt.ne).snoc ⟨hne, rfl⟩) hv
    finite := fun p hp => by
      simp only [hkept p hp]
      exact (h.le_taken hu hp).trans_lt hlt
    order := fun p v hp hv => by
      simp only [hkept p hp]
      have hp' := h.le_taken hu hp
      rcases relaxed_cases (G := G) (u := u) (s := visit s u) v with ⟨-, -, -, he⟩ | ⟨he, -⟩
      · exact he ▸ hp'.trans (le_add_of_nonneg_right (hG.nonneg u v))
      · exact he ▸ hp'.trans (hmin v (not_visited_of_visit hv))
    edge := fun p v hp hedge => by
      simp only [hkept p hp]
      rcases visited_of_visit hp with rfl | hp
      · exact h.relaxed_le_edge hG hu hedge
      · exact (hle v).trans (h.edge p v hp hedge)
    behind := fun p v hp hedge => by
      rcases visited_of_visit hp with rfl | hp
      · exact (h.relaxed_le_edge hG hu hedge).trans_lt ((h.within hG hu hlt hedge).trans_lt (hG.weighed_lt _))
      · exact (hle v).trans_lt (h.behind p v hp hedge)
    weighed_le := fun v hv =>
      relaxed_induction (P := fun _ d => d ≤ weighed G src (visit s u).visited)
        (fun v hv => (h.weighed_le v hv).trans (hG.weighed_mono s.visited u))
        (fun v hne => h.within hG hu hlt hne) hv }

theorem Greedy.round_returns (hG : Weights G) (h : Greedy G src s) (hu : s.visited u = false) (hlt : s.dist u < intMax) :
    (List.finRange n).foldlM (relax G u) (visit s u) = some ⟨relaxed G u (visit s u) n, (visit s u).visited⟩ := by
  refine foldlM_relax (visit_visited s u) fun v hv => ⟨?_, ?_⟩
  · have hnonneg := add_nonneg (h.nonneg u) (hG.nonneg u v)
    have hmin : intMin ≤ 0 := by decide
    exact hmin.trans hnonneg
  · exact (h.within hG hu hlt hv).trans (hG.weighed_lt _).le

theorem greedy_start (hG : Weights G) (src : Fin n) : Greedy G src ⟨G src, fun _ => false⟩ := by
  refine ⟨hG.diagonal src, hG.nonneg src, hG.le_intMax src, fun v hv => ?_, fun u hu => by simp at hu,
    fun u v hu => by simp at hu, fun u v hu => by simp at hu, fun u v hu => by simp at hu, fun v hv => ?_⟩
  · have hwalk : Walk (Edge G) src v (0 + G src v) := Walk.nil.snoc ⟨hv, rfl⟩
    rwa [zero_add] at hwalk
  · exact (hG.le_row hv).trans (hG.row_le_weighed _)

def Settled (s : State n) : Prop := ∀ v, s.visited v = false → intMax ≤ s.dist v

theorem card_visit (hu : s.visited u = false) :
    (Finset.univ.filter fun v => (visit s u).visited v = false).card <
      (Finset.univ.filter fun v => s.visited v = false).card := by
  refine Finset.card_lt_card ⟨fun v hv => ?_, fun hsub => ?_⟩
  · simp only [Finset.mem_filter, Finset.mem_univ, true_and] at hv ⊢
    exact not_visited_of_visit hv
  · have hmem := (Finset.mem_filter.mp (hsub (Finset.mem_filter.mpr ⟨Finset.mem_univ u, hu⟩))).2
    simp [visit_visited] at hmem

theorem Greedy.rounds (hG : Weights G) (k : Nat) (h : Greedy G src s)
    (hk : (Finset.univ.filter fun v => s.visited v = false).card ≤ k) :
    ∃ t, rounds G k s = some t ∧ Greedy G src t ∧ Settled t := by
  induction k generalizing s with
  | zero =>
      refine ⟨s, rfl, h, fun v hv => ?_⟩
      have hempty := Finset.card_eq_zero.mp (Nat.le_zero.mp hk)
      exact absurd (Finset.mem_filter.mpr ⟨Finset.mem_univ v, hv⟩) (hempty ▸ Finset.notMem_empty v)
  | succ k ih =>
      rw [Dijkstra.rounds]
      cases hpick : pickMin s with
      | none => exact ⟨s, rfl, h, fun v hv => pickMin_none hpick hv⟩
      | some u =>
          obtain ⟨hu, hlt, hmin⟩ := pickMin_some hpick
          have hround := h.round_returns hG hu hlt
          simp only [hround, Option.bind_some]
          exact ih (h.round hG hu hlt hmin) (Nat.le_of_lt_succ ((card_visit hu).trans_le hk))

theorem dijkstra_spec (hG : Weights G) (src : Fin n) (s : State n) :
    ∃ t, dijkstra G src s = some t ∧ (∀ v, Reaches (Edge G) src v → Shortest (Edge G) src v (t.dist v)) ∧
      ∀ v, ¬ Reaches (Edge G) src v → t.dist v = intMax := by
  have hcard : (Finset.univ.filter fun v : Fin n => (fun _ => false) v = false).card ≤ n := by simp
  obtain ⟨t, ht, hgreedy, hsettled⟩ := (greedy_start hG src).rounds hG n hcard
  have hvisited : ∀ u, t.dist u < intMax → t.visited u = true := by
    intro u hu
    by_contra hnot
    exact absurd (hsettled u (by simpa using hnot)) (not_le.mpr hu)
  have hlabel : ∀ {v d}, Walk (Edge G) src v d → t.dist v < intMax ∧ t.dist v ≤ d := by
    intro v d hwalk
    refine hwalk.label_le (fun v => t.dist v < intMax) t.dist ?_ hgreedy.dist_src.le ?_
    · rw [hgreedy.dist_src]
      decide
    · rintro u v _ hu ⟨hedge, rfl⟩
      exact ⟨hgreedy.behind u v (hvisited u hu) hedge, hgreedy.edge u v (hvisited u hu) hedge⟩
  refine ⟨t, by rw [dijkstra, start_eq, ht], ?_, ?_⟩
  · rintro v ⟨d, hwalk⟩
    exact ⟨hgreedy.walk v (hlabel hwalk).1.ne, fun d' hwalk' => (hlabel hwalk').2⟩
  · intro v hv
    by_contra hne
    exact hv ⟨_, hgreedy.walk v hne⟩

theorem dijkstra_spec_pair :
    ∃ t, dijkstra (fun u v : Fin 2 => if u = v then 0 else 7) 0 ⟨fun _ => 0, fun _ => false⟩ = some t ∧
      (∀ v, Reaches (Edge fun u v : Fin 2 => if u = v then 0 else 7) 0 v →
        Shortest (Edge fun u v : Fin 2 => if u = v then 0 else 7) 0 v (t.dist v)) ∧
      ∀ v, ¬ Reaches (Edge fun u v : Fin 2 => if u = v then 0 else 7) 0 v → t.dist v = intMax :=
  dijkstra_spec ⟨by decide, by decide, by decide, by decide⟩ 0 _

end LearnNote.Algorithm.Dijkstra
