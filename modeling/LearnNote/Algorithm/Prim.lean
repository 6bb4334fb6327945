import Mathlib.Algebra.BigOperators.Fin
import Mathlib.Combinatorics.SimpleGraph.Acyclic
import LearnNote.Lib.CheckedInt

namespace LearnNote.Algorithm.Prim

variable {n : Nat}

structure State (n : Nat) where
  u : Fin n
  v : Fin n
  w : Int

def cmp (lhs rhs : State n) : Prop := lhs.w < rhs.w

instance (lhs rhs : State n) : Decidable (cmp lhs rhs) := inferInstanceAs (Decidable (_ < _))

/-- What is relied on of the front of a priority queue: there is one if the queue is not empty, and none
of the entries is after it in the order of cmp. -/
structure IsTop (top : List (State n) → Option (State n)) : Prop where
  exists_top : ∀ pq, pq ≠ [] → ∃ s, top pq = some s
  mem : ∀ pq s, top pq = some s → s ∈ pq
  greatest : ∀ pq s, top pq = some s → ∀ t ∈ pq, ¬ cmp s t

/-- The matrix is the function's own copy. -/
structure Vars (n : Nat) where
  G : Fin n → Fin n → Int
  visited : Fin n → Bool
  pq : List (State n)

/-- The two loops that queue edges. They differ in the vertex that the edges are of and in how far they go;
the weight is that of an edge of src in both. -/
def emplace (src v : Fin n) (bound : Nat) (s : Vars n) : Vars n :=
  ((List.finRange n).filter fun i => i.val < bound).foldl (fun s i =>
    if s.visited i = false ∧ s.G v i ≠ intMax then { s with pq := s.pq ++ [⟨v, i, s.G src i⟩] } else s) s

/-- Nothing is popped, and the bound of the inner loop is the counter of the outer one. No result is
the front of an empty queue. -/
def whileLeft (top : List (State n) → Option (State n)) (src : Fin n) : Nat → Vars n → Option (Vars n)
  | 0, s => some s
  | k + 1, s => (top s.pq).bind fun e =>
      whileLeft top src k (emplace src e.v (k + 1)
        { s with G := Function.update s.G e.u (Function.update (s.G e.u) e.v e.w),
                 visited := Function.update s.visited e.v true })

/-- The matrix returned has as many rows as the global n says. The choices are recorded in the copy of G. -/
def prim (top : List (State n) → Option (State n)) (globalN : Nat) (visited : Fin n → Bool)
    (G : Fin n → Fin n → Int) (src : Fin n) : Option (List (List Int)) :=
  (whileLeft top src (n - 1) (emplace src src n ⟨G, Function.update visited src true, []⟩)).map fun _ =>
    List.replicate globalN (List.replicate globalN intMax)

def graph (G : Fin n → Fin n → Int) (hG : ∀ u v, G u v = G v u) : SimpleGraph (Fin n) where
  Adj u v := u ≠ v ∧ G u v ≠ intMax
  symm := ⟨fun u v h => ⟨h.1.symm, hG u v ▸ h.2⟩⟩
  loopless := ⟨fun _ h => h.1 rfl⟩

open Classical in
noncomputable def weight (G : Fin n → Fin n → Int) (T : SimpleGraph (Fin n)) : Int :=
  ∑ e : Fin n × Fin n with e.1 < e.2 ∧ T.Adj e.1 e.2, G e.1 e.2

/-- A spanning tree that no other weighs less than. -/
structure MinimumSpanningTree (G : Fin n → Fin n → Int) (hG : ∀ u v, G u v = G v u)
    (T : SimpleGraph (Fin n)) : Prop where
  le : T ≤ graph G hG
  isTree : T.IsTree
  weight_le : ∀ S ≤ graph G hG, S.IsTree → weight G T ≤ weight G S

def Entry (res : List (List Int)) (u v : Nat) (w : Int) : Prop :=
  ∃ row, res[u]? = some row ∧ row[v]? = some w ∧ w ≠ intMax

/-- The finite entries are the edges of a spanning tree of least weight, with their weights. -/
def Spans (G : Fin n → Fin n → Int) (hG : ∀ u v, G u v = G v u) (res : List (List Int)) : Prop :=
  ∃ T, MinimumSpanningTree G hG T ∧ (∀ u v, T.Adj u v ↔ (∃ w, Entry res u v w) ∨ ∃ w, Entry res v u w) ∧
    ∀ u v : Fin n, ∀ w, Entry res u v w → w = G u v

variable {top : List (State n) → Option (State n)} {G : Fin n → Fin n → Int} {hG : ∀ u v, G u v = G v u} {src : Fin n}
  {s : Vars n} {visited : Fin n → Bool}

theorem foldl_emplace (v : Fin n) (l : List (Fin n))
    (h : s.pq ≠ [] ∨ ∃ i ∈ l, s.visited i = false ∧ s.G v i ≠ intMax) :
    (l.foldl (fun s i => if s.visited i = false ∧ s.G v i ≠ intMax then
      { s with pq := s.pq ++ [⟨v, i, s.G src i⟩] } else s) s).pq ≠ [] := by
  induction l generalizing s with
  | nil => exact h.resolve_right fun ⟨_, hi, _⟩ => List.not_mem_nil hi
  | cons i l ih =>
      rw [List.foldl_cons]
      apply ih
      by_cases hi : s.visited i = false ∧ s.G v i ≠ intMax
      · rw [if_pos hi]
        exact .inl (List.append_ne_nil_of_right_ne_nil _ (List.cons_ne_nil _ _))
      · rw [if_neg hi]
        refine h.imp_right fun ⟨j, hj, hj'⟩ => ⟨j, ?_, hj'⟩
        rcases List.mem_cons.mp hj with rfl | hj
        · exact absurd hj' hi
        · exact hj

theorem emplace_pq (v : Fin n) (bound : Nat) (h : s.pq ≠ []) : (emplace src v bound s).pq ≠ [] :=
  foldl_emplace v _ (.inl h)

theorem emplace_pq_of_edge {v i : Fin n} (hvisited : s.visited i = false) (hedge : s.G v i ≠ intMax) :
    (emplace src v n s).pq ≠ [] :=
  foldl_emplace v _ (.inr ⟨i, by simp, hvisited, hedge⟩)

theorem whileLeft_returns (htop : IsTop top) (k : Nat) (h : s.pq ≠ []) : ∃ t, whileLeft top src k s = some t := by
  induction k generalizing s with
  | zero => exact ⟨s, rfl⟩
  | succ k ih =>
      obtain ⟨e, he⟩ := htop.exists_top s.pq h
      rw [whileLeft, he, Option.bind_some]
      exact ih (emplace_pq e.v (k + 1) h)

/-- On every connected graph the call returns, and nothing is in what it returns. -/
theorem prim_eq (htop : IsTop top) (globalN : Nat) (hvisited : ∀ v, visited v = false)
    (hconnected : (graph G hG).Connected) (src : Fin n) :
    prim top globalN visited G src = some (List.replicate globalN (List.replicate globalN intMax)) := by
  obtain ⟨t, ht⟩ : ∃ t,
      whileLeft top src (n - 1) (emplace src src n ⟨G, Function.update visited src true, []⟩) = some t := by
    by_cases hn : n - 1 = 0
    · exact ⟨_, by rw [hn]; rfl⟩
    · have : Nontrivial (Fin n) := Fin.nontrivial_iff_two_le.mpr (by omega)
      obtain ⟨i, hne, hedge⟩ := hconnected.preconnected.exists_adj_of_nontrivial src
      refine whileLeft_returns htop _ (emplace_pq_of_edge (i := i) ?_ hedge)
      simp only [Function.update_of_ne (Ne.symm hne), hvisited]
  rw [prim, ht, Option.map_some]

theorem not_entry_replicate (globalN u v : Nat) (w : Int) :
    ¬ Entry (List.replicate globalN (List.replicate globalN intMax)) u v w := by
  rintro ⟨row, hrow, hw, hne⟩
  simp only [List.getElem?_replicate, Option.ite_none_right_eq_some, Option.some_inj] at hrow
  obtain ⟨-, rfl⟩ := hrow
  simp only [List.getElem?_replicate, Option.ite_none_right_eq_some, Option.some_inj] at hw
  exact hne hw.2.symm

theorem weight_of_subsingleton [Subsingleton (Fin n)] (T : SimpleGraph (Fin n)) : weight G T = 0 := by
  classical
  rw [weight]
  refine Finset.sum_eq_zero fun e he => ?_
  have hlt := (Finset.mem_filter.mp he).2.1
  exact absurd (Subsingleton.elim e.1 e.2) hlt.ne

theorem spans_replicate (globalN : Nat) (src : Fin n) :
    Spans G hG (List.replicate globalN (List.replicate globalN intMax)) ↔ n = 1 := by
  constructor
  · rintro ⟨T, hT, hadj, -⟩
    have hbot : T = ⊥ := by
      ext u v
      rw [hadj]
      simp [not_entry_replicate]
    have hsub := (SimpleGraph.connected_bot_iff.mp (hbot ▸ hT.isTree.connected)).1
    have hle : n ≤ 1 := Fin.subsingleton_iff_le_one.mp hsub
    have hpos := src.pos
    omega
  · rintro rfl
    have : Subsingleton (Fin 1) := inferInstance
    refine ⟨⊥, ⟨bot_le, SimpleGraph.IsTree.of_subsingleton, fun S _ _ => ?_⟩, fun u v => ?_, fun u v w h => ?_⟩
    · rw [weight_of_subsingleton, weight_of_subsingleton]
    · simp [not_entry_replicate]
    · exact absurd h (not_entry_replicate _ _ _ _)

theorem prim_iff (htop : IsTop top) (globalN : Nat) (hvisited : ∀ v, visited v = false)
    (hconnected : (graph G hG).Connected) (src : Fin n) :
    (∃ res, prim top globalN visited G src = some res ∧ Spans G hG res) ↔ n = 1 := by
  rw [prim_eq htop globalN hvisited hconnected src]
  simp only [Option.some_inj, exists_eq_left']
  exact spans_replicate globalN src

def firstTop : List (State n) → Option (State n)
  | [] => none
  | s :: pq =>
      match firstTop pq with
      | none => some s
      | some t => if cmp s t then some t else some s

theorem firstTop_eq_none {pq : List (State n)} (h : firstTop pq = none) : pq = [] := by
  cases pq with
  | nil => rfl
  | cons s pq =>
      rw [firstTop] at h
      split at h
      · cases h
      · split_ifs at h

theorem firstTop_eq_some {pq : List (State n)} {s : State n} (h : firstTop pq = some s) :
    s ∈ pq ∧ ∀ t ∈ pq, t.w ≤ s.w := by
  induction pq generalizing s with
  | nil => cases h
  | cons r pq ih =>
      rw [firstTop] at h
      split at h
      · next hnone =>
          cases firstTop_eq_none hnone
          cases h
          simp
      · next t ht =>
          obtain ⟨hmem, hle⟩ := ih ht
          split_ifs at h with hlt
          · cases h
            rw [cmp] at hlt
            exact ⟨List.mem_cons_of_mem _ hmem, List.forall_mem_cons.mpr ⟨hlt.le, hle⟩⟩
          · cases h
            rw [cmp, not_lt] at hlt
            exact ⟨List.mem_cons_self, List.forall_mem_cons.mpr ⟨le_rfl, fun u hu => (hle u hu).trans hlt⟩⟩

theorem firstTop_isTop : IsTop (firstTop : List (State n) → Option (State n)) where
  exists_top _ hpq := Option.ne_none_iff_exists'.mp fun h => hpq (firstTop_eq_none h)
  mem _ _ h := (firstTop_eq_some h).1
  greatest _ _ h t ht := not_lt.mpr ((firstTop_eq_some h).2 t ht)

theorem connected_pair (hG : ∀ u v : Fin 2, (fun _ _ => 1 : Fin 2 → Fin 2 → Int) u v = (fun _ _ => 1) v u) :
    (graph (fun _ _ : Fin 2 => 1) hG).Connected := by
  have htop : graph (fun _ _ : Fin 2 => 1) hG = ⊤ := by
    ext u v
    simp [graph, intMax]
  exact htop ▸ SimpleGraph.connected_top

theorem prim_iff_pair :
    (∃ res, prim firstTop 2 (fun _ => false) (fun _ _ : Fin 2 => 1) 0 = some res ∧
      Spans (fun _ _ : Fin 2 => 1) (fun _ _ => rfl) res) ↔ 2 = 1 :=
  prim_iff firstTop_isTop 2 (fun _ => rfl) (connected_pair _) 0

theorem pair_not_spanned :
    ¬ ∀ (n : Nat) (top : List (State n) → Option (State n)) (globalN : Nat) (visited : Fin n → Bool)
      (G : Fin n → Fin n → Int) (hG : ∀ u v, G u v = G v u) (src : Fin n), IsTop top → (∀ v, visited v = false) →
      (graph G hG).Connected → ∃ res, prim top globalN visited G src = some res ∧ Spans G hG res := by
  intro h
  obtain ⟨res, hres, hspans⟩ := h 2 firstTop 2 (fun _ => false) (fun _ _ => 1) (fun _ _ => rfl) 0 firstTop_isTop
    (fun _ => rfl) (connected_pair _)
  rw [prim_eq firstTop_isTop 2 (fun _ => rfl) (connected_pair fun _ _ => rfl) 0, Option.some_inj] at hres
  subst hres
  exact absurd ((spans_replicate 2 (0 : Fin 2)).mp hspans) (by decide)

end LearnNote.Algorithm.Prim
