import LearnNote.Lib.Flags
import LearnNote.Lib.Loops

namespace LearnNote.Algorithm.Bipartite

open Lib

structure Globals where
  ok : Bool
  color : List Bool
  visited : List Bool

/-- The loop over the neighbours of i. No result, here and below, is an access outside a vector. -/
def forNeighbours (i : Nat) : List Nat → Globals → Option Globals
  | [], g => some g
  | j :: row, g => g.visited[j]?.bind fun seen => g.color[i]?.bind fun c => g.color[j]?.bind fun d =>
      if !seen then forNeighbours i row { g with color := g.color.set j (!c) }
      else if c = d then some { g with ok := false }
      else forNeighbours i row g

/-- The source does not go on to the neighbours. -/
def traverse (G : List (List Nat)) (i : Nat) (g : Globals) : Option Globals :=
  if !g.ok then some g
  else G[i]?.bind fun row => forNeighbours i row { g with visited := g.visited.set i true }

def isBipartite (G : List (List Nat)) (g : Globals) : Option Globals :=
  (List.range G.length).foldlM (fun g i => g.visited[i]?.bind fun seen => if !seen then traverse G i g else some g)
    { g with color := List.replicate G.length false, visited := List.replicate G.length false }

def Adjacent (G : List (List Nat)) (i j : Nat) : Prop := ∃ row, G[i]? = some row ∧ j ∈ row

/-- The lists are symmetric, and so of the vertices 0, …, n - 1. -/
def Undirected (G : List (List Nat)) : Prop := ∀ i j, Adjacent G i j → Adjacent G j i

def Proper (G : List (List Nat)) (c : Nat → Bool) : Prop := ∀ i j, Adjacent G i j → c i ≠ c j

/-- All neighbours have a greater number. -/
def Lowest (G : List (List Nat)) (v : Nat) : Prop := ∀ w, Adjacent G v w → v ≤ w

/-- A proper colouring in which all such vertices have the colour that a vertex begins with. -/
def Rooted (G : List (List Nat)) (c : Nat → Bool) : Prop := Proper G c ∧ ∀ v, Lowest G v → c v = false

/-- Before vertex k, with the edges gone through. Every rooted colouring agrees with the colours that
are decided. -/
structure Colored (G : List (List Nat)) (k : Nat) (through : Nat → Nat → Prop) (g : Globals) : Prop where
  ok : g.ok = true
  color_length : g.color.length = G.length
  visited_length : g.visited.length = G.length
  below : ∀ u v, through u v → u < k
  visited : ∀ v < G.length, g.visited[v]? = some (decide (v < k))
  lowest : ∀ v < G.length, Lowest G v → g.color[v]? = some false
  proper : ∀ u v, through u v → v ≤ u → g.color[u]? ≠ g.color[v]?
  agrees : ∀ c, Rooted G c → ∀ v < G.length, (v < k ∨ ∃ u, through u v) → g.color[v]? = some (c v)

structure Stuck (G : List (List Nat)) (g : Globals) : Prop where
  ok : g.ok = false
  none : ¬ ∃ c, Rooted G c
  visited_length : g.visited.length = G.length

variable {G : List (List Nat)} {i j k : Nat} {g : Globals} {through through' : Nat → Nat → Prop} {row : List Nat}

theorem Adjacent.lt (h : Adjacent G i j) : i < G.length := by
  obtain ⟨row, hrow, -⟩ := h
  exact (List.getElem?_eq_some_iff.mp hrow).1

theorem mem_getD : j ∈ G[i]?.getD [] ↔ Adjacent G i j := by
  cases h : G[i]? <;> simp [Adjacent, h]

instance : Decidable (Adjacent G i j) := decidable_of_iff _ mem_getD

theorem forall_adjacent {P : Nat → Nat → Prop} (h : ∀ i < G.length, ∀ j ∈ G[i]?.getD [], P i j) :
    ∀ i j, Adjacent G i j → P i j := fun i j hij => h i hij.lt j (mem_getD.mpr hij)

theorem Colored.congr (h : Colored G k through g) (he : ∀ u v, through u v ↔ through' u v) :
    Colored G k through' g := by
  have : through = through' := by
    funext u v
    exact propext (he u v)
  exact this ▸ h

def Before (G : List (List Nat)) (k u v : Nat) : Prop := u < k ∧ Adjacent G u v

theorem colored_start (ok : g.ok = true) :
    Colored G 0 (Before G 0)
      { g with color := List.replicate G.length false, visited := List.replicate G.length false } where
  ok := ok
  color_length := List.length_replicate
  visited_length := List.length_replicate
  below _ _ h := h.1
  visited v hv := by simp [hv]
  lowest v hv _ := by simp [hv]
  proper u v h := absurd h.1 (Nat.not_lt_zero u)
  agrees c _ v _ h := by
    rcases h with h | ⟨u, h, -⟩
    · exact absurd h (Nat.not_lt_zero v)
    · exact absurd h (Nat.not_lt_zero u)

theorem Colored.enter (hG : Undirected G) (h : Colored G i (Before G i) g) (hi : i < G.length) :
    Colored G (i + 1) (Before G i) { g with visited := g.visited.set i true } where
  ok := h.ok
  color_length := h.color_length
  visited_length := by rw [List.length_set, h.visited_length]
  below u v hu := (h.below u v hu).trans (Nat.lt_succ_self i)
  visited v hv := by
    by_cases he : i = v
    · subst he
      rw [List.getElem?_set_self (h.visited_length ▸ hi)]
      simp
    · rw [List.getElem?_set_ne he, h.visited v hv]
      have hiff : v < i ↔ v < i + 1 := by omega
      simp only [hiff]
  lowest := h.lowest
  proper := h.proper
  agrees c hc v hv hdecided := by
    by_cases hbefore : v < i ∨ ∃ u, Before G i u v
    · exact h.agrees c hc v hv hbefore
    · rw [not_or] at hbefore
      have he : v = i := by
        rcases hdecided with hlt | hu
        · omega
        · exact absurd hu hbefore.2
      subst he
      have hlowest : Lowest G v := by
        intro w hw
        by_contra hlt
        exact hbefore.2 ⟨w, by omega, hG v w hw⟩
      rw [h.lowest v hv hlowest, hc.2 v hlowest]

def Also (through : Nat → Nat → Prop) (i j u v : Nat) : Prop := through u v ∨ u = i ∧ v = j

theorem Colored.mark (hG : Undirected G) (h : Colored G (i + 1) through g) (hij : Adjacent G i j) (hlt : i < j)
    {b : Bool} (hb : g.color[i]? = some b) :
    Colored G (i + 1) (Also through i j) { g with color := g.color.set j (!b) } := by
  have hj := (hG i j hij).lt
  refine ⟨h.ok, by rw [List.length_set, h.color_length], h.visited_length, ?_, h.visited, ?_, ?_, ?_⟩
  · rintro u v (hu | ⟨rfl, rfl⟩)
    · exact h.below u v hu
    · exact Nat.lt_succ_self _
  · intro v hv hlowest
    have hne : j ≠ v := by
      rintro rfl
      exact absurd (hlowest i (hG i j hij)) (by omega)
    rw [List.getElem?_set_ne hne]
    exact h.lowest v hv hlowest
  · rintro u v (hu | ⟨rfl, rfl⟩) hvu
    · have hlow := h.below u v hu
      rw [List.getElem?_set_ne (by omega), List.getElem?_set_ne (by omega)]
      exact h.proper u v hu hvu
    · omega
  · intro c hc v hv hdecided
    by_cases he : j = v
    · subst he
      have hi := h.agrees c hc i hij.lt (.inl (Nat.lt_succ_self i))
      have hci : c i = b := Option.some_inj.mp (hi.symm.trans hb)
      have hne := hc.1 i j hij
      rw [List.getElem?_set_self (h.color_length ▸ hj), ← hci]
      cases hi : c i <;> cases hj : c j <;> simp_all
    · rw [List.getElem?_set_ne he]
      refine h.agrees c hc v hv (hdecided.imp_right ?_)
      rintro ⟨u, hu | ⟨-, rfl⟩⟩
      · exact ⟨u, hu⟩
      · exact absurd rfl he

theorem Colored.check (h : Colored G (i + 1) through g) (hle : j ≤ i) (hne : g.color[i]? ≠ g.color[j]?) :
    Colored G (i + 1) (Also through i j) g := by
  refine ⟨h.ok, h.color_length, h.visited_length, ?_, h.visited, h.lowest, ?_, ?_⟩
  · rintro u v (hu | ⟨rfl, rfl⟩)
    · exact h.below u v hu
    · exact Nat.lt_succ_self _
  · rintro u v (hu | ⟨rfl, rfl⟩) hvu
    · exact h.proper u v hu hvu
    · exact hne
  · intro c hc v hv hdecided
    refine h.agrees c hc v hv ?_
    rcases hdecided with hv | ⟨u, hu | ⟨-, rfl⟩⟩
    · exact .inl hv
    · exact .inr ⟨u, hu⟩
    · exact .inl (Nat.lt_succ_of_le hle)

theorem Colored.conflict (h : Colored G (i + 1) through g) (hij : Adjacent G i j) (hj : j < G.length) (hle : j ≤ i)
    (he : g.color[i]? = g.color[j]?) : Stuck G { g with ok := false } := by
  refine ⟨rfl, ?_, h.visited_length⟩
  rintro ⟨c, hc⟩
  rw [h.agrees c hc i hij.lt (.inl (Nat.lt_succ_self i)), h.agrees c hc j hj (.inl (Nat.lt_succ_of_le hle))] at he
  exact hc.1 i j hij (Option.some_inj.mp he)

theorem forNeighbours_spec (hG : Undirected G) (hrow : ∀ j ∈ row, Adjacent G i j) (hi : i < G.length)
    (h : Colored G (i + 1) through g) :
    ∃ g', forNeighbours i row g = some g' ∧
      (Stuck G g' ∨ Colored G (i + 1) (fun u v => through u v ∨ u = i ∧ v ∈ row) g') := by
  induction row generalizing g through with
  | nil => exact ⟨g, rfl, .inr (h.congr fun u v => by simp)⟩
  | cons j row ih =>
      have hij := hrow j List.mem_cons_self
      have hj := (hG i j hij).lt
      have hrest : ∀ k ∈ row, Adjacent G i k := fun k hk => hrow k (List.mem_cons_of_mem _ hk)
      have hi' := List.getElem?_eq_getElem (h.color_length ▸ hi : i < g.color.length)
      have hj' := List.getElem?_eq_getElem (h.color_length ▸ hj : j < g.color.length)
      have hsplit : ∀ u v, (Also through i j u v ∨ u = i ∧ v ∈ row) ↔ (through u v ∨ u = i ∧ v ∈ j :: row) := by
        intro u v
        rw [Also, List.mem_cons]
        tauto
      rw [forNeighbours, h.visited j hj, Option.bind_some, hi', Option.bind_some, hj', Option.bind_some]
      by_cases hlt : j < i + 1
      · rw [decide_eq_true hlt, if_neg (by simp)]
        split_ifs with he
        · exact ⟨_, rfl, .inl (h.conflict hij hj (Nat.le_of_lt_succ hlt) (by rw [hi', hj', he]))⟩
        · have hchecked := h.check (Nat.le_of_lt_succ hlt) (by rw [hi', hj']; simpa using he)
          obtain ⟨g', hg', hend⟩ := ih hrest hchecked
          exact ⟨g', hg', hend.imp_right fun h => h.congr hsplit⟩
      · rw [decide_eq_false hlt, if_pos (by simp)]
        obtain ⟨g', hg', hend⟩ := ih hrest (h.mark hG hij (by omega) hi')
        exact ⟨g', hg', hend.imp_right fun h => h.congr hsplit⟩

theorem traverse_spec (hG : Undirected G) (hi : i < G.length) (h : Colored G i (Before G i) g) :
    ∃ g', traverse G i g = some g' ∧ (Stuck G g' ∨ Colored G (i + 1) (Before G (i + 1)) g') := by
  have hrow := List.getElem?_eq_getElem hi
  obtain ⟨g', hg', hend⟩ := forNeighbours_spec hG (fun j hj => ⟨_, hrow, hj⟩) hi (h.enter hG hi)
  refine ⟨g', ?_, hend.imp_right fun h => h.congr fun u v => ?_⟩
  · rw [traverse, if_neg (by simp [h.ok]), hrow, Option.bind_some, hg']
  · rw [Before, Before, Nat.lt_succ_iff_lt_or_eq, or_and_right]
    refine or_congr Iff.rfl (and_congr_right fun he => ⟨fun hv => ⟨_, he ▸ hrow, hv⟩, ?_⟩)
    rintro ⟨row, hrow', hv⟩
    rw [he, hrow] at hrow'
    exact Option.some_inj.mp hrow' ▸ hv

theorem Colored.rooted (hG : Undirected G) (h : Colored G G.length (Before G G.length) g) :
    Rooted G fun v => g.color[v]?.getD false := by
  have hdiffer : ∀ u v, Adjacent G u v → v ≤ u → g.color[u]?.getD false ≠ g.color[v]?.getD false := by
    intro u v huv hle he
    have hu := List.getElem?_eq_getElem (h.color_length ▸ huv.lt : u < g.color.length)
    have hv := List.getElem?_eq_getElem (h.color_length ▸ (hG u v huv).lt : v < g.color.length)
    refine h.proper u v ⟨huv.lt, huv⟩ hle ?_
    rw [hu, hv] at he ⊢
    exact congrArg some he
  refine ⟨fun i j hij => ?_, fun v hlowest => ?_⟩
  · rcases Nat.le_total j i with hle | hle
    · exact hdiffer i j hij hle
    · exact (hdiffer j i (hG i j hij) hle).symm
  · by_cases hv : v < G.length
    · simp only [h.lowest v hv hlowest, Option.getD_some]
    · simp only [List.getElem?_eq_none (by rw [h.color_length]; omega : g.color.length ≤ v), Option.getD_none]

/-- What the run comes to, for any symmetric lists. -/
theorem isBipartite_ok_iff (hG : Undirected G) (hok : g.ok = true) :
    ∃ g', isBipartite G g = some g' ∧ (g'.ok = true ↔ ∃ c, Rooted G c) := by
  have hround : ∀ i < G.length, ∀ g, (Stuck G g ∨ Colored G i (Before G i) g) →
      ∃ g', (g.visited[i]?.bind fun seen => if !seen then traverse G i g else some g) = some g' ∧
        (Stuck G g' ∨ Colored G (i + 1) (Before G (i + 1)) g') := by
    rintro i hi g (h | h)
    · refine ⟨g, ?_, .inl h⟩
      have hstay : traverse G i g = some g := by rw [traverse, if_pos (by simp [h.ok])]
      rw [List.getElem?_eq_getElem (h.visited_length ▸ hi), Option.bind_some, hstay, ite_self]
    · obtain ⟨g', hg', hend⟩ := traverse_spec hG hi h
      refine ⟨g', ?_, hend⟩
      rw [h.visited i hi, Option.bind_some, decide_eq_false (lt_irrefl i), if_pos (by simp), hg']
  obtain ⟨g', hg', hend⟩ := Loops.forRange_spec (I := fun i g => Stuck G g ∨ Colored G i (Before G i) g)
    (.inr (colored_start hok)) hround
  refine ⟨g', hg', ?_⟩
  rcases hend with h | h
  · exact iff_of_false (by simp [h.ok]) h.none
  · exact iff_of_true h.ok ⟨_, h.rooted hG⟩

/-- Without going on to the neighbours the verdict is right exactly if there is no proper colouring,
or one in which every vertex without a neighbour of a smaller number has the same colour. -/
theorem isBipartite_iff (hG : Undirected G) (hok : g.ok = true) :
    (∃ g', isBipartite G g = some g' ∧ (g'.ok = true ↔ ∃ c, Proper G c)) ↔
      (¬ ∃ c, Proper G c) ∨ ∃ c, Proper G c ∧ ∀ v, Lowest G v → c v = false := by
  obtain ⟨g', hg', hiff⟩ := isBipartite_ok_iff hG hok
  rw [hg']
  simp only [Option.some_inj, exists_eq_left', hiff]
  constructor
  · intro h
    by_cases hc : ∃ c, Proper G c
    · exact .inr (h.mpr hc)
    · exact .inl hc
  · rintro (hnone | hc)
    · exact iff_of_false (fun ⟨c, hc⟩ => hnone ⟨c, hc.1⟩) hnone
    · exact iff_of_true hc (hc.imp fun c hc => hc.1)

theorem isBipartite_iff_edge :
    (∃ g', isBipartite [[1], [0]] ⟨true, [], []⟩ = some g' ∧ (g'.ok = true ↔ ∃ c, Proper [[1], [0]] c)) ↔
      (¬ ∃ c, Proper [[1], [0]] c) ∨ ∃ c, Proper [[1], [0]] c ∧ ∀ v, Lowest [[1], [0]] v → c v = false :=
  isBipartite_iff (forall_adjacent (by decide)) rfl

theorem path_not_bipartite :
    ¬ ∀ (G : List (List Nat)) (g : Globals), Undirected G → g.ok = true →
      ∃ g', isBipartite G g = some g' ∧ (g'.ok = true ↔ ∃ c, Proper G c) := by
  intro h
  obtain ⟨g', hg', hiff⟩ := h [[3], [2], [3, 1], [0, 2]] ⟨true, [], []⟩ (forall_adjacent (by decide)) rfl
  have hcomputed : isBipartite [[3], [2], [3, 1], [0, 2]] ⟨true, [], []⟩ =
      some ⟨false, [false, false, true, false], [true, true, true, true]⟩ := rfl
  cases hcomputed.symm.trans hg'
  exact absurd (hiff.mpr ⟨fun v => decide (v = 0 ∨ v = 2), forall_adjacent (by decide)⟩) Bool.false_ne_true

end LearnNote.Algorithm.Bipartite
