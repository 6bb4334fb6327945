import Mathlib.Algebra.Order.Group.Defs
import LearnNote.Lib.Ledger
import LearnNote.Lib.Transition

namespace LearnNote.Lib

open Transition

/-- A thread that adds to a shared cell: the addends to come, and what it has loaded for the first
of them. -/
structure Adder (M : Type*) where
  todo : List M
  loaded : Option M

structure SharedCell (M : Type*) where
  value : M
  adders : List (Adder M)

namespace SharedCell

inductive Act
  | load (t : Nat)
  | store (t : Nat)

variable {M : Type*} [AddCommGroup M]

/-- An addition is a load and, in another step, a store of the sum. -/
def step : Act → SharedCell M → Option (SharedCell M)
  | .load t, s =>
      match s.adders[t]? with
      | some ⟨x :: todo, none⟩ => some { s with adders := s.adders.set t ⟨x :: todo, some s.value⟩ }
      | _ => none
  | .store t, s =>
      match s.adders[t]? with
      | some ⟨x :: todo, some v⟩ => some ⟨v + x, s.adders.set t ⟨todo, none⟩⟩
      | _ => none

def start (todos : List (List M)) : SharedCell M := ⟨0, todos.map fun todo => ⟨todo, none⟩⟩

def left (s : SharedCell M) : M := (s.adders.map fun r => r.todo.sum).sum

def Finished (s : SharedCell M) : Prop := ∀ r ∈ s.adders, r.todo = []

variable {s s' : SharedCell M} {a : Act} {t u : Nat} {x y v total ε : M} {todo : List M} {r : Adder M}

theorem step_cases (h : step a s = some s') :
    (∃ t x todo, a = .load t ∧ s.adders[t]? = some ⟨x :: todo, none⟩ ∧
      s' = { s with adders := s.adders.set t ⟨x :: todo, some s.value⟩ }) ∨
    ∃ t x todo v, a = .store t ∧ s.adders[t]? = some ⟨x :: todo, some v⟩ ∧
      s' = ⟨v + x, s.adders.set t ⟨todo, none⟩⟩ := by
  cases a with
  | load t =>
      simp only [step] at h
      split at h
      · cases h
        exact .inl ⟨t, _, _, rfl, ‹_›, rfl⟩
      · cases h
  | store t =>
      simp only [step] at h
      split at h
      · cases h
        exact .inr ⟨t, _, _, _, rfl, ‹_›, rfl⟩
      · cases h

theorem left_start (todos : List (List M)) : (start todos).left = (todos.map List.sum).sum := by
  rw [left, start, List.map_map]
  rfl

theorem left_load (ht : s.adders[t]? = some ⟨x :: todo, none⟩) (v : Option M) :
    left { s with adders := s.adders.set t ⟨x :: todo, v⟩ } = s.left := by
  rw [left, Ledger.sum_map_set _ ht, sub_add_cancel]
  rfl

theorem left_store (ht : s.adders[t]? = some ⟨x :: todo, some v⟩) :
    left ⟨v + x, s.adders.set t ⟨todo, none⟩⟩ = s.left - x := by
  rw [left, Ledger.sum_map_set _ ht, List.sum_cons, sub_add_eq_sub_sub, sub_add_cancel]
  rfl

theorem step_of_finished (h : s.Finished) (a : Act) : step a s = none := by
  by_contra hstep
  obtain ⟨s', hs⟩ := Option.ne_none_iff_exists'.mp hstep
  rcases step_cases hs with ⟨t, x, todo, -, ht, -⟩ | ⟨t, x, todo, v, -, ht, -⟩
  · cases h _ (List.mem_of_getElem? ht)
  · cases h _ (List.mem_of_getElem? ht)

theorem left_of_finished (h : s.Finished) : s.left = 0 := by
  rw [left, List.map_congr_left (fun r hr => by rw [h r hr, List.sum_nil])]
  simp

section Exact

/-- The cell, and all that was loaded from it, lack only the addends to come. -/
structure Exact (total : M) (s : SharedCell M) : Prop where
  value : s.value + s.left = total
  loaded : ∀ r ∈ s.adders, ∀ v, r.loaded = some v → v + s.left = total

def Alone (t : Nat) (s : SharedCell M) : Prop :=
  ∀ (u : Nat) (r : Adder M), u ≠ t → s.adders[u]? = some r → r.loaded = none

/-- An addition ends while no other one is under way. -/
def Serial : Act → SharedCell M → Prop
  | .load _, _ => True
  | .store t, s => Alone t s

/-- Under a lock an addition begins while no other one is under way. -/
def Locked : Act → SharedCell M → Prop
  | .load _, s => ∀ r ∈ s.adders, r.loaded = none
  | .store _, _ => True

theorem Exact.start (todos : List (List M)) : Exact (todos.map List.sum).sum (start todos) := by
  refine ⟨?_, ?_⟩
  · rw [left_start]
    exact zero_add _
  · intro r hr v hv
    obtain ⟨todo, -, rfl⟩ := List.mem_map.mp hr
    cases hv

theorem Exact.step (h : Exact total s) (hc : Serial a s) (hs : step a s = some s') : Exact total s' := by
  rcases step_cases hs with ⟨t, x, todo, rfl, ht, rfl⟩ | ⟨t, x, todo, v, rfl, ht, rfl⟩
  · refine ⟨?_, fun r hr w hw => ?_⟩
    · rw [left_load ht]
      exact h.value
    · rw [left_load ht]
      rcases List.mem_or_eq_of_mem_set hr with hr | rfl
      · exact h.loaded r hr w hw
      · cases hw
        exact h.value
  · refine ⟨?_, fun r hr w hw => ?_⟩
    · have hv := h.loaded _ (List.mem_of_getElem? ht) v rfl
      rw [left_store ht, add_assoc, add_sub_cancel]
      exact hv
    · obtain ⟨u, hu⟩ := List.mem_iff_getElem?.mp hr
      by_cases hut : u = t
      · subst hut
        rw [List.getElem?_set_self (List.getElem?_eq_some_iff.mp ht).1] at hu
        cases hu
        cases hw
      · rw [List.getElem?_set_ne (Ne.symm hut)] at hu
        rw [hc u r hut hu] at hw
        cases hw

/-- Under a lock at most one addition is under way. -/
structure Sole (s : SharedCell M) : Prop where
  one : ∀ (t u : Nat) (r r' : Adder M), s.adders[t]? = some r → s.adders[u]? = some r' → r.loaded ≠ none →
    r'.loaded ≠ none → t = u
  busy : ∀ r ∈ s.adders, r.loaded ≠ none → r.todo ≠ []

omit [AddCommGroup M] in
theorem Sole.alone (h : Sole s) (ht : s.adders[t]? = some r) (hr : r.loaded ≠ none) : Alone t s := by
  intro u r' hut hu
  by_contra hr'
  exact hut (h.one u t r' r hu ht hr' hr)

theorem Sole.start (todos : List (List M)) : Sole (start todos) := by
  have hnone : ∀ r ∈ (SharedCell.start todos).adders, r.loaded = none := by
    intro r hr
    obtain ⟨todo, -, rfl⟩ := List.mem_map.mp hr
    rfl
  exact ⟨fun t u r r' ht _ hr => absurd (hnone r (List.mem_of_getElem? ht)) hr, fun r hr hl => absurd (hnone r hr) hl⟩

omit [AddCommGroup M] in
theorem loaded_of_set {l : List (Adder M)} (hr : (l.set t ⟨todo, none⟩)[u]? = some r) (hl : r.loaded ≠ none) :
    l[u]? = some r := by
  by_cases hut : u = t
  · subst hut
    rw [List.getElem?_set_self'] at hr
    obtain ⟨_, -, rfl⟩ := Option.map_eq_some_iff.mp hr
    exact absurd rfl hl
  · rwa [List.getElem?_set_ne (Ne.symm hut)] at hr

theorem Sole.step (h : Sole s) (hc : Locked a s) (hs : step a s = some s') : Sole s' ∧ Serial a s := by
  rcases step_cases hs with ⟨t, x, todo, rfl, ht, rfl⟩ | ⟨t, x, todo, v, rfl, ht, rfl⟩
  · have hself : ∀ u (r : Adder M), (s.adders.set t ⟨x :: todo, some s.value⟩)[u]? = some r → r.loaded ≠ none →
        u = t := by
      intro u r hu hr
      by_contra hut
      rw [List.getElem?_set_ne (Ne.symm hut)] at hu
      exact hr (hc r (List.mem_of_getElem? hu))
    refine ⟨⟨fun u w r r' hu hw hr hr' => ?_, fun r hr hl => ?_⟩, trivial⟩
    · rw [hself u r hu hr, hself w r' hw hr']
    · rcases List.mem_or_eq_of_mem_set hr with hr | rfl
      · exact h.busy r hr hl
      · exact List.cons_ne_nil _ _
  · refine ⟨⟨fun u w r r' hu hw hr hr' => ?_, fun r hr hl => ?_⟩, h.alone ht (by simp)⟩
    · exact h.one u w r r' (loaded_of_set hu hr) (loaded_of_set hw hr') hr hr'
    · rcases List.mem_or_eq_of_mem_set hr with hr | rfl
      · exact h.busy r hr hl
      · exact absurd rfl hl

theorem finished_or_goes_on (h : Sole s) : s.Finished ∨ ∃ a s', Locked a s ∧ step a s = some s' := by
  by_cases hfree : ∀ r ∈ s.adders, r.loaded = none
  · by_cases hdone : s.Finished
    · exact .inl hdone
    · obtain ⟨⟨todo, loaded⟩, hr⟩ := not_forall.mp hdone
      obtain ⟨hmem, htodo⟩ := Classical.not_imp.mp hr
      obtain ⟨x, todo, rfl⟩ := List.exists_cons_of_ne_nil htodo
      obtain rfl : loaded = none := hfree _ hmem
      obtain ⟨t, ht⟩ := List.mem_iff_getElem?.mp hmem
      refine .inr ⟨.load t, { s with adders := s.adders.set t ⟨x :: todo, some s.value⟩ }, hfree, ?_⟩
      simp only [step, ht]
  · obtain ⟨⟨todo, loaded⟩, hr⟩ := not_forall.mp hfree
    obtain ⟨hmem, hloaded⟩ := Classical.not_imp.mp hr
    obtain ⟨x, todo, rfl⟩ := List.exists_cons_of_ne_nil (h.busy _ hmem hloaded)
    obtain ⟨v, rfl⟩ := Option.ne_none_iff_exists'.mp hloaded
    obtain ⟨t, ht⟩ := List.mem_iff_getElem?.mp hmem
    refine .inr ⟨.store t, ⟨v + x, s.adders.set t ⟨todo, none⟩⟩, trivial, ?_⟩
    simp only [step, ht]

/-- Under a lock the sum is exact when no addition can go on any more. -/
theorem value_of_locked {todos : List (List M)} (h : Reachable (· = start todos) step Locked s) :
    (∃ a s', Locked a s ∧ step a s = some s') ∨ s.value = (todos.map List.sum).sum := by
  have hboth := h.invariant (I := fun s => Exact (todos.map List.sum).sum s ∧ Sole s) ?_ ?_
  · rcases finished_or_goes_on hboth.2 with hdone | hgoes
    · have hvalue := hboth.1.value
      rw [left_of_finished hdone, add_zero] at hvalue
      exact .inr hvalue
    · exact .inl hgoes
  · rintro _ rfl
    exact ⟨Exact.start todos, Sole.start todos⟩
  · rintro a s s' ⟨hexact, hsole⟩ hc hs
    obtain ⟨hsole', hserial⟩ := hsole.step hc hs
    exact ⟨hexact.step hserial hs, hsole'⟩

theorem value_of_serial {as : List Act} {s₀ : SharedCell M} (h : Exact total s₀)
    (hserial : ∀ bs a s, bs ++ [a] <+: as → run step bs s₀ = some s → Serial a s)
    (has : run step as s₀ = some s') (hdone : s'.Finished) : s'.value = total := by
  have hexact : Exact total s' := by
    induction as generalizing s₀ with
    | nil =>
        cases has
        exact h
    | cons a as ih =>
        obtain ⟨u, hs, hr⟩ := Option.bind_eq_some_iff.mp has
        refine ih (h.step (hserial [] a s₀ (List.prefix_append [a] as) rfl) hs) ?_ hr
        intro bs b s hprefix hbs
        refine hserial (a :: bs) b s ((List.prefix_cons_inj a).mpr hprefix) ?_
        rw [run, hs]
        exact hbs
  have hvalue := hexact.value
  rwa [left_of_finished hdone, add_zero] at hvalue

end Exact

section Bounded

variable [LinearOrder M] [IsOrderedAddMonoid M]

/-- The cell, and all that was loaded from it, lack at least the addends to come. -/
structure Bounded (total : M) (s : SharedCell M) : Prop where
  value : s.value + s.left ≤ total
  loaded : ∀ r ∈ s.adders, ∀ v, r.loaded = some v → v + s.left ≤ total
  nonneg : ∀ r ∈ s.adders, ∀ x ∈ r.todo, 0 ≤ x

omit [IsOrderedAddMonoid M] in
theorem Bounded.start {todos : List (List M)} (h : ∀ todo ∈ todos, ∀ x ∈ todo, 0 ≤ x) :
    Bounded (todos.map List.sum).sum (start todos) := by
  have hexact := Exact.start todos
  refine ⟨le_of_eq hexact.value, fun r hr v hv => le_of_eq (hexact.loaded r hr v hv), ?_⟩
  intro r hr
  obtain ⟨todo, htodo, rfl⟩ := List.mem_map.mp hr
  exact h todo htodo

theorem Bounded.step (h : Bounded total s) (hs : step a s = some s') : Bounded total s' := by
  rcases step_cases hs with ⟨t, x, todo, rfl, ht, rfl⟩ | ⟨t, x, todo, v, rfl, ht, rfl⟩
  · have hx := h.nonneg _ (List.mem_of_getElem? ht)
    refine ⟨?_, fun r hr w hw => ?_, fun r hr => ?_⟩
    · rw [left_load ht]
      exact h.value
    · rw [left_load ht]
      rcases List.mem_or_eq_of_mem_set hr with hr | rfl
      · exact h.loaded r hr w hw
      · cases hw
        exact h.value
    · rcases List.mem_or_eq_of_mem_set hr with hr | rfl
      · exact h.nonneg r hr
      · exact hx
  · have hx := h.nonneg _ (List.mem_of_getElem? ht)
    refine ⟨?_, fun r hr w hw => ?_, fun r hr => ?_⟩
    · rw [left_store ht, add_assoc, add_sub_cancel]
      exact h.loaded _ (List.mem_of_getElem? ht) v rfl
    · rw [left_store ht]
      rcases List.mem_or_eq_of_mem_set hr with hr | rfl
      · refine le_trans (add_le_add_right ?_ w) (h.loaded r hr w hw)
        exact sub_le_self _ (hx x List.mem_cons_self)
      · cases hw
    · rcases List.mem_or_eq_of_mem_set hr with hr | rfl
      · exact h.nonneg r hr
      · exact fun y hy => hx y (List.mem_cons_of_mem _ hy)

/-- An addition is under way that does not know of one that has ended since. -/
structure Stale (total ε : M) (s : SharedCell M) : Prop where
  bounded : Bounded total s
  stale : ∃ (u : Nat) (x : M) (todo : List M) (v : M), s.adders[u]? = some ⟨x :: todo, some v⟩ ∧ ε ≤ x ∧
    v + s.left ≤ total - ε

/-- When it ends, the other one is lost, or had taken it in too late. -/
theorem Stale.step (h : Stale total ε s) (hs : step a s = some s') : Stale total ε s' ∨ Bounded (total - ε) s' := by
  obtain ⟨u, y, rest, w, hu, hy, hw⟩ := h.stale
  have hbounded := h.bounded.step hs
  rcases step_cases hs with ⟨t, x, todo, rfl, ht, rfl⟩ | ⟨t, x, todo, v, rfl, ht, rfl⟩
  · left
    have hut : u ≠ t := by
      rintro rfl
      cases hu.symm.trans ht
    refine ⟨hbounded, u, y, rest, w, ?_, hy, ?_⟩
    · rw [List.getElem?_set_ne (Ne.symm hut)]
      exact hu
    · rw [left_load ht]
      exact hw
  · by_cases hut : u = t
    · subst hut
      cases hu.symm.trans ht
      refine .inr ⟨?_, fun r hr w' hw' => ?_, hbounded.nonneg⟩
      · rw [left_store ht, add_assoc, add_sub_cancel]
        exact hw
      · rw [left_store ht]
        rcases List.mem_or_eq_of_mem_set hr with hr | rfl
        · rw [← add_sub_assoc]
          exact sub_le_sub (h.bounded.loaded r hr w' hw') hy
        · cases hw'
    · left
      refine ⟨hbounded, u, y, rest, w, ?_, hy, ?_⟩
      · rw [List.getElem?_set_ne (Ne.symm hut)]
        exact hu
      · rw [left_store ht]
        refine le_trans (add_le_add_right ?_ w) hw
        exact sub_le_self _ (h.bounded.nonneg _ (List.mem_of_getElem? ht) x List.mem_cons_self)

def Crosses (t : Nat) (x y : M) (s : SharedCell M) : Prop :=
  ∃ (u : Nat) (todo todo' : List M) (v v' : M), u ≠ t ∧ s.adders[t]? = some ⟨x :: todo, some v⟩ ∧
    s.adders[u]? = some ⟨y :: todo', some v'⟩

theorem stale_of_crosses (h : Bounded total s) (hc : Crosses t x y s) (hx : ε ≤ x) (hy : ε ≤ y)
    (hs : step (.store t) s = some s') : Stale total ε s' := by
  obtain ⟨u, todo, todo', v, v', hut, ht, hu⟩ := hc
  refine ⟨h.step hs, u, y, todo', v', ?_⟩
  simp only [step, ht, Option.some.injEq] at hs
  subst hs
  refine ⟨?_, hy, ?_⟩
  · rw [List.getElem?_set_ne (Ne.symm hut)]
    exact hu
  · rw [left_store ht, ← add_sub_assoc]
    exact sub_le_sub (h.loaded _ (List.mem_of_getElem? hu) v' rfl) hx

omit [IsOrderedAddMonoid M] in
/-- Without a lock: the sum is at most that of all addends. -/
theorem value_le (h : Bounded total s) (hdone : s.Finished) : s.value ≤ total := by
  have hvalue := h.value
  rwa [left_of_finished hdone, add_zero] at hvalue

theorem value_of_crosses {as bs : List Act} {s₀ s₁ : SharedCell M} (h : Bounded total s₀)
    (hbs : run step bs s₀ = some s) (hc : Crosses t x y s) (hs : step (.store t) s = some s₁)
    (has : run step as s₁ = some s') (hdone : s'.Finished) : s'.value + min x y ≤ total := by
  have hbefore : Bounded total s := run_keeps (fun _ _ _ => Bounded.step) h hbs
  have hafter : Stale total (min x y) s' ∨ Bounded (total - min x y) s' := by
    refine run_keeps (I := fun s => Stale total (min x y) s ∨ Bounded (total - min x y) s) ?_
      (.inl (stale_of_crosses hbefore hc (min_le_left x y) (min_le_right x y) hs)) has
    rintro a s s' (hstale | hbounded) hs
    · exact hstale.step hs
    · exact .inr (hbounded.step hs)
  rcases hafter with hstale | hbounded
  · obtain ⟨u, z, todo, v, hu, -⟩ := hstale.stale
    cases hdone _ (List.mem_of_getElem? hu)
  · exact le_sub_iff_add_le.mp (value_le hbounded hdone)

end Bounded

end SharedCell

end LearnNote.Lib
