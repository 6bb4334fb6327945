import Mathlib.Data.List.Nodup
import Mathlib.Data.List.Sort

namespace LearnNote.Lib.SortedChoices

variable {α : Type*} [LinearOrder α] {prev : Option α} {l t : List α}

/-- The choices that begin in l. An element equal to the one before it begins none. -/
def branches : Option α → List α → List (List α)
  | _, [] => []
  | prev, x :: l => (if prev = some x then [] else ([] :: branches none l).map (x :: ·)) ++ branches (some x) l

def choices (l : List α) : List (List α) := [] :: branches none l

theorem mem_choices_of (h : ∀ t, t ∈ branches none l ↔ t.Sublist l ∧ t ≠ [] ∧ t.head? ≠ none) :
    t ∈ choices l ↔ t.Sublist l := by
  rw [choices, List.mem_cons, h]
  cases t with
  | nil => simp
  | cons x u => simp

theorem mem_branches_cons {x y : α} : y :: t ∈ branches prev (x :: l) ↔
    (prev ≠ some x ∧ y = x ∧ t ∈ choices l) ∨ y :: t ∈ branches (some x) l := by
  rw [branches, List.mem_append]
  by_cases h : prev = some x
  · simp [h]
  · rw [if_neg h, ← choices, List.mem_map]
    refine or_congr ⟨?_, ?_⟩ Iff.rfl
    · rintro ⟨u, hu, he⟩
      obtain ⟨rfl, rfl⟩ := List.cons.inj he
      exact ⟨h, rfl, hu⟩
    · rintro ⟨-, rfl, ht⟩
      exact ⟨t, ht, rfl⟩

theorem nil_not_mem_branches : [] ∉ branches prev l := by
  induction l generalizing prev with
  | nil => exact List.not_mem_nil
  | cons x l ih =>
      rw [branches, List.mem_append, not_or]
      refine ⟨?_, ih⟩
      split_ifs <;> simp

/-- In a sorted list, what is chosen is what is sorted in it and does not begin as the element before does. -/
theorem mem_branches (h : (prev.toList ++ l).Pairwise (· ≤ ·)) :
    t ∈ branches prev l ↔ t.Sublist l ∧ t ≠ [] ∧ t.head? ≠ prev := by
  induction l generalizing prev t with
  | nil =>
      simp only [branches, List.not_mem_nil, List.sublist_nil, false_iff, not_and]
      exact fun he hne => absurd he hne
  | cons x l ih =>
      obtain ⟨-, hl, hprev⟩ := List.pairwise_append.mp h
      obtain ⟨hx, htail⟩ := List.pairwise_cons.mp hl
      have hnone := @ih none
      have hsome := @ih (some x)
      simp only [Option.toList_none, List.nil_append, Option.toList_some, List.singleton_append] at hnone hsome
      cases t with
      | nil => exact iff_of_false nil_not_mem_branches fun ⟨_, hne, _⟩ => hne rfl
      | cons y u =>
          rw [mem_branches_cons, mem_choices_of fun _ => hnone htail, hsome hl, List.head?_cons]
          by_cases he : y = x
          · subst he
            simp [eq_comm, and_comm]
          · have hsub : (y :: u).Sublist (x :: l) ↔ (y :: u).Sublist l := by
              rw [List.sublist_cons_iff]
              exact or_iff_left fun ⟨_, hcons, _⟩ => he (List.cons.inj hcons).1
            have hne : (y :: u).Sublist l → some y ≠ prev := by
              rintro hsub rfl
              have hyx : y ≤ x := hprev y (by simp) x List.mem_cons_self
              exact he (le_antisymm hyx (hx y (hsub.subset List.mem_cons_self)))
            rw [hsub]
            constructor
            · rintro (⟨-, rfl, -⟩ | ⟨hu, hnil, -⟩)
              · exact absurd rfl he
              · exact ⟨hu, hnil, hne hu⟩
            · exact fun ⟨hu, hnil, _⟩ => .inr ⟨hu, hnil, by simpa using he⟩

theorem mem_choices (h : l.Pairwise (· ≤ ·)) : t ∈ choices l ↔ t.Sublist l :=
  mem_choices_of fun _ => mem_branches (by simpa using h)

theorem nodup_branches (h : (prev.toList ++ l).Pairwise (· ≤ ·)) : (branches prev l).Nodup := by
  induction l generalizing prev with
  | nil => exact List.nodup_nil
  | cons x l ih =>
      obtain ⟨-, hl, -⟩ := List.pairwise_append.mp h
      obtain ⟨-, htail⟩ := List.pairwise_cons.mp hl
      have hsome : ((some x).toList ++ l).Pairwise (· ≤ ·) := by simpa using hl
      have hnone : ((none : Option α).toList ++ l).Pairwise (· ≤ ·) := by simpa using htail
      rw [branches]
      refine List.nodup_append'.mpr ⟨?_, ih hsome, ?_⟩
      · split_ifs
        · exact List.nodup_nil
        · refine List.Nodup.map (fun _ _ he => (List.cons.inj he).2) ?_
          exact List.nodup_cons.mpr ⟨nil_not_mem_branches, ih hnone⟩
      · intro t ht ht'
        obtain ⟨-, -, hhead⟩ := (mem_branches hsome).mp ht'
        split_ifs at ht
        · exact List.not_mem_nil ht
        · obtain ⟨u, -, rfl⟩ := List.mem_map.mp ht
          exact hhead rfl

theorem nodup_choices (h : l.Pairwise (· ≤ ·)) : (choices l).Nodup :=
  List.nodup_cons.mpr ⟨nil_not_mem_branches, nodup_branches (by simpa using h)⟩

end LearnNote.Lib.SortedChoices
