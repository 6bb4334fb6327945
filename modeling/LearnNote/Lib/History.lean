import Mathlib.Data.List.Basic

namespace LearnNote.Lib.History

variable {α : Type*}

/-- Every event of a history stands in a relation to the history before it. -/
def Throughout (P : List α → α → Prop) (l : List α) : Prop :=
  ∀ pre x post, l = pre ++ x :: post → P pre x

variable {P : List α → α → Prop} {l : List α}

theorem throughout_nil : Throughout P [] := by
  intro pre x post h
  simp at h

theorem throughout_concat {x : α} : Throughout P (l ++ [x]) ↔ Throughout P l ∧ P l x := by
  refine ⟨fun h => ⟨fun pre y post hl => h pre y (post ++ [x]) (by simp [hl]), h l x [] rfl⟩, ?_⟩
  rintro ⟨hl, hx⟩ pre y post h
  rcases List.eq_nil_or_concat' post with rfl | ⟨post', z, rfl⟩
  · obtain ⟨rfl, hy⟩ := List.append_inj' h rfl
    cases hy
    exact hx
  · rw [← List.cons_append, ← List.append_assoc] at h
    exact hl pre y post' (List.append_inj' h rfl).1

/-- An event that breaks the relation breaks it in every longer history. -/
theorem not_throughout {x : α} {post : List α} (h : ¬ P l x) : ¬ Throughout P (l ++ x :: post) :=
  fun ht => h (ht l x post rfl)

def Extends (p : α → Prop) (l l' : List α) : Prop := ∃ es, l' = l ++ es ∧ ∀ e ∈ es, p e

variable {p : α → Prop} {l' l'' : List α}

theorem Extends.refl (l : List α) : Extends p l l := ⟨[], (List.append_nil l).symm, nofun⟩

theorem Extends.concat {e : α} (he : p e) (l : List α) : Extends p l (l ++ [e]) :=
  ⟨[e], rfl, fun _ hx => List.mem_singleton.mp hx ▸ he⟩

theorem Extends.trans (h : Extends p l l') (h' : Extends p l' l'') : Extends p l l'' := by
  obtain ⟨es, rfl, hes⟩ := h
  obtain ⟨es', rfl, hes'⟩ := h'
  refine ⟨es ++ es', List.append_assoc _ _ _, fun e he => ?_⟩
  rcases List.mem_append.mp he with he | he
  · exact hes e he
  · exact hes' e he

theorem Extends.mono {q : α → Prop} (h : Extends p l l') (hpq : ∀ e, p e → q e) : Extends q l l' := by
  obtain ⟨es, hl, hes⟩ := h
  exact ⟨es, hl, fun e he => hpq e (hes e he)⟩

theorem Extends.notMem (h : Extends p l l') {x : α} (hx : ¬ p x) (hl : x ∉ l) : x ∉ l' := by
  obtain ⟨es, rfl, hes⟩ := h
  rw [List.mem_append]
  rintro (hm | hm)
  · exact hl hm
  · exact hx (hes x hm)

end LearnNote.Lib.History
