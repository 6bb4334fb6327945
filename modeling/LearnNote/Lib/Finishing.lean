import Mathlib.Data.List.Nodup
import Mathlib.Logic.Relation

namespace LearnNote.Lib.Finishing

variable {α : Type*} {E : α → α → Prop} {l : List α} {v w : α}

def Cyclic (E : α → α → Prop) : Prop := ∃ v, Relation.TransGen E v v

/-- A list in the order in which a search is done with the elements: each stands behind all that
it leads to. -/
inductive Ordered (E : α → α → Prop) : List α → Prop
  | nil : Ordered E []
  | concat {l : List α} {v : α} (h : Ordered E l) (hv : v ∉ l) (hE : ∀ w, E v w → w ∈ l) : Ordered E (l ++ [v])

theorem Ordered.nodup (h : Ordered E l) : l.Nodup := by
  induction h with
  | nil => exact List.nodup_nil
  | concat h hv hE ih => exact List.nodup_append'.mpr ⟨ih, List.nodup_singleton _, List.disjoint_singleton.mpr hv⟩

theorem Ordered.closed (h : Ordered E l) (hv : v ∈ l) (hE : E v w) : w ∈ l := by
  induction h with
  | nil => exact absurd hv List.not_mem_nil
  | concat h hu hclosed ih =>
      rcases List.mem_append.mp hv with hv | hv
      · exact List.mem_append_left _ (ih hv)
      · cases List.mem_singleton.mp hv
        exact List.mem_append_left _ (hclosed w hE)

theorem Ordered.closed_trans (h : Ordered E l) (hv : v ∈ l) (hE : Relation.TransGen E v w) : w ∈ l := by
  induction hE with
  | single hE => exact h.closed hv hE
  | tail _ hE ih => exact h.closed ih hE

theorem Ordered.not_transGen (h : Ordered E l) (hv : v ∈ l) : ¬ Relation.TransGen E v v := by
  induction h with
  | nil => exact absurd hv List.not_mem_nil
  | @concat l u h hu hclosed ih =>
      intro hround
      rcases List.mem_append.mp hv with hv | hv
      · exact ih hv hround
      · cases List.mem_singleton.mp hv
        obtain ⟨w, hE, hback⟩ := Relation.TransGen.head'_iff.mp hround
        rcases Relation.reflTransGen_iff_eq_or_transGen.mp hback with rfl | hback
        · exact hu (hclosed _ hE)
        · exact hu (h.closed_trans (hclosed w hE) hback)

theorem Ordered.not_cyclic (h : Ordered E l) (hall : ∀ v w, E v w → v ∈ l) : ¬ Cyclic E := by
  rintro ⟨v, hround⟩
  obtain ⟨w, hE, -⟩ := Relation.TransGen.head'_iff.mp hround
  exact h.not_transGen (hall v w hE) hround

theorem Ordered.idxOf_reverse_lt [DecidableEq α] (h : Ordered E l) (hv : v ∈ l) (hE : E v w) :
    l.reverse.idxOf v < l.reverse.idxOf w := by
  induction h with
  | nil => exact absurd hv List.not_mem_nil
  | @concat l u h hu hclosed ih =>
      rw [List.reverse_append, List.reverse_singleton, List.singleton_append]
      by_cases he : v = u
      · subst he
        have hne : v ≠ w := fun he => hu (he ▸ hclosed w hE)
        rw [List.idxOf_cons_self, List.idxOf_cons_ne _ hne]
        exact Nat.succ_pos _
      · have hv : v ∈ l := by simpa [he] using hv
        have hne : u ≠ w := fun he => hu (he ▸ h.closed hv hE)
        rw [List.idxOf_cons_ne _ (Ne.symm he), List.idxOf_cons_ne _ hne]
        exact Nat.succ_lt_succ (ih hv)

end LearnNote.Lib.Finishing
