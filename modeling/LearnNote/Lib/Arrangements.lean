import Mathlib.Data.List.Nodup
import Mathlib.Data.List.Perm.Basic

namespace LearnNote.Lib.Arrangements

variable {α : Type*} [DecidableEq α] {l t : List α} {k : Nat}

/-- One of the elements first, in their order, then what is left of them. -/
def arrangements : Nat → List α → List (List α)
  | 0, _ => [[]]
  | k + 1, l => l.flatMap fun a => (arrangements k (l.erase a)).map (a :: ·)

theorem mem_arrangements (h : l.length = k) : t ∈ arrangements k l ↔ t.Perm l := by
  induction k generalizing l t with
  | zero =>
      rw [List.length_eq_zero_iff.mp h, List.perm_nil]
      exact List.mem_singleton
  | succ k ih =>
      rw [arrangements, List.mem_flatMap]
      constructor
      · rintro ⟨a, ha, ht⟩
        obtain ⟨u, hu, rfl⟩ := List.mem_map.mp ht
        have hlength : (l.erase a).length = k := by rw [List.length_erase_of_mem ha, h, Nat.add_sub_cancel]
        exact List.cons_perm_iff_perm_erase.mpr ⟨ha, (ih hlength).mp hu⟩
      · intro hperm
        cases t with
        | nil => simp [← hperm.length_eq] at h
        | cons a u =>
            obtain ⟨ha, hu⟩ := List.cons_perm_iff_perm_erase.mp hperm
            have hlength : (l.erase a).length = k := by rw [List.length_erase_of_mem ha, h, Nat.add_sub_cancel]
            exact ⟨a, ha, List.mem_map.mpr ⟨u, (ih hlength).mpr hu, rfl⟩⟩

theorem nodup_arrangements (h : l.Nodup) (k : Nat) : (arrangements k l).Nodup := by
  induction k generalizing l with
  | zero => exact List.nodup_singleton _
  | succ k ih =>
      refine List.nodup_flatMap.mpr ⟨fun a _ => ?_, h.imp fun {a b} hne => ?_⟩
      · exact (ih (h.erase a)).map fun _ _ he => (List.cons.inj he).2
      · intro t ha hb
        obtain ⟨u, -, rfl⟩ := List.mem_map.mp ha
        obtain ⟨v, -, he⟩ := List.mem_map.mp hb
        exact hne (List.cons.inj he).1.symm

theorem arrangements_ne_nil (h : l.length = k) : arrangements k l ≠ [] :=
  List.ne_nil_of_mem ((mem_arrangements h).mpr (List.Perm.refl l))

end LearnNote.Lib.Arrangements
