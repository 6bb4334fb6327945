import Mathlib.Logic.Equiv.Basic
import Mathlib.Order.Monotone.Basic
import Mathlib.Order.Interval.Set.Basic

namespace LearnNote.Lib

variable {ι α : Type*} {S T : Set ι} {a b c : ι → α} {i j : ι}

/-- The entries of a inside S are in another order in b, and those outside are the same. -/
def Rearranged (S : Set ι) (a b : ι → α) : Prop := ∃ σ : Equiv.Perm ι, (∀ i ∉ S, σ i = i) ∧ b = a ∘ σ

namespace Rearranged

theorem refl (S : Set ι) (a : ι → α) : Rearranged S a a := ⟨Equiv.refl ι, fun _ _ => rfl, rfl⟩

theorem trans (hab : Rearranged S a b) (hbc : Rearranged S b c) : Rearranged S a c := by
  obtain ⟨σ, hσ, rfl⟩ := hab
  obtain ⟨τ, hτ, rfl⟩ := hbc
  refine ⟨τ.trans σ, fun i hi => ?_, rfl⟩
  rw [Equiv.trans_apply, hτ i hi, hσ i hi]

theorem mono (hST : S ⊆ T) (h : Rearranged S a b) : Rearranged T a b := by
  obtain ⟨σ, hσ, rfl⟩ := h
  exact ⟨σ, fun i hi => hσ i (fun hiS => hi (hST hiS)), rfl⟩

theorem swap [DecidableEq ι] (a : ι → α) (hi : i ∈ S) (hj : j ∈ S) : Rearranged S a (a ∘ Equiv.swap i j) := by
  refine ⟨Equiv.swap i j, fun k hk => Equiv.swap_apply_of_ne_of_ne ?_ ?_, rfl⟩
  · rintro rfl
    exact hk hi
  · rintro rfl
    exact hk hj

theorem outside (h : Rearranged S a b) (hi : i ∉ S) : b i = a i := by
  obtain ⟨σ, hσ, rfl⟩ := h
  rw [Function.comp_apply, hσ i hi]

theorem forall_mem {P : α → Prop} (h : Rearranged S a b) (ha : ∀ i ∈ S, P (a i)) (i : ι) (hi : i ∈ S) : P (b i) := by
  obtain ⟨σ, hσ, rfl⟩ := h
  apply ha (σ i)
  by_contra hout
  have hfixed : σ i = i := σ.injective (hσ (σ i) hout)
  rw [hfixed] at hout
  exact hout hi

theorem exists_perm (h : Rearranged S a b) : ∃ σ : Equiv.Perm ι, b = a ∘ σ := by
  obtain ⟨σ, -, hσ⟩ := h
  exact ⟨σ, hσ⟩

end Rearranged

theorem monotoneOn_of_pivot [LinearOrder ι] [Preorder α] {m : ι} (hbelow : ∀ i ∈ S, i < m → a i ≤ a m)
    (habove : ∀ i ∈ S, m < i → a m ≤ a i) (hleft : MonotoneOn a (S ∩ Set.Iio m))
    (hright : MonotoneOn a (S ∩ Set.Ioi m)) : MonotoneOn a S := by
  intro i hi j hj hij
  rcases lt_trichotomy i m with him | rfl | him
  · rcases lt_trichotomy j m with hjm | rfl | hjm
    · exact hleft ⟨hi, him⟩ ⟨hj, hjm⟩ hij
    · exact hbelow i hi him
    · exact (hbelow i hi him).trans (habove j hj hjm)
  · rcases hij.lt_or_eq with hlt | rfl
    · exact habove j hj hlt
    · exact le_rfl
  · exact hright ⟨hi, him⟩ ⟨hj, him.trans_le hij⟩ hij

end LearnNote.Lib
