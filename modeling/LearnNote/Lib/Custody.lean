import Mathlib.Data.List.Nodup
import Mathlib.Data.List.Perm.Basic
import Mathlib.Logic.Function.Basic

namespace LearnNote.Lib

variable {α ι : Type*} {stock : List α} {held : ι → List α} {i j : ι} {a : α} {l : List α}

/-- Items of a stock in the custody of places: no item is at two places, or twice
at one. -/
structure Custody (stock : List α) (held : ι → List α) : Prop where
  once : ∀ i, (held i).Nodup
  sole : ∀ i j a, a ∈ held i → a ∈ held j → i = j
  known : ∀ i, ∀ a ∈ held i, a ∈ stock

def Kept (stock : List α) (held : ι → List α) : Prop := ∀ a ∈ stock, ∃ i, a ∈ held i

theorem Custody.empty : Custody [] (fun _ : ι => ([] : List α)) := ⟨by simp, by simp, by simp⟩

variable [DecidableEq ι]

theorem mem_update_place {k : ι} {x : α} (h : x ∈ Function.update held i l k) :
    (k = i ∧ x ∈ l) ∨ (k ≠ i ∧ x ∈ held k) := by
  by_cases hk : k = i
  · subst hk
    exact .inl ⟨rfl, by simpa using h⟩
  · exact .inr ⟨hk, by simpa [hk] using h⟩

namespace Custody

theorem drop (h : Custody stock held) (hl : l.Subperm (held i)) : Custody stock (Function.update held i l) := by
  have hsub : ∀ k x, x ∈ Function.update held i l k → x ∈ held k := by
    intro k x hin
    rcases mem_update_place hin with ⟨rfl, hx⟩ | ⟨-, hx⟩
    · exact hl.subset hx
    · exact hx
  refine ⟨?_, fun k m x hk hm => h.sole k m x (hsub k x hk) (hsub m x hm), fun k x hk => h.known k x (hsub k x hk)⟩
  intro k
  by_cases hk : k = i
  · subst hk
    obtain ⟨k', hp, hs⟩ := hl
    simpa using hp.nodup_iff.mp ((h.once k).sublist hs)
  · simpa [hk] using h.once k

theorem place (h : Custody stock held) (ha : ∀ k, a ∉ held k) (hs : a ∈ stock) :
    Custody stock (Function.update held i (a :: held i)) := by
  have hsplit : ∀ k x, x ∈ Function.update held i (a :: held i) k → (k = i ∧ x = a) ∨ x ∈ held k := by
    intro k x hin
    rcases mem_update_place hin with ⟨rfl, hx⟩ | ⟨-, hx⟩
    · rcases List.mem_cons.mp hx with rfl | hx
      · exact .inl ⟨rfl, rfl⟩
      · exact .inr hx
    · exact .inr hx
  refine ⟨?_, ?_, ?_⟩
  · intro k
    by_cases hk : k = i
    · subst hk
      simpa using ⟨ha k, h.once k⟩
    · simpa [hk] using h.once k
  · intro k m x hk hm
    rcases hsplit k x hk with ⟨hki, hxa⟩ | hk <;> rcases hsplit m x hm with ⟨hmi, hxa'⟩ | hm
    · rw [hki, hmi]
    · exact absurd (hxa ▸ hm) (ha m)
    · exact absurd (hxa' ▸ hk) (ha k)
    · exact h.sole k m x hk hm
  · intro k x hk
    rcases hsplit k x hk with ⟨-, rfl⟩ | hk
    · exact hs
    · exact h.known k x hk

theorem add (h : Custody stock held) (ha : a ∉ stock) :
    Custody (a :: stock) (Function.update held i (a :: held i)) := by
  have hmore : Custody (a :: stock) held :=
    ⟨h.once, h.sole, fun k x hx => List.mem_cons_of_mem _ (h.known k x hx)⟩
  exact hmore.place (fun k hk => ha (h.known k a hk)) List.mem_cons_self

theorem move (h : Custody stock held) (hp : (held i).Perm (a :: l)) (hij : i ≠ j) :
    Custody stock (Function.update (Function.update held i l) j (a :: held j)) := by
  have hmem : a ∈ held i := hp.mem_iff.mpr List.mem_cons_self
  have hnodup := List.nodup_cons.mp (hp.nodup_iff.mp (h.once i))
  have hless : Custody stock (Function.update held i l) :=
    h.drop ((List.sublist_cons_self a l).subperm.trans hp.symm.subperm)
  have hoff : ∀ k, a ∉ Function.update held i l k := by
    intro k hk
    rcases mem_update_place hk with ⟨-, hx⟩ | ⟨hki, hx⟩
    · exact hnodup.1 hx
    · exact hki (h.sole k i a hx hmem)
  have hplace := hless.place (i := j) hoff (h.known i a hmem)
  rwa [Function.update_of_ne hij.symm] at hplace

end Custody

namespace Kept

theorem add (h : Kept stock held) : Kept (a :: stock) (Function.update held i (a :: held i)) := by
  intro x hx
  rcases List.mem_cons.mp hx with rfl | hx
  · exact ⟨i, by simp⟩
  · obtain ⟨k, hk⟩ := h x hx
    by_cases hki : k = i
    · subst hki
      exact ⟨k, by simp [hk]⟩
    · exact ⟨k, by simpa [hki] using hk⟩

theorem move (h : Kept stock held) (hp : (held i).Perm (a :: l)) (hij : i ≠ j) :
    Kept stock (Function.update (Function.update held i l) j (a :: held j)) := by
  intro x hx
  obtain ⟨k, hk⟩ := h x hx
  by_cases hki : k = i
  · subst hki
    rcases List.mem_cons.mp (hp.mem_iff.mp hk) with rfl | hl
    · exact ⟨j, by simp⟩
    · exact ⟨k, by simpa [hij] using hl⟩
  · by_cases hkj : k = j
    · subst hkj
      exact ⟨k, by simp [hk]⟩
    · exact ⟨k, by simpa [hki, hkj] using hk⟩

end Kept

end LearnNote.Lib
