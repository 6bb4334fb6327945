import Mathlib.Logic.Function.Basic

namespace LearnNote.Lib

variable {κ θ : Type*} {locks : κ → Bool} {holds : θ → Option κ} {t : θ} {k : κ}

/-- A family of locks, each a flag, and for each thread the lock it holds. A flag
is set exactly while a thread holds the lock, and that thread is the only one. -/
structure LockTable (locks : κ → Bool) (holds : θ → Option κ) : Prop where
  locked : ∀ k, locks k = true ↔ ∃ t, holds t = some k
  sole : ∀ t u k, holds t = some k → holds u = some k → t = u

namespace LockTable

theorem free : LockTable (fun _ : κ => false) (fun _ : θ => none) := ⟨by simp, by simp⟩

theorem not_held (h : LockTable locks holds) (hk : locks k = false) (t : θ) : holds t ≠ some k := by
  intro ht
  rw [(h.locked k).mpr ⟨t, ht⟩] at hk
  cases hk

variable [DecidableEq κ] [DecidableEq θ]

theorem acquire (h : LockTable locks holds) (hk : locks k = false) (ht : holds t = none) :
    LockTable (Function.update locks k true) (Function.update holds t (some k)) := by
  have hne : ∀ u j, u ≠ t → holds u = some j → j ≠ k := by
    rintro u j - hu rfl
    exact h.not_held hk u hu
  constructor
  · intro j
    by_cases hj : j = k
    · subst hj
      simpa using ⟨t, by simp⟩
    · rw [Function.update_of_ne hj, h.locked j]
      refine exists_congr (fun u => ?_)
      by_cases hu : u = t
      · subst hu
        simp [ht, Ne.symm hj]
      · rw [Function.update_of_ne hu]
  · intro u v j hu hv
    by_cases hut : u = t <;> by_cases hvt : v = t
    · rw [hut, hvt]
    · subst hut
      rw [Function.update_self, Option.some.injEq] at hu
      rw [Function.update_of_ne hvt] at hv
      exact absurd hu.symm (hne v j hvt hv)
    · subst hvt
      rw [Function.update_self, Option.some.injEq] at hv
      rw [Function.update_of_ne hut] at hu
      exact absurd hv.symm (hne u j hut hu)
    · rw [Function.update_of_ne hut] at hu
      rw [Function.update_of_ne hvt] at hv
      exact h.sole u v j hu hv

theorem release (h : LockTable locks holds) (ht : holds t = some k) :
    LockTable (Function.update locks k false) (Function.update holds t none) := by
  constructor
  · intro j
    by_cases hj : j = k
    · subst hj
      simp only [Function.update_self, Bool.false_eq_true, false_iff, not_exists]
      intro u
      by_cases hu : u = t
      · subst hu; simp
      · rw [Function.update_of_ne hu]
        exact fun hk => hu (h.sole u t j hk ht)
    · rw [Function.update_of_ne hj, h.locked j]
      refine exists_congr (fun u => ?_)
      by_cases hu : u = t
      · subst hu
        simp [ht, Ne.symm hj]
      · rw [Function.update_of_ne hu]
  · intro u v j hu hv
    by_cases hut : u = t
    · subst hut; simp at hu
    · by_cases hvt : v = t
      · subst hvt; simp at hv
      · rw [Function.update_of_ne hut] at hu
        rw [Function.update_of_ne hvt] at hv
        exact h.sole u v j hu hv

end LockTable

end LearnNote.Lib
