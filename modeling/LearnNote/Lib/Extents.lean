import Mathlib.Logic.Function.Basic
import Mathlib.Data.Set.Basic

namespace LearnNote.Lib.Extents

def Covers (r : Nat × Nat) (x : Nat) : Prop := r.1 ≤ x ∧ x < r.1 + r.2

def Apart (r s : Nat × Nat) : Prop := r.1 + r.2 ≤ s.1 ∨ s.1 + s.2 ≤ r.1

instance (r s : Nat × Nat) : Decidable (Apart r s) := inferInstanceAs (Decidable (_ ∨ _))

instance decidableMem (r : Nat × Nat) (l : List (Nat × Nat)) : Decidable (r ∈ l) := List.instDecidableMemOfLawfulBEq r l

theorem Apart.symm {r s : Nat × Nat} (h : Apart r s) : Apart s r := Or.symm h

theorem Apart.not_covers {r s : Nat × Nat} (h : Apart r s) {x : Nat} (hr : Covers r x) : ¬ Covers s x := by
  unfold Apart Covers at *
  omega

theorem apart_iff {r s : Nat × Nat} (hr : 0 < r.2) (hs : 0 < s.2) :
    Apart r s ↔ ∀ x, ¬ (Covers r x ∧ Covers s x) := by
  constructor
  · intro h x hx
    exact h.not_covers hx.1 hx.2
  · intro h
    have h1 := h r.1
    have h2 := h s.1
    unfold Apart Covers at *
    omega

def Within (r s : Nat × Nat) : Prop := s.1 ≤ r.1 ∧ r.1 + r.2 ≤ s.1 + s.2

theorem Within.apart {r s u : Nat × Nat} (h : Within r s) (hs : Apart s u) : Apart r u := by
  unfold Within Apart at *
  omega

theorem Within.covers {r s : Nat × Nat} (h : Within r s) {x : Nat} (hx : Covers r x) : Covers s x := by
  unfold Within Covers at *
  omega

variable {ι : Type*} {ext : ι → Option (Nat × Nat)} {space : Nat → Prop} {i j : ι} {a n m : Nat}

theorem covers_add {x : Nat} : Covers (a, n + m) x ↔ Covers (a, n) x ∨ Covers (a + n, m) x := by
  unfold Covers
  simp only
  omega

theorem apart_add : Apart (a, n) (a + n, m) := .inl le_rfl

/-- A space divided among names: every address of it lies in the extent of one
name, and no extent reaches outside or is empty. -/
structure Tiling (ext : ι → Option (Nat × Nat)) (space : Nat → Prop) : Prop where
  cover : ∀ x, space x ↔ ∃ i r, ext i = some r ∧ Covers r x
  uniq : ∀ i j r s x, ext i = some r → ext j = some s → Covers r x → Covers s x → i = j
  pos : ∀ i r, ext i = some r → 0 < r.2

namespace Tiling

theorem empty : Tiling (fun _ : ι => none) (fun _ => False) :=
  ⟨by simp, by simp, by simp⟩

theorem start_inj (h : Tiling ext space) (hi : ext i = some (a, n)) (hj : ext j = some (a, m)) : i = j := by
  have hn := h.pos i _ hi
  have hm := h.pos j _ hj
  exact h.uniq i j _ _ a hi hj ⟨le_rfl, by simpa using hn⟩ ⟨le_rfl, by simpa using hm⟩

theorem apart (h : Tiling ext space) (hij : i ≠ j) {r s : Nat × Nat} (hi : ext i = some r)
    (hj : ext j = some s) : Apart r s := by
  rw [apart_iff (h.pos i r hi) (h.pos j s hj)]
  intro x hx
  exact hij (h.uniq i j r s x hi hj hx.1 hx.2)

variable [DecidableEq ι]

theorem split_eq_some (hij : j ≠ i) {r s t : Nat × Nat} {k : ι} :
    Function.update (Function.update ext j (some s)) i (some r) k = some t ↔
      (k = i ∧ t = r) ∨ (k = j ∧ t = s) ∨ (k ≠ i ∧ k ≠ j ∧ ext k = some t) := by
  by_cases hk : k = i
  · subst hk
    simp [hij.symm, eq_comm]
  · by_cases hk' : k = j
    · subst hk'
      simp [hij, eq_comm]
    · simp [hk, hk']

theorem merge_eq_some (hij : i ≠ j) {r t : Nat × Nat} {k : ι} :
    Function.update (Function.update ext i (some r)) j none k = some t ↔
      (k = i ∧ t = r) ∨ (k ≠ i ∧ k ≠ j ∧ ext k = some t) := by
  by_cases hk : k = j
  · subst hk
    simp [hij.symm]
  · by_cases hk' : k = i
    · subst hk'
      simp [hk, eq_comm]
    · simp [hk, hk']

theorem extend_eq_some {r t : Nat × Nat} {k : ι} :
    Function.update ext j (some r) k = some t ↔ (k = j ∧ t = r) ∨ (k ≠ j ∧ ext k = some t) := by
  by_cases hk : k = j
  · subst hk
    simp [eq_comm]
  · simp [hk]

/-- Handing the upper part of an extent to a name that had none. -/
theorem split (h : Tiling ext space) (hi : ext i = some (a, n + m)) (hj : ext j = none)
    (hn : 0 < n) (hm : 0 < m) :
    Tiling (Function.update (Function.update ext j (some (a + n, m))) i (some (a, n))) space := by
  have hij : j ≠ i := by
    intro he
    subst he
    simp [hi] at hj
  constructor
  · intro x
    rw [h.cover x]
    constructor
    · rintro ⟨k, r, hk, hx⟩
      by_cases hki : k = i
      · subst hki
        rw [hi] at hk
        cases hk
        rcases covers_add.mp hx with hx | hx
        · exact ⟨k, _, (split_eq_some hij).mpr (.inl ⟨rfl, rfl⟩), hx⟩
        · exact ⟨j, _, (split_eq_some hij).mpr (.inr (.inl ⟨rfl, rfl⟩)), hx⟩
      · have hkj : k ≠ j := by
          intro he
          subst he
          simp [hj] at hk
        exact ⟨k, r, (split_eq_some hij).mpr (.inr (.inr ⟨hki, hkj, hk⟩)), hx⟩
    · rintro ⟨k, r, hk, hx⟩
      rcases (split_eq_some hij).mp hk with ⟨-, rfl⟩ | ⟨-, rfl⟩ | ⟨-, -, hk⟩
      · exact ⟨i, _, hi, covers_add.mpr (.inl hx)⟩
      · exact ⟨i, _, hi, covers_add.mpr (.inr hx)⟩
      · exact ⟨k, r, hk, hx⟩
  · intro k k' r r' x he he' hx hx'
    -- A name that is neither has nothing in common with the extent that is split.
    have hother : ∀ k r, k ≠ i → ext k = some r → Covers r x → ¬ Covers (a, n + m) x := by
      intro k r hki hk hr hx
      exact hki (h.uniq _ _ _ _ x hk hi hr hx)
    rcases (split_eq_some hij).mp he with ⟨rfl, rfl⟩ | ⟨rfl, rfl⟩ | ⟨hki, -, hk⟩ <;>
      rcases (split_eq_some hij).mp he' with ⟨rfl, rfl⟩ | ⟨rfl, rfl⟩ | ⟨hki', -, hk'⟩
    · rfl
    · exact absurd hx' (apart_add.not_covers hx)
    · exact absurd (covers_add.mpr (.inl hx)) (hother _ _ hki' hk' hx')
    · exact absurd hx (apart_add.not_covers hx')
    · rfl
    · exact absurd (covers_add.mpr (.inr hx)) (hother _ _ hki' hk' hx')
    · exact absurd (covers_add.mpr (.inl hx')) (hother _ _ hki hk hx)
    · exact absurd (covers_add.mpr (.inr hx')) (hother _ _ hki hk hx)
    · exact h.uniq _ _ _ _ x hk hk' hx hx'
  · intro k r hk
    rcases (split_eq_some hij).mp hk with ⟨-, rfl⟩ | ⟨-, rfl⟩ | ⟨-, -, hk⟩
    · exact hn
    · exact hm
    · exact h.pos k r hk

/-- Joining two extents that touch; the name of the upper one is given up. -/
theorem merge (h : Tiling ext space) (hi : ext i = some (a, n)) (hj : ext j = some (a + n, m)) :
    Tiling (Function.update (Function.update ext i (some (a, n + m))) j none) space := by
  have hn := h.pos i _ hi
  have hij : i ≠ j := by
    intro he
    subst he
    rw [hi] at hj
    simp only [Option.some.injEq, Prod.mk.injEq] at hj
    simp at hn
    omega
  constructor
  · intro x
    rw [h.cover x]
    constructor
    · rintro ⟨k, r, hk, hx⟩
      by_cases hki : k = i
      · subst hki
        rw [hi] at hk
        cases hk
        exact ⟨k, _, (merge_eq_some hij).mpr (.inl ⟨rfl, rfl⟩), covers_add.mpr (.inl hx)⟩
      · by_cases hkj : k = j
        · subst hkj
          rw [hj] at hk
          cases hk
          exact ⟨i, _, (merge_eq_some hij).mpr (.inl ⟨rfl, rfl⟩), covers_add.mpr (.inr hx)⟩
        · exact ⟨k, r, (merge_eq_some hij).mpr (.inr ⟨hki, hkj, hk⟩), hx⟩
    · rintro ⟨k, r, hk, hx⟩
      rcases (merge_eq_some hij).mp hk with ⟨-, rfl⟩ | ⟨-, -, hk⟩
      · rcases covers_add.mp hx with hx | hx
        · exact ⟨i, _, hi, hx⟩
        · exact ⟨j, _, hj, hx⟩
      · exact ⟨k, r, hk, hx⟩
  · intro k k' r r' x he he' hx hx'
    have hother : ∀ k r, k ≠ i → k ≠ j → ext k = some r → Covers r x → ¬ Covers (a, n + m) x := by
      intro k r hki hkj hk hr hx
      rcases covers_add.mp hx with hx | hx
      · exact hki (h.uniq _ _ _ _ x hk hi hr hx)
      · exact hkj (h.uniq _ _ _ _ x hk hj hr hx)
    rcases (merge_eq_some hij).mp he with ⟨rfl, rfl⟩ | ⟨hki, hkj, hk⟩ <;>
      rcases (merge_eq_some hij).mp he' with ⟨rfl, rfl⟩ | ⟨hki', hkj', hk'⟩
    · rfl
    · exact absurd hx (hother _ _ hki' hkj' hk' hx')
    · exact absurd hx' (hother _ _ hki hkj hk hx)
    · exact h.uniq _ _ _ _ x hk hk' hx hx'
  · intro k r hk
    rcases (merge_eq_some hij).mp hk with ⟨-, rfl⟩ | ⟨-, -, hk⟩
    · exact Nat.add_pos_left hn m
    · exact h.pos k r hk

/-- Adding an extent that is new to the space. -/
theorem extend (h : Tiling ext space) (hj : ext j = none) (hn : 0 < n)
    (hnew : ∀ x, Covers (a, n) x → ¬ space x) :
    Tiling (Function.update ext j (some (a, n))) (fun x => Covers (a, n) x ∨ space x) := by
  constructor
  · intro x
    constructor
    · rintro (hx | hx)
      · exact ⟨j, _, extend_eq_some.mpr (.inl ⟨rfl, rfl⟩), hx⟩
      · obtain ⟨k, r, hk, hr⟩ := (h.cover x).mp hx
        have hkj : k ≠ j := by
          intro he
          subst he
          simp [hj] at hk
        exact ⟨k, r, extend_eq_some.mpr (.inr ⟨hkj, hk⟩), hr⟩
    · rintro ⟨k, r, hk, hr⟩
      rcases extend_eq_some.mp hk with ⟨-, rfl⟩ | ⟨-, hk⟩
      · exact .inl hr
      · exact .inr ((h.cover x).mpr ⟨k, r, hk, hr⟩)
  · intro k k' r r' x he he' hx hx'
    rcases extend_eq_some.mp he with ⟨rfl, rfl⟩ | ⟨-, hk⟩ <;>
      rcases extend_eq_some.mp he' with ⟨rfl, rfl⟩ | ⟨-, hk'⟩
    · rfl
    · exact absurd ((h.cover x).mpr ⟨_, _, hk', hx'⟩) (hnew x hx)
    · exact absurd ((h.cover x).mpr ⟨_, _, hk, hx⟩) (hnew x hx')
    · exact h.uniq _ _ _ _ x hk hk' hx hx'
  · intro k r hk
    rcases extend_eq_some.mp hk with ⟨-, rfl⟩ | ⟨-, hk⟩
    · exact hn
    · exact h.pos k r hk

end Tiling

end LearnNote.Lib.Extents
