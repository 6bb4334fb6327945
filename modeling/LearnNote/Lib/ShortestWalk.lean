import Mathlib.Algebra.Order.Monoid.Unbundled.Basic

namespace LearnNote.Lib.ShortestWalk

variable {V M : Type*} [AddMonoid M] {E : V → V → M → Prop} {src u v : V} {d x : M}

inductive Walk (E : V → V → M → Prop) (src : V) : V → M → Prop
  | nil : Walk E src src 0
  | snoc {u v : V} {d x : M} (h : Walk E src u d) (hE : E u v x) : Walk E src v (d + x)

def Reaches (E : V → V → M → Prop) (src v : V) : Prop := ∃ d, Walk E src v d

/-- The weight of a walk to v that no walk to v weighs less than. -/
structure Shortest [LE M] (E : V → V → M → Prop) (src v : V) (d : M) : Prop where
  walk : Walk E src v d
  le : ∀ d', Walk E src v d' → d ≤ d'

/-- Labels that no edge exceeds are below every walk. -/
theorem Walk.label_le [Preorder M] [AddRightMono M] (h : Walk E src v d) (known : V → Prop) (label : V → M)
    (hsrc : known src) (hzero : label src ≤ 0) (hedge : ∀ u v x, known u → E u v x → known v ∧ label v ≤ label u + x) :
    known v ∧ label v ≤ d := by
  induction h with
  | nil => exact ⟨hsrc, hzero⟩
  | snoc h hE ih =>
      obtain ⟨hknown, hle⟩ := hedge _ _ _ ih.1 hE
      exact ⟨hknown, hle.trans (add_le_add_left ih.2 _)⟩

end LearnNote.Lib.ShortestWalk
