import Mathlib.Data.List.Basic
import Mathlib.Order.Bounds.Defs
import Mathlib.Order.Lattice

namespace LearnNote.Lib.Packing

variable {α : Type*} [LinearOrder α] {a b : α × α} {c l l' : List (α × α)} {x : α} {m : Nat}

/-- Of two intervals, each with its ends. They may touch. -/
def Apart (a b : α × α) : Prop := a.2 ≤ b.1 ∨ b.2 ≤ a.1

def Largest (l : List (α × α)) (m : Nat) : Prop :=
  IsGreatest {k | ∃ c : List (α × α), c.Sublist l ∧ c.Pairwise Apart ∧ c.length = k} m

/-- The number taken, each as soon as it begins behind the end of the last one. -/
def greedy : α → List (α × α) → Nat
  | _, [] => 0
  | x, a :: l => if x ≤ a.1 then greedy a.2 l + 1 else greedy x l

theorem Apart.symm (h : Apart a b) : Apart b a := Or.symm h

theorem choice_perm (hl : l.Perm l') (hc : c.Sublist l) (happ : c.Pairwise Apart) :
    ∃ c' : List (α × α), c'.Sublist l' ∧ c'.Pairwise Apart ∧ c'.length = c.length := by
  obtain ⟨c', hperm, hsub⟩ := List.exists_perm_sublist hc hl
  exact ⟨c', hsub, (hperm.pairwise_iff Apart.symm).mpr happ, hperm.length_eq⟩

theorem Largest.perm (hm : Largest l m) (hl : l.Perm l') : Largest l' m := by
  obtain ⟨⟨c, hc, happ, rfl⟩, hgreatest⟩ := hm
  refine ⟨choice_perm hl hc happ, ?_⟩
  rintro k ⟨d, hd, hdapp, rfl⟩
  exact hgreatest (choice_perm hl.symm hd hdapp)

theorem starts_of_cons (hproper : ∀ i ∈ a :: l, i.1 < i.2) (hsorted : (a :: l).Pairwise (·.2 ≤ ·.2))
    (hc : (b :: c).Sublist (a :: l)) (happ : (b :: c).Pairwise Apart) : ∀ d ∈ c, a.2 ≤ d.1 := by
  intro d hd
  have hmem : b ∈ a :: l := hc.subset List.mem_cons_self
  have hfirst : a.2 ≤ b.2 := by
    rcases List.mem_cons.mp hmem with rfl | hin
    · exact le_rfl
    · exact List.rel_of_pairwise_cons hsorted hin
  have hends : b.2 ≤ d.2 := List.rel_of_pairwise_cons (hsorted.sublist hc) hd
  rcases List.rel_of_pairwise_cons happ hd with hle | hle
  · exact hfirst.trans hle
  · exact absurd (hends.trans hle) (hproper b hmem).not_ge

theorem length_le_greedy (hproper : ∀ i ∈ l, i.1 < i.2) (hsorted : l.Pairwise (·.2 ≤ ·.2)) (hc : c.Sublist l)
    (happ : c.Pairwise Apart) (hstarts : ∀ i ∈ c, x ≤ i.1) : c.length ≤ greedy x l := by
  induction l generalizing x c with
  | nil => exact hc.length_le
  | cons a l ih =>
      have hrest : ∀ i ∈ l, i.1 < i.2 := fun i hi => hproper i (List.mem_cons_of_mem a hi)
      have htail := (List.pairwise_cons.mp hsorted).2
      rw [greedy]
      by_cases hx : x ≤ a.1
      · rw [if_pos hx]
        cases c with
        | nil => exact Nat.zero_le _
        | cons b c =>
            have hle := ih hrest htail hc.tail (List.pairwise_cons.mp happ).2 (starts_of_cons hproper hsorted hc happ)
            exact Nat.succ_le_succ hle
      · rw [if_neg hx]
        rcases List.sublist_cons_iff.mp hc with hc | ⟨d, rfl, -⟩
        · exact ih hrest htail hc happ hstarts
        · exact absurd (hstarts a List.mem_cons_self) hx

theorem greedy_attained (hproper : ∀ i ∈ l, i.1 < i.2) (x : α) :
    ∃ c : List (α × α), c.Sublist l ∧ c.Pairwise Apart ∧ c.length = greedy x l ∧ ∀ i ∈ c, x ≤ i.1 := by
  induction l generalizing x with
  | nil => exact ⟨[], List.Sublist.refl [], List.Pairwise.nil, rfl, fun i hi => absurd hi List.not_mem_nil⟩
  | cons a l ih =>
      have hrest : ∀ i ∈ l, i.1 < i.2 := fun i hi => hproper i (List.mem_cons_of_mem a hi)
      rw [greedy]
      by_cases hx : x ≤ a.1
      · obtain ⟨c, hc, happ, hlength, hstarts⟩ := ih hrest a.2
        have hbehind : x ≤ a.2 := hx.trans (hproper a List.mem_cons_self).le
        refine ⟨a :: c, hc.cons_cons a, List.pairwise_cons.mpr ⟨fun i hi => Or.inl (hstarts i hi), happ⟩, ?_, ?_⟩
        · rw [if_pos hx, List.length_cons, hlength]
        · intro i hi
          rcases List.mem_cons.mp hi with rfl | hi
          · exact hx
          · exact hbehind.trans (hstarts i hi)
      · obtain ⟨c, hc, happ, hlength, hstarts⟩ := ih hrest x
        exact ⟨c, hc.cons a, happ, by rw [if_neg hx, hlength], hstarts⟩

/-- In the order of their ends the first one can always be taken. -/
theorem largest_greedy (hproper : ∀ i ∈ a :: l, i.1 < i.2) (hsorted : (a :: l).Pairwise (·.2 ≤ ·.2)) :
    Largest (a :: l) (greedy a.2 l + 1) := by
  have hrest : ∀ i ∈ l, i.1 < i.2 := fun i hi => hproper i (List.mem_cons_of_mem a hi)
  constructor
  · obtain ⟨c, hc, happ, hlength, hstarts⟩ := greedy_attained hrest a.2
    exact ⟨a :: c, hc.cons_cons a, List.pairwise_cons.mpr ⟨fun i hi => Or.inl (hstarts i hi), happ⟩,
      congrArg Nat.succ hlength⟩
  · rintro k ⟨c, hc, happ, rfl⟩
    cases c with
    | nil => exact Nat.zero_le _
    | cons b c =>
        have hle := length_le_greedy hrest (List.pairwise_cons.mp hsorted).2 hc.tail (List.pairwise_cons.mp happ).2
          (starts_of_cons hproper hsorted hc happ)
        exact Nat.succ_le_succ hle

end LearnNote.Lib.Packing
