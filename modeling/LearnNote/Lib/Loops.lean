import Mathlib.Data.Int.Range
import Mathlib.Data.List.FinRange
import Mathlib.Data.List.Range

namespace LearnNote.Lib.Loops

universe u v

variable {α : Type v} {β γ : Type u} {f : β → α → Option β} {l : List α} {b c : β} {n : Nat}

/-- What holds of the elements gone through and of the state is kept by every round, and every round returns. -/
theorem foldlM_spec {I : List α → β → Prop} (hstart : I [] b)
    (hbody : ∀ done a rest b, l = done ++ a :: rest → I done b → ∃ c, f b a = some c ∧ I (done ++ [a]) c) :
    ∃ c, l.foldlM f b = some c ∧ I l c := by
  suffices h : ∀ rest done b, l = done ++ rest → I done b → ∃ c, rest.foldlM f b = some c ∧ I l c from
    h l [] b rfl hstart
  intro rest
  induction rest with
  | nil =>
      intro done b hl hI
      rw [List.append_nil] at hl
      exact ⟨b, rfl, hl ▸ hI⟩
  | cons a rest ih =>
      intro done b hl hI
      obtain ⟨c, hc, hI⟩ := hbody done a rest b hl hI
      rw [List.foldlM_cons, hc]
      exact ih (done ++ [a]) c (by rw [hl, List.append_assoc, List.singleton_append]) hI

theorem foldlM_induction {I : List α → β → Prop} (hstart : I [] b)
    (hbody : ∀ done a rest b c, l = done ++ a :: rest → I done b → f b a = some c → I (done ++ [a]) c)
    (hl : l.foldlM f b = some c) : I l c := by
  suffices h : ∀ rest done b, l = done ++ rest → I done b → rest.foldlM f b = some c → I l c from
    h l [] b rfl hstart hl
  intro rest
  induction rest with
  | nil =>
      intro done b hl hI hc
      rw [List.append_nil] at hl
      cases hc
      exact hl ▸ hI
  | cons a rest ih =>
      intro done b hl hI hc
      rw [List.foldlM_cons] at hc
      obtain ⟨d, hd, hc⟩ := Option.bind_eq_some_iff.mp hc
      exact ih (done ++ [a]) d (by rw [hl, List.append_assoc, List.singleton_append])
        (hbody done a rest b d hl hI hd) hc

theorem foldl_induction {f : β → α → β} {I : List α → β → Prop} (hstart : I [] b)
    (hbody : ∀ done a rest b, l = done ++ a :: rest → I done b → I (done ++ [a]) (f b a)) : I l (l.foldl f b) := by
  suffices h : ∀ rest done b, l = done ++ rest → I done b → I l (rest.foldl f b) from h l [] b rfl hstart
  intro rest
  induction rest with
  | nil =>
      intro done b hl hI
      rw [List.append_nil] at hl
      exact hl ▸ hI
  | cons a rest ih =>
      intro done b hl hI
      exact ih (done ++ [a]) (f b a) (by rw [hl, List.append_assoc, List.singleton_append])
        (hbody done a rest b hl hI)

/-- A loop over 0, …, n - 1, with the number of rounds made. -/
theorem forRange_spec {f : β → Nat → Option β} {I : Nat → β → Prop} (hstart : I 0 b)
    (hbody : ∀ i < n, ∀ b, I i b → ∃ c, f b i = some c ∧ I (i + 1) c) :
    ∃ c, (List.range n).foldlM f b = some c ∧ I n c := by
  induction n with
  | zero => exact ⟨b, rfl, hstart⟩
  | succ n ih =>
      obtain ⟨c, hc, hI⟩ := ih fun i hi => hbody i (hi.trans (Nat.lt_succ_self n))
      obtain ⟨d, hd, hI⟩ := hbody n (Nat.lt_succ_self n) c hI
      refine ⟨d, ?_, hI⟩
      rw [List.range_succ, List.foldlM_append, hc]
      exact (Option.bind_some _ _).trans (by rw [List.foldlM_cons, hd]; rfl)

theorem range_eq_cons {a z : Int} (h : a < z) : Int.range a z = a :: Int.range (a + 1) z := by
  obtain ⟨k, hk⟩ : ∃ k, (z - a).toNat = k + 1 := ⟨(z - a).toNat - 1, by omega⟩
  have hrest : (z - (a + 1)).toNat = k := by omega
  rw [Int.range, Int.range, hk, hrest, List.range_succ_eq_map, List.map_cons, List.map_map]
  refine List.cons_eq_cons.mpr ⟨by simp, List.map_congr_left fun i _ => ?_⟩
  simp only [Function.comp_apply]
  omega

theorem range_concat {a z : Int} (h : a ≤ z) : Int.range a (z + 1) = Int.range a z ++ [z] := by
  obtain ⟨k, hk⟩ : ∃ k, (z - a).toNat = k := ⟨_, rfl⟩
  have hnext : (z + 1 - a).toNat = k + 1 := by omega
  have hlast : a + (k : Int) = z := by omega
  rw [Int.range, Int.range, hk, hnext, List.range_succ, List.map_append, List.map_singleton, hlast]

theorem forInt_spec {f : β → Int → Option β} {I : Int → β → Prop} {a z : Int} (haz : a ≤ z) (hstart : I a b)
    (hbody : ∀ i, a ≤ i → i < z → ∀ b, I i b → ∃ c, f b i = some c ∧ I (i + 1) c) :
    ∃ c, (Int.range a z).foldlM f b = some c ∧ I z c := by
  have hround : ∀ k < (z - a).toNat, ∀ b, I (a + k) b → ∃ c, f b (a + k) = some c ∧ I (a + (k + 1 : Nat)) c := by
    intro k hk b hI
    obtain ⟨c, hc, hnext⟩ := hbody (a + k) (by omega) (by omega) b hI
    have hsucc : a + k + 1 = a + (k + 1 : Nat) := by omega
    exact ⟨c, hc, hsucc ▸ hnext⟩
  obtain ⟨c, hc, hI⟩ := forRange_spec (I := fun k b => I (a + (k : Nat)) b) (by simpa using hstart) hround
  refine ⟨c, by rwa [Int.range, List.foldlM_map], ?_⟩
  have hend : a + ((z - a).toNat : Int) = z := by omega
  exact hend ▸ hI

theorem forNat_spec {f : β → Int → Option β} {I : Nat → β → Prop} {a z : Nat} (haz : a ≤ z) (hstart : I a b)
    (hbody : ∀ k, a ≤ k → k < z → ∀ b, I k b → ∃ c, f b k = some c ∧ I (k + 1) c) :
    ∃ c, (Int.range a z).foldlM f b = some c ∧ I z c := by
  have hround : ∀ i : Int, a ≤ i → i < z → ∀ b, I i.toNat b → ∃ c, f b i = some c ∧ I (i + 1).toNat c := by
    intro i hi hiz b hI
    obtain ⟨k, rfl⟩ := Int.eq_ofNat_of_zero_le (by omega : 0 ≤ i)
    exact hbody k (by omega) (by omega) b hI
  exact forInt_spec (I := fun i b => I i.toNat b) (Int.ofNat_le.mpr haz) hstart hround

theorem forRange_returns {f : β → Nat → Option β} (hbody : ∀ i < n, ∀ b, ∃ c, f b i = some c) (b : β) :
    ∃ c, (List.range n).foldlM f b = some c := by
  have hround : ∀ i < n, ∀ b, True → ∃ c, f b i = some c ∧ True := by
    intro i hi b _
    obtain ⟨c, hc⟩ := hbody i hi b
    exact ⟨c, hc, trivial⟩
  obtain ⟨c, hc, -⟩ := forRange_spec (b := b) trivial hround
  exact ⟨c, hc⟩

theorem forFin_spec {f : β → Fin n → Option β} {I : Nat → β → Prop} (hstart : I 0 b)
    (hbody : ∀ (i : Fin n) b, I i b → ∃ c, f b i = some c ∧ I (i + 1) c) :
    ∃ c, (List.finRange n).foldlM f b = some c ∧ I n c := by
  have hround : ∀ done i rest b, List.finRange n = done ++ i :: rest → I done.length b →
      ∃ c, f b i = some c ∧ I (done ++ [i]).length c := by
    intro done i rest b hl hI
    have hi : (List.finRange n)[done.length]? = some i := by rw [hl]; simp
    obtain ⟨hlt, hi⟩ := List.getElem?_eq_some_iff.mp hi
    have hval : i.val = done.length := by rw [← hi, List.getElem_finRange]; rfl
    rw [List.length_append, List.length_singleton, ← hval]
    exact hbody i b (hval ▸ hI)
  obtain ⟨c, hc, hI⟩ := foldlM_spec (I := fun done b => I done.length b) hstart hround
  rw [List.length_finRange] at hI
  exact ⟨c, hc, hI⟩

theorem foldlM_fixed (h : ∀ a ∈ l, f b a = some b) : l.foldlM f b = some b := by
  induction l with
  | nil => rfl
  | cons a l ih =>
      rw [List.foldlM_cons, h a List.mem_cons_self]
      exact ih fun a ha => h a (List.mem_cons_of_mem _ ha)

/-- A loop with fuel, before and after a round. -/
theorem returns_succ {f g : Nat → Option β} {d : Nat} (hround : ∀ fuel, f (fuel + 1) = g fuel)
    (h : ∀ fuel, d < fuel → g fuel = some c) : ∀ fuel, d + 1 < fuel → f fuel = some c := by
  intro fuel hfuel
  cases fuel with
  | zero => exact absurd hfuel (Nat.not_lt_zero _)
  | succ fuel =>
      rw [hround]
      exact h fuel (Nat.lt_of_succ_lt_succ hfuel)

theorem returns_last {f : Nat → Option β} {d : Nat} (hround : ∀ fuel, f (fuel + 1) = some c) :
    ∀ fuel, d < fuel → f fuel = some c := by
  intro fuel hfuel
  cases fuel with
  | zero => exact absurd hfuel (Nat.not_lt_zero d)
  | succ fuel => exact hround fuel

/-- A map of states that every round respects is respected by the loop. -/
theorem foldlM_simulates {g : γ → α → Option γ} (h : γ → β) {c d : γ}
    (hstep : ∀ a ∈ l, ∀ c d, g c a = some d → f (h c) a = some (h d)) (hl : l.foldlM g c = some d) :
    l.foldlM f (h c) = some (h d) := by
  induction l generalizing c with
  | nil =>
      cases hl
      rfl
  | cons a l ih =>
      rw [List.foldlM_cons] at hl ⊢
      obtain ⟨e, he, hl⟩ := Option.bind_eq_some_iff.mp hl
      rw [hstep a List.mem_cons_self c e he]
      exact ih (fun a ha => hstep a (List.mem_cons_of_mem _ ha)) hl

end LearnNote.Lib.Loops
