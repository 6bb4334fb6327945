import Mathlib.Data.Int.Range
import Mathlib.Logic.Function.Basic
import LearnNote.Lib.Loops

namespace LearnNote.Lib

/-- An element of a vector. No result is an index outside. -/
def elementAt {β : Type*} {n : Nat} (v : Fin n → β) (i : Int) : Option β :=
  if h : 0 ≤ i ∧ i.toNat < n then some (v ⟨i.toNat, h.2⟩) else none

theorem elementAt_of_mem {β : Type*} {n : Nat} {v : Fin n → β} {i : Int} (p : Fin n) (hp : p.val = i) :
    elementAt v i = some (v p) := by
  have hval : (⟨i.toNat, by omega⟩ : Fin n) = p := Fin.ext (by simp only; omega)
  rw [elementAt, dif_pos (by omega), hval]

theorem exists_index {n : Nat} {i : Int} (hi : 1 ≤ i ∧ i ≤ n) :
    ∃ p : Fin n, (p.val : Int) = i - 1 ∧ (i - 1).toNat = p.val ∧ i.toNat = p.val + 1 :=
  ⟨⟨(i - 1).toNat, by omega⟩, by simp only; omega, rfl, by simp only; omega⟩

/-- A vector of vectors of one size. -/
structure Table (β : Type*) where
  rows : Int
  cols : Int
  entry : Int → Int → β

namespace Table

universe u

variable {β : Type u}

/-- No result is a negative size or, below, an index outside the table. -/
def make (rows cols : Int) (x : β) : Option (Table β) :=
  if 0 ≤ rows ∧ 0 ≤ cols then some ⟨rows, cols, fun _ _ => x⟩ else none

def get (t : Table β) (i j : Int) : Option β :=
  if (0 ≤ i ∧ i < t.rows) ∧ 0 ≤ j ∧ j < t.cols then some (t.entry i j) else none

def set (t : Table β) (i j : Int) (x : β) : Option (Table β) :=
  if (0 ≤ i ∧ i < t.rows) ∧ 0 ≤ j ∧ j < t.cols then
    some { t with entry := Function.update t.entry i (Function.update (t.entry i) j x) }
  else none

variable {R : Int → Int → β → Prop} {n m i j : Int} {t : Table β} {x : β}

/-- Row after row, what the entries before a place are to be. The first row and the first column are
there before the loops. -/
structure Filled (R : Int → Int → β → Prop) (n m i j : Int) (t : Table β) : Prop where
  rows : t.rows = n + 1
  cols : t.cols = m + 1
  entry : ∀ a b, 0 ≤ a → a ≤ n → 0 ≤ b → b ≤ m → a < i ∨ a = i ∧ b < j ∨ b = 0 → R a b (t.entry a b)

theorem Filled.get (h : Filled R n m i j t) {a b : Int} (ha : 0 ≤ a ∧ a ≤ n) (hb : 0 ≤ b ∧ b ≤ m)
    (hbefore : a < i ∨ a = i ∧ b < j ∨ b = 0) : ∃ x, t.get a b = some x ∧ R a b x := by
  have hrows := h.rows
  have hcols := h.cols
  refine ⟨t.entry a b, ?_, h.entry a b ha.1 ha.2 hb.1 hb.2 hbefore⟩
  rw [Table.get, if_pos (by omega)]

theorem Filled.set (h : Filled R n m i j t) (hi : 1 ≤ i ∧ i ≤ n) (hj : 1 ≤ j ∧ j ≤ m) (hx : R i j x) :
    ∃ t', t.set i j x = some t' ∧ Filled R n m i (j + 1) t' := by
  have hrows := h.rows
  have hcols := h.cols
  refine ⟨_, if_pos (by omega), hrows, hcols, fun a b ha han hb hbm hbefore => ?_⟩
  by_cases hrow : a = i
  · subst hrow
    simp only [Function.update_self]
    by_cases hcol : b = j
    · subst hcol
      rwa [Function.update_self]
    · rw [Function.update_of_ne hcol]
      exact h.entry a b ha han hb hbm (by omega)
  · simp only [Function.update_of_ne hrow]
    exact h.entry a b ha han hb hbm (by omega)

theorem Filled.row (h : Filled R n m i (m + 1) t) : Filled R n m (i + 1) 1 t :=
  ⟨h.rows, h.cols, fun a b ha han hb hbm hbefore => h.entry a b ha han hb hbm (by omega)⟩

/-- Two loops over the places that set each from those before it. -/
theorem Filled.loops {body : Table β → Int → Int → Option (Table β)} (hn : 0 ≤ n) (hm : 0 ≤ m)
    (hstart : Filled R n m 1 1 t)
    (hbody : ∀ i j t, 1 ≤ i ∧ i ≤ n → 1 ≤ j ∧ j ≤ m → Filled R n m i j t → ∃ x, body t i j = t.set i j x ∧ R i j x) :
    ∃ t', (Int.range 1 (n + 1)).foldlM (fun t i => (Int.range 1 (m + 1)).foldlM (fun t j => body t i j) t) t =
      some t' ∧ Filled R n m (n + 1) 1 t' := by
  refine Loops.forInt_spec (I := fun i t => Filled R n m i 1 t) (by omega : 1 ≤ n + 1) hstart fun i hi hin t ht => ?_
  have hround : ∀ j, 1 ≤ j → j < m + 1 → ∀ t, Filled R n m i j t →
      ∃ t', body t i j = some t' ∧ Filled R n m i (j + 1) t' := by
    intro j hj hjm t ht
    have hi' : 1 ≤ i ∧ i ≤ n := ⟨hi, by omega⟩
    have hj' : 1 ≤ j ∧ j ≤ m := ⟨hj, by omega⟩
    obtain ⟨x, hx, hR⟩ := hbody i j t hi' hj' ht
    obtain ⟨t', ht', hnext⟩ := ht.set hi' hj' hR
    exact ⟨t', hx.trans ht', hnext⟩
  obtain ⟨t', ht', hrow⟩ := Loops.forInt_spec (by omega : 1 ≤ m + 1) ht hround
  exact ⟨t', ht', hrow.row⟩

theorem first_column {n m : Int} (hn : 0 ≤ n) (hm : 0 ≤ m) (x y : β) :
    ∃ t : Table β, ((make (n + 1) (m + 1) x).bind fun t =>
        (Int.range 0 (n + 1)).foldlM (fun (t : Table β) i => t.set i 0 y) t) = some t ∧
      t.rows = n + 1 ∧ t.cols = m + 1 ∧ (∀ a, 0 ≤ a → a ≤ n → t.entry a 0 = y) ∧
      ∀ a b, b ≠ 0 → t.entry a b = x := by
  have hround : ∀ i, 0 ≤ i → i < n + 1 → ∀ t : Table β,
      (t.rows = n + 1 ∧ t.cols = m + 1 ∧ (∀ a, 0 ≤ a → a < i → t.entry a 0 = y) ∧ ∀ a b, b ≠ 0 → t.entry a b = x) →
      ∃ t', t.set i 0 y = some t' ∧ t'.rows = n + 1 ∧ t'.cols = m + 1 ∧
        (∀ a, 0 ≤ a → a < i + 1 → t'.entry a 0 = y) ∧ ∀ a b, b ≠ 0 → t'.entry a b = x := by
    rintro i hi hin t ⟨hrows, hcols, hfirst, hrest⟩
    refine ⟨_, if_pos (by omega), hrows, hcols, fun a ha hai => ?_, fun a b hb => ?_⟩
    · by_cases he : a = i
      · subst he
        simp
      · simp only [Function.update_of_ne he]
        exact hfirst a ha (by omega)
    · by_cases he : a = i
      · subst he
        simp [hb, hrest]
      · simp only [Function.update_of_ne he]
        exact hrest a b hb
  have hmake : make (n + 1) (m + 1) x = some ⟨n + 1, m + 1, fun _ _ => x⟩ := if_pos (by omega)
  obtain ⟨t, ht, hrows, hcols, hfirst, hrest⟩ := Loops.forInt_spec (b := ⟨n + 1, m + 1, fun _ _ => x⟩)
    (by omega : 0 ≤ n + 1) ⟨rfl, rfl, fun a ha hlt => absurd ha (not_le.mpr hlt), fun _ _ _ => rfl⟩ hround
  refine ⟨t, ?_, hrows, hcols, fun a ha han => hfirst a ha (by omega), hrest⟩
  rw [hmake, Option.bind_some, ht]

theorem filled_first (hn : 0 ≤ n) (hm : 0 ≤ m) {x y : β} (hcolumn : ∀ a, R a 0 y) (hrow : ∀ b, b ≠ 0 → R 0 b x) :
    ∃ t : Table β, ((make (n + 1) (m + 1) x).bind fun t =>
        (Int.range 0 (n + 1)).foldlM (fun (t : Table β) i => t.set i 0 y) t) = some t ∧ Filled R n m 1 1 t := by
  obtain ⟨t, ht, hrows, hcols, hfirst, hrest⟩ := first_column hn hm x y
  refine ⟨t, ht, hrows, hcols, fun a b ha han hb hbm hbefore => ?_⟩
  by_cases hzero : b = 0
  · subst hzero
    rw [hfirst a ha han]
    exact hcolumn a
  · obtain rfl : a = 0 := by omega
    rw [hrest 0 b hzero]
    exact hrow b hzero

end Table

end LearnNote.Lib
