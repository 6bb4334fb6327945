import Mathlib.Logic.Function.Iterate
import Mathlib.Data.List.Basic
import Mathlib.Data.List.Nodup

namespace LearnNote.Lib.Linked

variable {α : Type*} [Zero α]

/-- The cells met when following next from a pointer up to null, which is 0.
A chain in this sense is finite, acyclic and ends in null. -/
def Chain (next : α → α) : α → List α → Prop
  | p, [] => p = 0
  | p, q :: l => p = q ∧ q ≠ 0 ∧ Chain next (next q) l

variable {next next' : α → α} {p q c : α} {l k : List α}

@[simp] theorem chain_nil : Chain next p [] ↔ p = 0 := Iff.rfl

@[simp] theorem chain_cons : Chain next p (q :: l) ↔ p = q ∧ q ≠ 0 ∧ Chain next (next q) l := Iff.rfl

@[simp] theorem chain_null : Chain next 0 l ↔ l = [] := by
  cases l with
  | nil => simp
  | cons q l =>
      simp only [chain_cons, reduceCtorEq, iff_false, not_and]
      intro h hq
      exact absurd h.symm hq

theorem Chain.unique (h : Chain next p l) (h' : Chain next p k) : l = k := by
  induction l generalizing p k with
  | nil =>
      rw [chain_nil.mp h] at h'
      exact (chain_null.mp h').symm
  | cons a l ih =>
      obtain ⟨rfl, ha, ht⟩ := h
      cases k with
      | nil => exact absurd (chain_nil.mp h') ha
      | cons b k =>
          obtain ⟨rfl, -, ht'⟩ := h'
          rw [ih ht ht']

theorem Chain.start_unique (h : Chain next p l) (h' : Chain next' q l) : p = q := by
  cases l with
  | nil => exact (chain_nil.mp h).trans (chain_nil.mp h').symm
  | cons a l => exact h.1.trans h'.1.symm

theorem Chain.exists_cons (h : Chain next p l) (hp : p ≠ 0) :
    ∃ t, l = p :: t ∧ Chain next (next p) t := by
  cases l with
  | nil => exact absurd h hp
  | cons a t =>
      obtain ⟨rfl, -, ht⟩ := h
      exact ⟨t, rfl, ht⟩

theorem Chain.tail_of_append {u : List α} (h : Chain next p (u ++ q :: l)) : Chain next q (q :: l) := by
  induction u generalizing p with
  | nil =>
      obtain ⟨rfl, hq, ht⟩ := h
      exact ⟨rfl, hq, ht⟩
  | cons a u ih => exact ih h.2.2

/-- A chain visits no cell twice: the rest of the chain after a cell is
determined by the cell, so a second visit would give the cell two rests of
different lengths. -/
theorem Chain.nodup (h : Chain next p l) : l.Nodup := by
  induction l generalizing p with
  | nil => exact List.nodup_nil
  | cons a l ih =>
      obtain ⟨rfl, ha, ht⟩ := h
      refine List.nodup_cons.mpr ⟨?_, ih ht⟩
      intro hmem
      obtain ⟨u, v, rfl⟩ := List.append_of_mem hmem
      have hv : p :: (u ++ p :: v) = p :: v := Chain.unique ⟨rfl, ha, ht⟩ ht.tail_of_append
      have hlen := congrArg List.length hv
      simp only [List.length_cons, List.length_append] at hlen
      omega

theorem Chain.apart_concat (h : Chain next p (q :: l)) (hk : ∀ c ∈ q :: l, c ∉ k) : ∀ c ∈ l, c ∉ k ++ [q] := by
  intro c hc hin
  rcases List.mem_append.mp hin with hin | hin
  · exact hk c (List.mem_cons_of_mem _ hc) hin
  · exact (List.nodup_cons.mp h.nodup).1 (List.mem_singleton.mp hin ▸ hc)

theorem Chain.congr (h : Chain next p l) (heq : ∀ q ∈ l, next' q = next q) : Chain next' p l := by
  induction l generalizing p with
  | nil => exact h
  | cons a l ih =>
      obtain ⟨rfl, ha, ht⟩ := h
      refine ⟨rfl, ha, ?_⟩
      rw [heq p (by simp)]
      exact ih ht (fun q hq => heq q (List.mem_cons_of_mem _ hq))

/-- A non-null pointer that is met when next is followed from another. -/
inductive Reaches (next : α → α) : α → α → Prop
  | here {p : α} (h : p ≠ 0) : Reaches next p p
  | next {p q : α} (h : p ≠ 0) (hr : Reaches next (next p) q) : Reaches next p q

theorem Chain.reaches_iff (h : Chain next p l) : Reaches next p q ↔ q ∈ l := by
  constructor
  · intro hr
    induction hr generalizing l with
    | here hp =>
        obtain ⟨k, rfl, -⟩ := h.exists_cons hp
        exact List.mem_cons_self
    | next hp _ ih =>
        obtain ⟨k, rfl, hk⟩ := h.exists_cons hp
        exact List.mem_cons_of_mem _ (ih hk)
  · intro hq
    induction l generalizing p with
    | nil => cases hq
    | cons a l ih =>
        obtain ⟨rfl, hp, hl⟩ := h
        rcases List.mem_cons.mp hq with rfl | hq
        · exact .here hp
        · exact .next hp (ih hl hq)

theorem Chain.iterate (h : Chain next p l) (k : Nat) (hk : k ≤ l.length) : Chain next (next^[k] p) (l.drop k) := by
  induction k generalizing p l with
  | zero => exact h
  | succ k ih =>
      cases l with
      | nil => exact absurd hk (Nat.not_succ_le_zero k)
      | cons a l =>
          obtain ⟨rfl, -, hl⟩ := h
          exact ih hl (Nat.le_of_succ_le_succ hk)

theorem Chain.getElem (h : Chain next p l) {k : Nat} (hk : k < l.length) : next^[k] p = l[k] ∧ l[k] ≠ 0 := by
  have hrest := h.iterate k (Nat.le_of_lt hk)
  rw [List.drop_eq_getElem_cons hk] at hrest
  exact ⟨hrest.1, hrest.2.1⟩

theorem Chain.iterate_ne (h : Chain next p l) {k : Nat} (hk : k < l.length) : next^[k] p ≠ 0 := by
  obtain ⟨heq, hne⟩ := h.getElem hk
  rwa [heq]

theorem Chain.iterate_length (h : Chain next p l) : next^[l.length] p = 0 := by
  have hrest := h.iterate l.length (Nat.le_refl _)
  rwa [List.drop_length] at hrest

/-- Following next from p goes through the cells of l, and on to q. -/
def Path (next : α → α) : α → List α → α → Prop
  | p, [], q => p = q
  | p, a :: l, q => p = a ∧ a ≠ 0 ∧ Path next (next a) l q

theorem Path.chain (h : Path next p l q) (hq : Chain next q k) : Chain next p (l ++ k) := by
  induction l generalizing p with
  | nil => exact h ▸ hq
  | cons a l ih =>
      obtain ⟨hp, ha, ht⟩ := h
      exact ⟨hp, ha, ih ht⟩

theorem Path.congr (h : Path next p l q) (heq : ∀ c ∈ l, next' c = next c) : Path next' p l q := by
  induction l generalizing p with
  | nil => exact h
  | cons a l ih =>
      obtain ⟨rfl, ha, ht⟩ := h
      refine ⟨rfl, ha, ?_⟩
      rw [heq p List.mem_cons_self]
      exact ih ht fun c hc => heq c (List.mem_cons_of_mem _ hc)

theorem path_append {u : List α} : Path next p (u ++ q :: l) c ↔ Path next p u q ∧ Path next q (q :: l) c := by
  induction u generalizing p with
  | nil =>
      constructor
      · rintro ⟨rfl, hp, hl⟩
        exact ⟨rfl, rfl, hp, hl⟩
      · rintro ⟨rfl, hl⟩
        exact hl
  | cons a u ih =>
      constructor
      · rintro ⟨rfl, hp, hl⟩
        obtain ⟨hu, hl⟩ := ih.mp hl
        exact ⟨⟨rfl, hp, hu⟩, hl⟩
      · rintro ⟨⟨rfl, hp, hu⟩, hl⟩
        exact ⟨rfl, hp, ih.mpr ⟨hu, hl⟩⟩

theorem Path.start_unique (h : Path next p l c) (h' : Path next' q l c) : p = q := by
  cases l with
  | nil => exact h.trans h'.symm
  | cons a l => exact h.1.trans h'.1.symm

theorem Path.next_unique (h : Path next p l c) (h' : Path next' q l c) {a : α} (ha : a ∈ l) : next a = next' a := by
  induction l generalizing p q with
  | nil => cases ha
  | cons b l ih =>
      obtain ⟨-, -, ht⟩ := h
      obtain ⟨-, -, ht'⟩ := h'
      rcases List.mem_cons.mp ha with rfl | ha
      · exact ht.start_unique ht'
      · exact ih ht ht' ha

section update

variable [DecidableEq α]

theorem Path.concat (h : Path next p l q) (hq : q ≠ 0) (hm : q ∉ l) (v : α) :
    Path (Function.update next q v) p (l ++ [q]) v := by
  induction l generalizing p with
  | nil =>
      obtain rfl := h
      exact ⟨rfl, hq, Function.update_self _ _ _⟩
  | cons a l ih =>
      obtain ⟨rfl, ha, ht⟩ := h
      have hne : p ≠ q := by
        rintro rfl
        exact hm List.mem_cons_self
      refine ⟨rfl, ha, ?_⟩
      rw [Function.update_of_ne hne]
      exact ih ht fun hl => hm (List.mem_cons_of_mem _ hl)

theorem Chain.update (h : Chain next p l) {c v : α} (hc : c ∉ l) :
    Chain (Function.update next c v) p l := by
  apply h.congr
  intro q hq
  apply Function.update_of_ne
  intro he
  exact hc (he ▸ hq)

theorem Chain.push (h : Chain next p l) (hq : q ≠ 0) (hm : q ∉ l) :
    Chain (Function.update next q p) q (q :: l) := by
  refine ⟨rfl, hq, ?_⟩
  rw [Function.update_self]
  exact h.update hm

/-- Overwriting the link of one cell replaces what follows it. -/
theorem Chain.relink {u r : List α} {v : α} (h : Chain next p (u ++ q :: l))
    (hr : Chain next v r) (hd : ∀ c ∈ u ++ [q], c ∉ r) :
    Chain (Function.update next q v) p (u ++ q :: r) := by
  have hn := h.nodup
  induction u generalizing p with
  | nil =>
      obtain ⟨rfl, hq, -⟩ := h
      exact hr.push hq (hd p (by simp))
  | cons a u ih =>
      obtain ⟨rfl, ha, ht⟩ := h
      have hne : p ≠ q := by
        intro he
        subst he
        simp at hn
      refine ⟨rfl, ha, ?_⟩
      rw [Function.update_of_ne hne]
      exact ih ht (fun c hc => hd c (by simp only [List.cons_append, List.mem_cons]; exact .inr hc))
        (List.nodup_cons.mp hn).2

end update

/-- Several lists in one store: each index names a list by its head, and no
cell lies on the lists of two indices. -/
structure Owned {ι : Type*} (next : α → α) (heads : ι → α) (lists : ι → List α) : Prop where
  chain : ∀ i, Chain next (heads i) (lists i)
  apart : ∀ i j a, a ∈ lists i → a ∈ lists j → i = j

namespace Owned

variable {ι : Type*} {heads : ι → α} {lists : ι → List α} {i j : ι}

theorem congr (h : Owned next heads lists) (heq : ∀ i, ∀ q ∈ lists i, next' q = next q) :
    Owned next' heads lists :=
  ⟨fun i => (h.chain i).congr (heq i), h.apart⟩

theorem empty (next : α → α) : Owned next (fun _ : ι => 0) (fun _ => []) :=
  ⟨fun _ => rfl, fun _ _ _ h => by simp at h⟩

theorem eq_nil (h : Owned next heads lists) (hi : heads i = 0) : lists i = [] := by
  have hc := h.chain i
  rw [hi] at hc
  exact chain_null.mp hc

variable [DecidableEq ι]

theorem place (h : Owned next heads lists) (hp : Chain next p l) (hl : ∀ q ∈ l, ∀ i, q ∉ lists i) :
    Owned next (Function.update heads j p) (Function.update lists j l) := by
  constructor
  · intro i
    by_cases hi : i = j
    · subst hi; simpa using hp
    · simpa [Function.update_of_ne hi] using h.chain i
  · intro a b q ha hb
    by_cases hi : a = j <;> by_cases hk : b = j
    · rw [hi, hk]
    · subst hi
      rw [Function.update_self] at ha
      rw [Function.update_of_ne hk] at hb
      exact absurd hb (hl q ha b)
    · subst hk
      rw [Function.update_self] at hb
      rw [Function.update_of_ne hi] at ha
      exact absurd ha (hl q hb a)
    · rw [Function.update_of_ne hi] at ha
      rw [Function.update_of_ne hk] at hb
      exact h.apart a b q ha hb

theorem drop (h : Owned next heads lists) :
    Owned next (Function.update heads i 0) (Function.update lists i []) := by
  constructor
  · intro k
    by_cases hk : k = i
    · subst hk; simp
    · simpa [Function.update_of_ne hk] using h.chain k
  · intro a b q ha hb
    by_cases hi : a = i
    · subst hi; simp at ha
    · by_cases hk : b = i
      · subst hk; simp at hb
      · rw [Function.update_of_ne hi] at ha
        rw [Function.update_of_ne hk] at hb
        exact h.apart a b q ha hb

theorem drop_notMem (h : Owned next heads lists) (hq : q ∈ lists i) (k : ι) :
    q ∉ Function.update lists i [] k := by
  by_cases hk : k = i
  · subst hk; simp
  · rw [Function.update_of_ne hk]
    intro hm
    exact hk (h.apart k i q hm hq)

omit [Zero α] in
theorem mem_push {c : α} : c ∈ Function.update lists j (q :: lists j) i ↔ (i = j ∧ c = q) ∨ c ∈ lists i := by
  by_cases hi : i = j
  · subst hi
    simp
  · simp [hi]

theorem mem_unlink (h : Owned next heads lists) {u r : List α} (hl : lists j = u ++ q :: r) {c : α} :
    c ∈ Function.update lists j (u ++ r) i ↔ c ∈ lists i ∧ c ≠ q := by
  have hq : q ∈ lists j := by simp [hl]
  by_cases hi : i = j
  · subst hi
    have hn := (h.chain i).nodup
    rw [hl] at hn
    have hoff : q ∉ u ++ r := (List.nodup_cons.mp (List.nodup_middle.mp hn)).1
    rw [Function.update_self, hl, List.mem_append, List.mem_append, List.mem_cons]
    refine ⟨fun hc => ⟨by tauto, fun he => hoff ?_⟩, by tauto⟩
    rw [← he]
    exact List.mem_append.mpr hc
  · rw [Function.update_of_ne hi]
    refine ⟨fun hc => ⟨hc, fun he => hi ?_⟩, And.left⟩
    exact h.apart i j q (he ▸ hc) hq

theorem pop (h : Owned next heads lists) (hi : heads i ≠ 0) :
    ∃ t, lists i = heads i :: t ∧
      Owned next (Function.update heads i (next (heads i))) (Function.update lists i t) := by
  obtain ⟨t, ht, hc⟩ := (h.chain i).exists_cons hi
  refine ⟨t, ht, ?_⟩
  have hd := (h.drop (i := i)).place (j := i) hc
    (fun q hq => h.drop_notMem (by rw [ht]; exact List.mem_cons_of_mem _ hq))
  simpa using hd

variable [DecidableEq α]

omit [DecidableEq ι] in
theorem write (h : Owned next heads lists) {c v : α} (hc : ∀ i, c ∉ lists i) :
    Owned (Function.update next c v) heads lists :=
  ⟨fun i => (h.chain i).update (hc i), h.apart⟩

theorem push (h : Owned next heads lists) (hq : q ≠ 0) (hm : ∀ i, q ∉ lists i) :
    Owned (Function.update next q (heads j)) (Function.update heads j q)
      (Function.update lists j (q :: lists j)) := by
  have hd := ((h.drop (i := j)).write (c := q) (v := heads j)
    (by
      intro i
      by_cases hi : i = j
      · subst hi; simp
      · simpa [Function.update_of_ne hi] using hm i)).place (j := j)
    ((h.chain j).push hq (hm j))
    (by
      intro c hc i
      rcases List.mem_cons.mp hc with rfl | hc
      · by_cases hi : i = j
        · subst hi; simp
        · simpa [Function.update_of_ne hi] using hm i
      · exact h.drop_notMem hc i)
  simpa using hd

theorem unlink (h : Owned next heads lists) {u r : List α} (hl : lists i = u ++ p :: q :: r) :
    Owned (Function.update next p (next q)) heads (Function.update lists i (u ++ p :: r)) := by
  have hc := h.chain i
  rw [hl] at hc
  have hn : (u ++ p :: q :: r).Nodup := hc.nodup
  have hr : Chain next (next q) r := by
    have ht : Chain next q (q :: r) := by
      apply Chain.tail_of_append (u := u ++ [p])
      simpa using hc
    exact ht.2.2
  have hoff : ∀ c ∈ u ++ [p], c ∉ r := by
    intro c hc hm
    rw [show u ++ p :: q :: r = (u ++ [p]) ++ (q :: r) by simp] at hn
    exact (List.nodup_append.mp hn).2.2 c hc c (List.mem_cons_of_mem _ hm) rfl
  have hdrop := (h.drop (i := i)).write (c := p) (v := next q) (h.drop_notMem (by simp [hl]))
  have hput := hdrop.place (j := i) (hc.relink hr hoff) (by
    intro c hm
    apply h.drop_notMem
    rw [hl]
    simp only [List.mem_append, List.mem_cons] at hm ⊢
    tauto)
  simpa using hput

theorem cut (h : Owned next heads lists) {u r : List α} (hl : lists i = u ++ q :: r)
    (hij : i ≠ j) :
    Owned (Function.update next q 0) (Function.update heads j (next q))
      (Function.update (Function.update lists i (u ++ [q])) j r) := by
  have hc := h.chain i
  rw [hl] at hc
  have hn := hc.nodup
  have hr : Chain next (next q) r := hc.tail_of_append.2.2
  have hqr : q ∉ r := by
    intro hm
    have := (List.nodup_append.mp hn).2.1
    exact (List.nodup_cons.mp this).1 hm
  have hur : ∀ c ∈ u ++ [q], c ∉ r := by
    intro c hc hm
    rcases List.mem_append.mp hc with hc | hc
    · exact (List.nodup_append.mp hn).2.2 c hc c (List.mem_cons_of_mem _ hm) rfl
    · rw [List.mem_singleton.mp hc] at hm
      exact hqr hm
  have hkeep : Chain (Function.update next q 0) (heads i) (u ++ [q]) :=
    hc.relink (r := []) rfl (by simp)
  have hdrop := (h.drop (i := i)).write (c := q) (v := 0) (h.drop_notMem (by simp [hl]))
  have hput := hdrop.place (j := i) hkeep
    (fun c hm => h.drop_notMem (by rw [hl]; simp only [List.mem_append, List.mem_cons] at hm ⊢; tauto))
  have hput' := hput.place (j := j) (hr.update hqr) (by
    intro c hm k
    by_cases hk : k = i
    · subst hk
      rw [Function.update_self]
      intro hu
      exact hur c hu hm
    · rw [Function.update_of_ne hk]
      exact h.drop_notMem (by rw [hl]; simp [hm]) k)
  simpa using hput'

/-- Linking the tail of one list to the head of another and handing the whole
to the second index. Cells behind the tail are dropped. -/
theorem splice (h : Owned next heads lists) {u r : List α} (hl : lists i = u ++ q :: r)
    (hij : i ≠ j) :
    Owned (Function.update next q (heads j)) (Function.update (Function.update heads i 0) j (heads i))
      (Function.update (Function.update lists i []) j (u ++ q :: lists j)) := by
  have hc := h.chain i
  rw [hl] at hc
  have hsub : ∀ c ∈ u ++ [q], c ∈ lists i := by
    intro c hc
    rw [hl]
    simp only [List.mem_append, List.mem_cons, List.not_mem_nil, or_false] at hc ⊢
    tauto
  have hoff : ∀ c ∈ u ++ [q], c ∉ lists j := fun c hc hm => hij (h.apart i j c (hsub c hc) hm)
  have hjoin := hc.relink (h.chain j) hoff
  have hdrop := ((h.drop (i := i)).drop (i := j)).write (c := q) (v := heads j) (by
    intro k
    by_cases hk : k = j
    · subst hk; simp
    · rw [Function.update_of_ne hk]
      exact h.drop_notMem (by simp [hl]) k)
  have hput := hdrop.place (j := j) hjoin (by
    intro c hc k
    by_cases hk : k = j
    · subst hk; simp
    · rw [Function.update_of_ne hk]
      by_cases hm : c ∈ lists j
      · by_cases hki : k = i
        · subst hki; simp
        · rw [Function.update_of_ne hki]
          intro hm'
          exact hk (h.apart k j c hm' hm)
      · refine h.drop_notMem (hsub c ?_) k
        simp only [List.mem_append, List.mem_cons, List.not_mem_nil, or_false] at hc ⊢
        tauto)
  simpa [Function.update_idem] using hput

end Owned

end LearnNote.Lib.Linked
