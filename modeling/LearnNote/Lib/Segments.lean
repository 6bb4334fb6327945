import Mathlib.Data.List.Basic

namespace LearnNote.Lib.Segments

variable {α : Type*}

def segment (l : List α) (i n : Nat) : List α := (l.drop i).take n

def store (l : List α) (i : Nat) : List α → List α
  | [] => l
  | x :: xs => store (l.set i x) (i + 1) xs

def copyForward (l : List α) (src dst : Nat) : Nat → List α
  | 0 => l
  | n + 1 =>
      match l[src]? with
      | none => l
      | some x => copyForward (l.set dst x) (src + 1) (dst + 1) n

def resize (l : List α) (n : Nat) (fill : α) : List α := l.take n ++ List.replicate (n - l.length) fill

theorem getElem?_segment (l : List α) (i n k : Nat) :
    (segment l i n)[k]? = if k < n then l[i + k]? else none := by
  rw [segment, List.getElem?_take, List.getElem?_drop]

theorem segment_zero (l : List α) (i : Nat) : segment l i 0 = [] := List.take_zero

theorem length_segment {l : List α} {i n : Nat} (h : i + n ≤ l.length) : (segment l i n).length = n := by
  rw [segment, List.length_take, List.length_drop]
  omega

theorem segment_add (l : List α) (i m n : Nat) :
    segment l i (m + n) = segment l i m ++ segment l (i + m) n := by
  rw [segment, segment, segment, List.take_add, List.drop_drop]

theorem segment_succ {l : List α} {i : Nat} {x : α} (h : l[i]? = some x) (n : Nat) :
    segment l i (n + 1) = x :: segment l (i + 1) n := by
  obtain ⟨hi, rfl⟩ := List.getElem?_eq_some_iff.mp h
  rw [segment, List.drop_eq_getElem_cons hi, List.take_succ_cons, segment]

theorem take_segment (l : List α) (i m n : Nat) : (segment l i (m + n)).take m = segment l i m := by
  rw [segment, segment, List.take_take, Nat.min_eq_left (Nat.le_add_right m n)]

theorem drop_segment (l : List α) (i m n : Nat) :
    (segment l i (m + n)).drop m = segment l (i + m) n := by
  rw [segment, segment, List.drop_take, List.drop_drop, Nat.add_sub_cancel_left]

theorem segment_congr {l l' : List α} {i j n : Nat} (h : ∀ k, k < n → l[i + k]? = l'[j + k]?) :
    segment l i n = segment l' j n := by
  apply List.ext_getElem?
  intro k
  rw [getElem?_segment, getElem?_segment]
  by_cases hk : k < n
  · rw [if_pos hk, if_pos hk, h k hk]
  · rw [if_neg hk, if_neg hk]

@[simp]
theorem length_store (l : List α) (i : Nat) (xs : List α) : (store l i xs).length = l.length := by
  induction xs generalizing l i with
  | nil => rfl
  | cons x xs ih => rw [store, ih, List.length_set]

theorem getElem?_store_of_lt (l : List α) {i k : Nat} (xs : List α) (h : k < i) :
    (store l i xs)[k]? = l[k]? := by
  induction xs generalizing l i with
  | nil => rfl
  | cons x xs ih =>
      rw [store, ih (l.set i x) (Nat.lt_add_right 1 h)]
      exact List.getElem?_set_ne (Nat.ne_of_gt h)

theorem segment_store (l : List α) (i : Nat) (xs : List α) (h : i + xs.length ≤ l.length) :
    segment (store l i xs) i xs.length = xs := by
  induction xs generalizing l i with
  | nil => rfl
  | cons x xs ih =>
      rw [List.length_cons] at h
      have hx : (store (l.set i x) (i + 1) xs)[i]? = some x := by
        rw [getElem?_store_of_lt _ _ (Nat.lt_add_one i)]
        exact List.getElem?_set_self (by omega)
      rw [store, List.length_cons, segment_succ hx, ih _ _ (by rw [List.length_set]; omega)]

theorem segment_store_of_le (l : List α) {i j n : Nat} (xs : List α) (h : j + n ≤ i) :
    segment (store l i xs) j n = segment l j n :=
  segment_congr (fun _ hk => getElem?_store_of_lt l xs (by omega))

theorem length_copyForward (l : List α) (src dst n : Nat) :
    (copyForward l src dst n).length = l.length := by
  induction n generalizing l src dst with
  | zero => rfl
  | succ n ih =>
      rw [copyForward]
      cases l[src]? with
      | none => rfl
      | some x => exact (ih _ _ _).trans List.length_set

theorem getElem?_copyForward_of_lt (l : List α) {src dst k : Nat} (n : Nat) (h : k < dst) :
    (copyForward l src dst n)[k]? = l[k]? := by
  induction n generalizing l src dst with
  | zero => rfl
  | succ n ih =>
      rw [copyForward]
      cases l[src]? with
      | none => rfl
      | some x => exact (ih _ (Nat.lt_add_right 1 h)).trans (List.getElem?_set_ne (Nat.ne_of_gt h))

/-- Copying towards the front reads every element before it is overwritten. -/
theorem segment_copyForward (l : List α) {src dst n : Nat} (hle : dst ≤ src) (h : src + n ≤ l.length) :
    segment (copyForward l src dst n) dst n = segment l src n := by
  induction n generalizing l src dst with
  | zero => rw [segment_zero, segment_zero]
  | succ n ih =>
      have hx : l[src]? = some l[src] := List.getElem?_eq_getElem (by omega)
      have hd : (copyForward (l.set dst l[src]) (src + 1) (dst + 1) n)[dst]? = some l[src] := by
        rw [getElem?_copyForward_of_lt _ n (Nat.lt_add_one dst)]
        exact List.getElem?_set_self (by omega)
      have ht := ih (l.set dst l[src]) (Nat.add_le_add_right hle 1) (by rw [List.length_set]; omega)
      have hs : segment (l.set dst l[src]) (src + 1) n = segment l (src + 1) n :=
        segment_congr (fun k _ => List.getElem?_set_ne (by omega))
      rw [copyForward, hx, segment_succ hd, segment_succ hx, ht, hs]

@[simp]
theorem length_resize (l : List α) (n : Nat) (fill : α) : (resize l n fill).length = n := by
  rw [resize, List.length_append, List.length_take, List.length_replicate]
  omega

theorem segment_resize (l : List α) {i m n : Nat} (fill : α) (h : i + m ≤ n) (hl : i + m ≤ l.length) :
    segment (resize l n fill) i m = segment l i m := by
  apply segment_congr
  intro k hk
  rw [resize, List.getElem?_append_left (by rw [List.length_take]; omega)]
  exact List.getElem?_take_of_lt (by omega)

end LearnNote.Lib.Segments
