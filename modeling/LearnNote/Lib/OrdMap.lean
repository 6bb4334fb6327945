import Mathlib.Data.List.Basic
import Mathlib.Data.List.Pairwise
import Mathlib.Order.Lattice

namespace LearnNote.Lib

variable {κ ν : Type*} [LinearOrder κ]

/-- A finite map over ordered keys, kept as its entries in increasing order of
their keys. -/
structure OrdMap (κ ν : Type*) [LinearOrder κ] where
  entries : List (κ × ν)
  sorted : entries.Pairwise (fun a b => a.1 < b.1)

namespace OrdMap

def empty : OrdMap κ ν := ⟨[], List.Pairwise.nil⟩

def lookup (k : κ) : List (κ × ν) → Option ν
  | [] => none
  | e :: l => if e.1 = k then some e.2 else lookup k l

def put (k : κ) (v : ν) : List (κ × ν) → List (κ × ν)
  | [] => [(k, v)]
  | e :: l => if k < e.1 then (k, v) :: e :: l else if e.1 = k then (k, v) :: l else e :: put k v l

theorem mem_put {k : κ} {v : ν} {l : List (κ × ν)} {x : κ × ν} (h : x ∈ put k v l) :
    x = (k, v) ∨ x ∈ l := by
  induction l with
  | nil => simpa [put] using h
  | cons e l ih =>
      simp only [put] at h
      split at h
      · simpa using h
      · split at h
        · rcases List.mem_cons.mp h with h | h
          · exact .inl h
          · exact .inr (List.mem_cons_of_mem _ h)
        · rcases List.mem_cons.mp h with rfl | h
          · exact .inr (by simp)
          · exact (ih h).imp id (List.mem_cons_of_mem _)

theorem put_sorted (k : κ) (v : ν) {l : List (κ × ν)} (h : l.Pairwise (fun a b => a.1 < b.1)) :
    (put k v l).Pairwise (fun a b => a.1 < b.1) := by
  induction l with
  | nil => simp [put]
  | cons e l ih =>
      obtain ⟨he, hl⟩ := List.pairwise_cons.mp h
      simp only [put]
      split
      · rename_i hlt
        refine List.pairwise_cons.mpr ⟨?_, h⟩
        intro x hx
        rcases List.mem_cons.mp hx with rfl | hx
        · exact hlt
        · exact hlt.trans (he x hx)
      · split
        · rename_i heq
          exact List.pairwise_cons.mpr ⟨fun x hx => heq ▸ he x hx, hl⟩
        · rename_i hlt heq
          refine List.pairwise_cons.mpr ⟨?_, ih hl⟩
          intro x hx
          rcases mem_put hx with rfl | hx
          · exact lt_of_le_of_ne (not_lt.mp hlt) heq
          · exact he x hx

def find? (m : OrdMap κ ν) (k : κ) : Option ν := lookup k m.entries

def insert (m : OrdMap κ ν) (k : κ) (v : ν) : OrdMap κ ν := ⟨put k v m.entries, put_sorted k v m.sorted⟩

def erase (m : OrdMap κ ν) (k : κ) : OrdMap κ ν :=
  ⟨m.entries.filter (fun e => e.1 ≠ k), m.sorted.filter _⟩

def lowerBound (m : OrdMap κ ν) (k : κ) : Option (κ × ν) := m.entries.find? (fun e => k ≤ e.1)

variable {m : OrdMap κ ν} {k k' : κ} {v : ν}

@[simp] theorem find?_empty : (empty : OrdMap κ ν).find? k = none := rfl

theorem lookup_put (k' : κ) (l : List (κ × ν)) (h : l.Pairwise (fun a b => a.1 < b.1)) :
    lookup k' (put k v l) = if k' = k then some v else lookup k' l := by
  induction l with
  | nil => simp [put, lookup, eq_comm]
  | cons e l ih =>
      have ih := ih (List.pairwise_cons.mp h).2
      simp only [put]
      split
      · simp [lookup, eq_comm]
      · split
        · rename_i heq
          by_cases hk : k' = k
          · simp [lookup, hk]
          · simp [lookup, hk, heq, Ne.symm hk]
        · rename_i heq
          by_cases hk : k' = k
          · subst hk
            simpa [lookup, heq] using ih
          · simp [lookup, ih, hk]

theorem find?_insert : (m.insert k v).find? k' = if k' = k then some v else m.find? k' :=
  lookup_put k' m.entries m.sorted

@[simp] theorem find?_insert_self : (m.insert k v).find? k = some v := by simp [find?_insert]

theorem find?_insert_of_ne (h : k' ≠ k) : (m.insert k v).find? k' = m.find? k' := by
  simp [find?_insert, h]

theorem lookup_filter (k' : κ) (l : List (κ × ν)) :
    lookup k' (l.filter (fun e => e.1 ≠ k)) = if k' = k then none else lookup k' l := by
  induction l with
  | nil => simp [lookup]
  | cons e l ih =>
      by_cases he : e.1 = k
      · rw [List.filter_cons_of_neg (by simpa using he), ih]
        by_cases hk : k' = k
        · simp [hk]
        · simp [hk, lookup, he, Ne.symm hk]
      · rw [List.filter_cons_of_pos (by simpa using he)]
        by_cases hk : k' = k
        · subst hk
          simpa [lookup, he] using ih
        · simp only [lookup, ih, hk, if_false]

theorem find?_erase : (m.erase k).find? k' = if k' = k then none else m.find? k' :=
  lookup_filter k' m.entries

theorem lookup_of_mem {l : List (κ × ν)} (h : l.Pairwise (fun a b => a.1 < b.1)) {e : κ × ν}
    (he : e ∈ l) : lookup e.1 l = some e.2 := by
  induction l with
  | nil => simp at he
  | cons a l ih =>
      obtain ⟨ha, hl⟩ := List.pairwise_cons.mp h
      rcases List.mem_cons.mp he with rfl | he
      · simp [lookup]
      · simp [lookup, (ha e he).ne, ih hl he]

theorem mem_of_lookup {l : List (κ × ν)} (h : lookup k l = some v) : (k, v) ∈ l := by
  induction l with
  | nil => simp [lookup] at h
  | cons a l ih =>
      simp only [lookup] at h
      split at h
      · rename_i ha
        cases h
        subst ha
        simp
      · exact List.mem_cons_of_mem _ (ih h)

theorem mem_entries : (k, v) ∈ m.entries ↔ m.find? k = some v :=
  ⟨fun h => lookup_of_mem m.sorted h, mem_of_lookup⟩

theorem lowerBound_some {e : κ × ν} (h : m.lowerBound k = some e) :
    m.find? e.1 = some e.2 ∧ k ≤ e.1 :=
  ⟨mem_entries.mp (List.mem_of_find?_eq_some h), by simpa using List.find?_some h⟩

end OrdMap

end LearnNote.Lib
