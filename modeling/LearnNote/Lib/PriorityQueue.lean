import Mathlib.Data.List.Sort
import Mathlib.Data.Multiset.MapFold

namespace LearnNote.Lib

/-- The operations of a priority queue, whatever its states are. An empty one has no top. -/
structure PriorityQueue (α Q : Type) where
  empty : Q
  push : Q → α → Q
  top : Q → Option α
  pop : Q → Q

namespace PriorityQueue

/-- What is relied on of them, for the order cmp: the top is an entry that is before no other. Which of
those it is, is left open. -/
structure Lawful {α Q : Type} (pq : PriorityQueue α Q) (cmp : α → α → Prop) (entries : Q → Multiset α) : Prop where
  entries_empty : entries pq.empty = 0
  entries_push : ∀ q a, entries (pq.push q a) = a ::ₘ entries q
  exists_top : ∀ q, entries q ≠ 0 → ∃ a, pq.top q = some a
  entries_pop : ∀ q a, pq.top q = some a → entries q = a ::ₘ entries (pq.pop q)
  greatest : ∀ q a, pq.top q = some a → ∀ b ∈ entries q, ¬ cmp a b

variable {α : Type} {key : α → Int} {a : α} {l : List α}

theorem orderedInsert_pairwise (h : l.Pairwise fun a b => key a ≤ key b) :
    (l.orderedInsert (fun a b => key a ≤ key b) a).Pairwise fun a b => key a ≤ key b := by
  have htotal : Std.Total fun a b => key a ≤ key b := ⟨fun a b => le_total (key a) (key b)⟩
  have htrans : IsTrans α fun a b => key a ≤ key b := ⟨fun _ _ _ => le_trans⟩
  exact h.orderedInsert a l

def ordered (key : α → Int) : PriorityQueue α {l : List α // l.Pairwise fun a b => key a ≤ key b} where
  empty := ⟨[], List.Pairwise.nil⟩
  push q a := ⟨q.1.orderedInsert (fun a b => key a ≤ key b) a, orderedInsert_pairwise q.2⟩
  top q := q.1.head?
  pop q := ⟨q.1.tail, q.2.tail⟩

theorem ordered_lawful (key : α → Int) :
    (ordered key).Lawful (fun a b => key b < key a) fun q => (q.1 : Multiset α) where
  entries_empty := rfl
  entries_push q a := Multiset.coe_eq_coe.mpr (List.perm_orderedInsert _ a q.1)
  exists_top := by
    rintro ⟨_ | ⟨a, l⟩, hl⟩ hq
    · exact absurd rfl hq
    · exact ⟨a, rfl⟩
  entries_pop := by
    rintro ⟨_ | ⟨a, l⟩, hl⟩ b hb
    · cases hb
    · cases hb
      rfl
  greatest := by
    rintro ⟨_ | ⟨a, l⟩, hl⟩ b hb c hc
    · cases hb
    · cases hb
      refine not_lt.mpr ?_
      rcases List.mem_cons.mp (Multiset.mem_coe.mp hc) with rfl | hc
      · exact le_rfl
      · exact List.rel_of_pairwise_cons hl hc

end PriorityQueue

end LearnNote.Lib
