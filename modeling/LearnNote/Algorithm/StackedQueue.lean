import Mathlib.Data.List.Basic

namespace LearnNote.Algorithm

variable {α : Type*}

/-- The two stacks, each from its top. -/
structure StackedQueue (α : Type*) where
  ist : List α
  ost : List α

namespace StackedQueue

def push (val : α) (q : StackedQueue α) : StackedQueue α := { q with ist := val :: q.ist }

def empty (q : StackedQueue α) : Bool := q.ist.isEmpty && q.ost.isEmpty

def turnOver : List α → List α → List α
  | [], ost => ost
  | temp :: ist, ost => turnOver ist (temp :: ost)

/-- No result is the exception. The top of the output stack is what pop returns. -/
def pop (q : StackedQueue α) : Option (α × StackedQueue α) :=
  if q.ost.isEmpty && !q.ist.isEmpty then
    match turnOver q.ist q.ost with
    | [] => none
    | top :: ost => some (top, ⟨[], ost⟩)
  else none

inductive Op (α : Type*)
  | push (val : α)
  | pop

/-- For each pop, what it returned or that it threw, and what empty said just before. -/
def answers : List (Op α) → StackedQueue α → List (Option α × Bool)
  | [], _ => []
  | .push val :: ops, q => answers ops (q.push val)
  | .pop :: ops, q =>
      match q.pop with
      | some (top, q') => (some top, q.empty) :: answers ops q'
      | none => (none, q.empty) :: answers ops q

def fifo : List (Op α) → List α → List (Option α × Bool)
  | [], _ => []
  | .push val :: ops, l => fifo ops (l ++ [val])
  | .pop :: ops, l => (l.head?, l.isEmpty) :: fifo ops l.tail

/-- No pop comes after one that found several elements in the queue. -/
def Shallow : List (Op α) → List α → Prop
  | [], _ => True
  | .push val :: ops, l => Shallow ops (l ++ [val])
  | .pop :: ops, l => (l.length ≤ 1 ∨ .pop ∉ ops) ∧ Shallow ops l.tail

variable {ops : List (Op α)} {q : StackedQueue α}

def contents (q : StackedQueue α) : List α := q.ost ++ q.ist.reverse

theorem turnOver_eq (ist ost : List α) : turnOver ist ost = ist.reverse ++ ost := by
  induction ist generalizing ost with
  | nil => rfl
  | cons temp ist ih => rw [turnOver, ih, List.reverse_cons, List.append_assoc, List.singleton_append]

theorem contents_push (val : α) (q : StackedQueue α) : (q.push val).contents = q.contents ++ [val] := by
  rw [contents, contents, push, List.reverse_cons, List.append_assoc]

theorem empty_eq (q : StackedQueue α) : q.empty = q.contents.isEmpty := by
  cases h : q.ost <;> simp [empty, contents, h]

theorem pop_of_ost (h : q.ost ≠ []) : q.pop = none := by
  simp [pop, h]

theorem pop_of_empty (h : q.contents = []) : q.pop = none := by
  obtain ⟨-, hist⟩ := List.append_eq_nil_iff.mp h
  simp [pop, List.reverse_eq_nil_iff.mp hist]

theorem pop_of_contents {top : α} {rest : List α} (h : q.ost = []) (hc : q.contents = top :: rest) :
    q.pop = some (top, ⟨[], rest⟩) := by
  have hreverse : q.ist.reverse = top :: rest := by simpa [contents, h] using hc
  have hist : q.ist ≠ [] := by
    intro hnil
    simp [hnil] at hreverse
  rw [pop, if_pos (by simp [h, hist]), turnOver_eq, hreverse, h, List.append_nil]

theorem answers_pop_none (h : q.pop = none) :
    answers (.pop :: ops) q = (none, q.contents.isEmpty) :: answers ops q := by
  rw [answers, h, ← empty_eq]

theorem answers_pop_some {top : α} {q' : StackedQueue α} (h : q.pop = some (top, q')) :
    answers (.pop :: ops) q = (some top, q.contents.isEmpty) :: answers ops q' := by
  rw [answers, h, ← empty_eq]

/-- Once something is left on the output stack every pop throws. -/
theorem answers_of_ost (h : q.ost ≠ []) : answers ops q = fifo ops q.contents ↔ .pop ∉ ops := by
  induction ops generalizing q with
  | nil => simp [answers, fifo]
  | cons op ops ih =>
      cases op with
      | push val =>
          rw [answers, fifo, ← contents_push, ih (q := q.push val) h, List.mem_cons, or_iff_right (by simp)]
      | pop =>
          obtain ⟨top, ost, host⟩ := List.exists_cons_of_ne_nil h
          rw [answers_pop_none (pop_of_ost h), fifo, contents, host]
          simp

theorem shallow_of_no_pop (h : .pop ∉ ops) (l : List α) : Shallow ops l := by
  induction ops generalizing l with
  | nil => trivial
  | cons op ops ih =>
      rw [List.mem_cons, not_or] at h
      cases op with
      | push val => exact ih h.2 _
      | pop => exact absurd rfl h.1

theorem answers_iff (h : q.ost = []) : answers ops q = fifo ops q.contents ↔ Shallow ops q.contents := by
  induction ops generalizing q with
  | nil => simp [answers, fifo, Shallow]
  | cons op ops ih =>
      cases op with
      | push val =>
          rw [answers, fifo, Shallow, ← contents_push]
          exact ih (q := q.push val) h
      | pop =>
          rw [fifo, Shallow]
          cases hc : q.contents with
          | nil =>
              have hnil := ih h
              rw [hc] at hnil
              rw [answers_pop_none (pop_of_empty hc), hc, List.tail_nil, List.cons.injEq, hnil]
              simp
          | cons top rest =>
              rw [answers_pop_some (pop_of_contents h hc), hc, List.cons.injEq, List.head?_cons, and_iff_right rfl,
                List.tail_cons]
              cases rest with
              | nil => simpa [contents] using ih (q := ⟨[], []⟩) rfl
              | cons next rest =>
                  have hrest : contents ⟨[], next :: rest⟩ = next :: rest := List.append_nil _
                  have hstuck : answers ops ⟨[], next :: rest⟩ = fifo ops (contents ⟨[], next :: rest⟩) ↔
                      .pop ∉ ops := answers_of_ost (by simp)
                  rw [hrest] at hstuck
                  rw [hstuck, or_iff_right (by simp)]
                  exact (and_iff_left_of_imp (fun hpop => shallow_of_no_pop hpop _)).symm

/-- The queue is first in, first out as long as no pop follows one that left something on the
output stack, and not beyond. -/
theorem pop_oldest (ops : List (Op α)) : answers ops ⟨[], []⟩ = fifo ops [] ↔ Shallow ops [] :=
  answers_iff (q := ⟨[], []⟩) rfl

theorem second_pop_throws : ¬ ∀ ops : List (Op Nat), answers ops ⟨[], []⟩ = fifo ops [] := by
  intro h
  have hfail : answers [.push 1, .push 2, .pop, .pop] ⟨[], []⟩ ≠ fifo [.push 1, .push 2, .pop, .pop] [] := by
    decide
  exact hfail (h _)

end StackedQueue

end LearnNote.Algorithm
