import LearnNote.Lib.History

namespace LearnNote.Lib.Pipe

open History

variable {ε α : Type*}

/-- What each event puts into a queue and takes out of it. A barrier passes only
when the queue is empty. -/
structure Ports (ε α : Type*) where
  enters : ε → List α
  leaves : ε → List α
  barrier : ε → Prop

/-- A history that leads from the empty queue to a queue, first in first out. -/
inductive Flow (P : Ports ε α) : List ε → List α → Prop
  | nil : Flow P [] []
  | concat {es : List ε} {e : ε} {q q' : List α} (h : Flow P es q)
      (hq : q ++ P.enters e = P.leaves e ++ q') (hb : P.barrier e → q = []) : Flow P (es ++ [e]) q'

variable {P : Ports ε α} {es : List ε} {q : List α}

theorem Flow.conserved (h : Flow P es q) : es.flatMap P.leaves ++ q = es.flatMap P.enters := by
  induction h with
  | nil => rfl
  | concat h hq hb ih =>
      rw [List.flatMap_append, List.flatMap_append, ← ih, List.append_assoc, List.append_assoc]
      simpa using hq.symm

theorem Flow.isPrefix (h : Flow P es q) : es.flatMap P.leaves <+: es.flatMap P.enters :=
  ⟨q, h.conserved⟩

/-- What has entered before a barrier has left before it. -/
theorem Flow.barrier (h : Flow P es q) :
    Throughout (fun earlier e => P.barrier e → earlier.flatMap P.leaves = earlier.flatMap P.enters) es := by
  induction h with
  | nil => exact throughout_nil
  | concat h hq hb ih =>
      refine throughout_concat.mpr ⟨ih, fun hbar => ?_⟩
      rw [← h.conserved, hb hbar, List.append_nil]

end LearnNote.Lib.Pipe
