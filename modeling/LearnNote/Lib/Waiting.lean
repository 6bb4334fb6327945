import Mathlib.Data.Fintype.Card
import Mathlib.Data.Set.Finite.Basic
import Mathlib.Logic.Function.Basic
import Mathlib.Logic.Relation
import Mathlib.Order.WellFounded

namespace LearnNote.Lib

open Relation

section Circuits

variable {α β : Type*} {r : α → α → Prop}

theorem wellFounded_of_no_circuit [Finite α] (h : ∀ a, ¬ TransGen r a a) :
    WellFounded (Function.swap (TransGen r)) := by
  have htrans : IsTrans α (Function.swap (TransGen r)) := ⟨fun _ _ _ hab hbc => hbc.trans hab⟩
  have hirrefl : Std.Irrefl (Function.swap (TransGen r)) := ⟨h⟩
  exact Finite.wellFounded_of_trans_of_irrefl _

theorem exists_circuit [Finite α] {D : Set α} (hne : D.Nonempty) (h : ∀ a ∈ D, ∃ b ∈ D, r a b) :
    ∃ a, TransGen r a a := by
  by_contra hnone
  obtain ⟨a, ha, hlast⟩ := (wellFounded_of_no_circuit (not_exists.mp hnone)).has_min D hne
  obtain ⟨b, hb, hab⟩ := h a ha
  exact hlast b hb (.single hab)

theorem next_on_circuit {a : α} (h : TransGen r a a) : ∃ b, r a b ∧ TransGen r b b := by
  obtain ⟨b, hab, hba⟩ := TransGen.head'_iff.mp h
  exact ⟨b, hab, TransGen.tail' hba hab⟩

end Circuits

/-- Each flag is set exactly while someone holds the lock, and only one does. -/
structure Mutexes {θ κ : Type*} (locks : κ → Bool) (holds : θ → κ → Prop) : Prop where
  locked : ∀ k, locks k = true ↔ ∃ t, holds t k
  sole : ∀ t u k, holds t k → holds u k → t = u

namespace Mutexes

variable {θ κ : Type*} {locks : κ → Bool} {holds holds' : θ → κ → Prop} {t : θ} {k : κ}

theorem free (h : ∀ t k, ¬ holds t k) : Mutexes (fun _ => false) holds := by
  refine ⟨fun k => ?_, fun t _ k ht => absurd ht (h t k)⟩
  simp [h]

theorem congr (h : Mutexes locks holds) (hsame : ∀ u j, holds' u j ↔ holds u j) : Mutexes locks holds' := by
  refine ⟨fun j => ?_, fun u v j hu hv => h.sole u v j ((hsame u j).mp hu) ((hsame v j).mp hv)⟩
  rw [h.locked j]
  exact exists_congr (fun u => (hsame u j).symm)

theorem not_held (h : Mutexes locks holds) (hk : locks k = false) (t : θ) : ¬ holds t k := by
  intro ht
  rw [(h.locked k).mpr ⟨t, ht⟩] at hk
  cases hk

variable [DecidableEq κ]

theorem acquire (h : Mutexes locks holds) (hk : locks k = false)
    (hnew : ∀ u j, holds' u j ↔ holds u j ∨ (u = t ∧ j = k)) : Mutexes (Function.update locks k true) holds' := by
  constructor
  · intro j
    by_cases hj : j = k
    · subst hj
      rw [Function.update_self]
      exact iff_of_true rfl ⟨t, (hnew t j).mpr (.inr ⟨rfl, rfl⟩)⟩
    · rw [Function.update_of_ne hj, h.locked j]
      refine exists_congr (fun u => ?_)
      rw [hnew u j, or_iff_left (fun hu => hj hu.2)]
  · intro u v j hu hv
    rcases (hnew u j).mp hu with hu | ⟨rfl, rfl⟩
    · rcases (hnew v j).mp hv with hv | ⟨rfl, rfl⟩
      · exact h.sole u v j hu hv
      · exact absurd hu (h.not_held hk u)
    · rcases (hnew v j).mp hv with hv | ⟨rfl, -⟩
      · exact absurd hv (h.not_held hk v)
      · rfl

theorem release (h : Mutexes locks holds) (ht : holds t k)
    (hnew : ∀ u j, holds' u j ↔ holds u j ∧ ¬ (u = t ∧ j = k)) : Mutexes (Function.update locks k false) holds' := by
  constructor
  · intro j
    by_cases hj : j = k
    · subst hj
      rw [Function.update_self]
      refine iff_of_false Bool.false_ne_true ?_
      rintro ⟨u, hu⟩
      obtain ⟨hu, hne⟩ := (hnew u j).mp hu
      exact hne ⟨h.sole u t j hu ht, rfl⟩
    · rw [Function.update_of_ne hj, h.locked j]
      refine exists_congr (fun u => ?_)
      rw [hnew u j, and_iff_left (fun hu => hj hu.2)]
  · intro u v j hu hv
    exact h.sole u v j ((hnew u j).mp hu).1 ((hnew v j).mp hv).1

section Places

variable {π : Type*} [DecidableEq θ] (has : θ → π → κ → Prop) {places : θ → π} {p q : π}

omit [DecidableEq κ] in
theorem stay (h : Mutexes locks (fun u => has u (places u))) (hq : places t = q) (hsame : ∀ j, has t p j ↔ has t q j) :
    Mutexes locks (fun u => has u (Function.update places t p u)) := by
  refine h.congr (fun u j => ?_)
  by_cases hu : u = t
  · subst hu
    rw [Function.update_self, hsame, hq]
  · rw [Function.update_of_ne hu]

theorem take (h : Mutexes locks (fun u => has u (places u))) (hk : locks k = false) (hq : places t = q)
    (hnew : ∀ j, has t p j ↔ has t q j ∨ j = k) :
    Mutexes (Function.update locks k true) (fun u => has u (Function.update places t p u)) := by
  refine h.acquire (t := t) hk (fun u j => ?_)
  by_cases hu : u = t
  · subst hu
    rw [Function.update_self, hnew, hq, and_iff_right rfl]
  · rw [Function.update_of_ne hu, or_iff_left (fun h => hu h.1)]

theorem give (h : Mutexes locks (fun u => has u (places u))) (hq : places t = q) (hk : has t q k)
    (hnew : ∀ j, has t p j ↔ has t q j ∧ ¬ j = k) :
    Mutexes (Function.update locks k false) (fun u => has u (Function.update places t p u)) := by
  refine h.release (t := t) (hq ▸ hk) (fun u j => ?_)
  by_cases hu : u = t
  · subst hu
    rw [Function.update_self, hnew, hq, and_iff_right rfl]
  · rw [Function.update_of_ne hu, and_iff_left (fun h => hu h.1)]

end Places

end Mutexes

/-- The locks that threads hold, and the one that each waits for. -/
structure Waiting (θ κ : Type*) where
  holds : θ → κ → Prop
  wants : θ → Option κ

namespace Waiting

variable {θ κ : Type*} {w : Waiting θ κ} {D : Set θ} {r : κ → κ → Prop} {t : θ}

def BlockedBy (w : Waiting θ κ) (t u : θ) : Prop := ∃ k, w.wants t = some k ∧ w.holds u k

/-- Threads each of which waits for a lock that one of them holds. -/
structure Deadlocked (w : Waiting θ κ) (D : Set θ) : Prop where
  nonempty : D.Nonempty
  blocked : ∀ t ∈ D, ∃ u ∈ D, w.BlockedBy t u

/-- What a thread holds is below what it waits for. -/
def Nested (w : Waiting θ κ) (r : κ → κ → Prop) : Prop := ∀ t k l, w.holds t k → w.wants t = some l → r k l

/-- The locks of a deadlock lie on a circuit of the order in which they are taken. -/
theorem Deadlocked.circuit [Finite κ] (h : w.Deadlocked D) (hr : w.Nested r) : ∃ k, TransGen r k k := by
  apply exists_circuit (D := {k | ∃ u ∈ D, w.holds u k})
  · obtain ⟨t, ht⟩ := h.nonempty
    obtain ⟨u, hu, k, -, hk⟩ := h.blocked t ht
    exact ⟨k, u, hu, hk⟩
  · rintro k ⟨u, hu, hk⟩
    obtain ⟨v, hv, l, hl, hheld⟩ := h.blocked u hu
    exact ⟨l, ⟨v, hv, hheld⟩, hr u k l hk hl⟩

/-- In an order without circuits whoever waits, waits in the end for someone who does not. -/
theorem exists_unblocked [Finite κ] (hr : w.Nested r) (hacyclic : ∀ k, ¬ TransGen r k k) (t : θ) :
    ∃ u, ReflTransGen w.BlockedBy t u ∧ ∀ v, ¬ w.BlockedBy u v := by
  by_contra hnone
  have hstuck : w.Deadlocked {u | ReflTransGen w.BlockedBy t u} := by
    refine ⟨⟨t, .refl⟩, fun u hu => ?_⟩
    by_contra hlast
    refine hnone ⟨u, hu, fun v hv => ?_⟩
    exact hlast ⟨v, hu.tail hv, hv⟩
  obtain ⟨k, hk⟩ := hstuck.circuit hr
  exact hacyclic k hk

end Waiting

end LearnNote.Lib
