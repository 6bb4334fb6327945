import Mathlib.Algebra.Order.Ring.Int
import Mathlib.Logic.Relation

namespace LearnNote.Lib.SlidingWindow

inductive Place
  | outer
  | inner
  | returned
  deriving DecidableEq

/-- The window from left to before right, and the best one so far with its length. -/
structure State where
  place : Place
  left : Nat
  right : Nat
  start : Nat
  len : Int

namespace State

def record (s : State) : State :=
  if (s.right : Int) - s.left < s.len then { s with start := s.left, len := s.right - s.left } else s

def grow (s : State) : State := { s with place := .inner, right := s.right + 1 }

def shrink (s : State) : State := { s.record with left := s.left + 1 }

end State

/-- The window grows until it is good, and shrinks while it is. -/
inductive Step (good : Nat → Nat → Prop) (n : Nat) : State → State → Prop
  | grow (s : State) (hs : s.place = .outer) (hright : s.right < n) : Step good n s s.grow
  | shrink (s : State) (hs : s.place = .inner) (hgood : good s.left s.right) : Step good n s s.shrink
  | settle (s : State) (hs : s.place = .inner) (hgood : ¬ good s.left s.right) :
      Step good n s { s with place := .outer }
  | finish (s : State) (hs : s.place = .outer) (hright : ¬ s.right < n) : Step good n s { s with place := .returned }

structure Inside (n : Nat) (s : State) : Prop where
  left_le : s.left ≤ s.right
  right_le : s.right ≤ n

def Place.rank : Place → Nat
  | .outer => 1
  | .inner => 2
  | .returned => 0

def rank (n : Nat) (s : State) : Nat := 2 * (n - s.right) + (n - s.left) + s.place.rank

/-- Of the good windows one that is shortest, and of these the leftmost. -/
structure Shortest (good : Nat → Nat → Prop) (n a b : Nat) : Prop where
  is_good : good a b
  le : b ≤ n
  least : ∀ c d, good c d → d ≤ n → b - a < d - c ∨ b - a = d - c ∧ a ≤ c

/-- For every place that left has passed a window was good, and the best one is not worse than any of them. It has
length m while there is none. -/
structure Swept (good : Nat → Nat → Prop) (m : Int) (s : State) : Prop where
  passed : ∀ a < s.left, ∃ b ≤ s.right, good a b
  least : ∀ a < s.left, ∀ b ≤ s.right, good a b → s.len < b - a ∨ s.len = b - a ∧ s.start ≤ a
  best : s.len = m ∨ ∃ b ≤ s.right, s.len = b - s.start ∧ s.start < s.left ∧ good s.start b

/-- What is known of the windows from left on. -/
def Fresh (good : Nat → Nat → Prop) (n : Nat) (s : State) : Prop :=
  match s.place with
  | .outer => ¬ good s.left s.right
  | .inner => ∀ b < s.right, ¬ good s.left b
  | .returned => ¬ good s.left s.right ∧ n ≤ s.right

variable {good : Nat → Nat → Prop} {n : Nat} {m : Int} {s s' : State}

theorem State.record_left : s.record.left = s.left := by
  unfold record
  split <;> rfl

theorem State.record_right : s.record.right = s.right := by
  unfold record
  split <;> rfl

theorem State.record_place : s.record.place = s.place := by
  unfold record
  split <;> rfl

theorem State.record_least (hbest : s.len = m ∨ s.start ≤ s.left) (hm : (s.right : Int) - s.left < m) :
    s.record.len < s.right - s.left ∨ s.record.len = s.right - s.left ∧ s.record.start ≤ s.left := by
  unfold record
  split_ifs with hlt
  · exact Or.inr ⟨rfl, le_rfl⟩
  · omega

theorem State.record_le {a b : Nat} (h : s.len < (b : Int) - a ∨ s.len = b - a ∧ s.start ≤ a) :
    s.record.len < (b : Int) - a ∨ s.record.len = b - a ∧ s.record.start ≤ a := by
  unfold record
  split_ifs with hlt
  · simp only
    omega
  · exact h

section

variable (hlt : ∀ a b, good a b → a < b)

include hlt

theorem Step.inside (h : Step good n s s') (hs : Inside n s) : Inside n s' := by
  obtain ⟨hleft, hright⟩ := hs
  cases h with
  | grow hplace hless => exact ⟨hleft.trans s.right.le_succ, hless⟩
  | shrink hplace hgood =>
      refine ⟨?_, ?_⟩
      · simp only [State.shrink, State.record_right]
        exact hlt s.left s.right hgood
      · simp only [State.shrink, State.record_right]
        exact hright
  | settle hplace hgood => exact ⟨hleft, hright⟩
  | finish hplace hless => exact ⟨hleft, hright⟩

theorem Step.rank_lt (h : Step good n s s') (hs : Inside n s) : rank n s' < rank n s := by
  obtain ⟨hleft, hright⟩ := hs
  cases h with
  | grow hplace hless =>
      simp only [rank, State.grow, hplace, Place.rank]
      omega
  | shrink hplace hgood =>
      have hless := hlt s.left s.right hgood
      simp only [rank, State.shrink, State.record_right, State.record_place, hplace, Place.rank]
      omega
  | settle hplace hgood =>
      simp only [rank, hplace, Place.rank]
      omega
  | finish hplace hless =>
      simp only [rank, hplace, Place.rank]
      omega

end

theorem Swept.grow (hs : Swept good m s) : Swept good m s.grow := by
  refine ⟨fun a ha => ?_, fun a (ha : a < s.left) b (hb : b ≤ s.right + 1) hgood => ?_, ?_⟩
  · obtain ⟨b, hb, hgood⟩ := hs.passed a ha
    exact ⟨b, hb.trans s.right.le_succ, hgood⟩
  · rcases Nat.le_succ_iff.mp hb with hb | rfl
    · exact hs.least a ha b hb hgood
    · obtain ⟨c, hc, hbefore⟩ := hs.passed a ha
      have hleast := hs.least a ha c hc hbefore
      simp only [State.grow]
      omega
  · exact hs.best.imp_right fun ⟨b, hb, hbest⟩ => ⟨b, hb.trans s.right.le_succ, hbest⟩

theorem Swept.record_best (hs : Swept good m s) (hgood : good s.left s.right) :
    s.record.len = m ∨
      ∃ b ≤ s.right, s.record.len = b - s.record.start ∧ s.record.start < s.left + 1 ∧ good s.record.start b := by
  unfold State.record
  split_ifs with hlt
  · exact Or.inr ⟨s.right, le_rfl, rfl, s.left.lt_succ_self, hgood⟩
  · exact hs.best.imp_right fun ⟨b, hb, hlen, hstart, hbest⟩ => ⟨b, hb, hlen, hstart.trans s.left.lt_succ_self, hbest⟩

theorem Swept.shrink (hs : Swept good m s) (hin : Inside n s) (hn : (n : Int) < m) (hgood : good s.left s.right)
    (hfresh : ∀ b < s.right, ¬ good s.left b) : Swept good m s.shrink := by
  have hright := hin.right_le
  have hbefore : s.len = m ∨ s.start ≤ s.left := hs.best.imp_right fun ⟨b, _, _, hlt, _⟩ => hlt.le
  refine ⟨fun a ha => ?_, fun a ha b hb hab => ?_, ?_⟩
  · rw [State.shrink, State.record_right]
    rcases Nat.lt_succ_iff_lt_or_eq.mp ha with ha | rfl
    · exact hs.passed a ha
    · exact ⟨s.right, le_rfl, hgood⟩
  · rw [State.shrink, State.record_right] at hb
    rcases Nat.lt_succ_iff_lt_or_eq.mp ha with ha | rfl
    · exact State.record_le (hs.least a ha b hb hab)
    · obtain rfl : b = s.right := hb.antisymm (not_lt.mp fun hlt => hfresh b hlt hab)
      exact State.record_least hbefore (by omega)
  · rw [State.shrink, State.record_right]
    exact hs.record_best hgood

theorem Step.swept (h : Step good n s s') (hin : Inside n s) (hn : (n : Int) < m) (hfresh : Fresh good n s)
    (hs : Swept good m s) : Swept good m s' := by
  cases h with
  | grow hplace hless => exact hs.grow
  | shrink hplace hgood =>
      simp only [Fresh, hplace] at hfresh
      exact hs.shrink hin hn hgood hfresh
  | settle hplace hgood => exact ⟨hs.passed, hs.least, hs.best⟩
  | finish hplace hless => exact ⟨hs.passed, hs.least, hs.best⟩

section

variable (hlt : ∀ a b, good a b → a < b) (hmono : ∀ a a' b b', a' ≤ a → b ≤ b' → good a b → good a' b')

include hmono

theorem Step.fresh (h : Step good n s s') (hs : Fresh good n s) : Fresh good n s' := by
  cases h with
  | grow hplace hless =>
      simp only [Fresh, hplace] at hs
      intro b hb hgood
      exact hs (hmono _ _ _ _ le_rfl (Nat.le_of_lt_succ hb) hgood)
  | shrink hplace hgood =>
      simp only [Fresh, hplace] at hs
      simp only [Fresh, State.shrink, State.record_place, State.record_right, hplace]
      intro b hb hgood
      exact hs b hb (hmono _ _ _ _ (Nat.le_succ _) le_rfl hgood)
  | settle hplace hgood => exact hgood
  | finish hplace hless =>
      simp only [Fresh, hplace] at hs
      exact ⟨hs, not_lt.mp hless⟩

/-- When all is done, left has passed the beginning of every good window. -/
theorem Swept.le_of_returned (hs : Swept good m s) (hplace : s.place = .returned) (hfresh : Fresh good n s) {a b : Nat}
    (hgood : good a b) (hb : b ≤ n) : s.len < (b : Int) - a ∨ s.len = b - a ∧ s.start ≤ a := by
  simp only [Fresh, hplace] at hfresh
  have hright : b ≤ s.right := hb.trans hfresh.2
  have ha : a < s.left := not_le.mp fun hle => hfresh.1 (hmono a s.left b s.right hle hright hgood)
  exact hs.least a ha b hright hgood

theorem Swept.none_good (hs : Swept good m s) (hn : (n : Int) < m) (hplace : s.place = .returned)
    (hfresh : Fresh good n s) (hlen : s.len = m) {a b : Nat} (hb : b ≤ n) : ¬ good a b := by
  intro hgood
  have hle := hs.le_of_returned hmono hplace hfresh hgood hb
  omega

include hlt in
theorem Swept.shortest (hs : Swept good m s) (hin : Inside n s) (hplace : s.place = .returned)
    (hfresh : Fresh good n s) (hlen : s.len ≠ m) :
    ∃ b : Nat, s.len = (b : Int) - s.start ∧ Shortest good n s.start b := by
  obtain ⟨b, hb, hbest, hstart, hgood⟩ := hs.best.resolve_left hlen
  refine ⟨b, hbest, hgood, hb.trans hin.right_le, fun c d hcd hd => ?_⟩
  have hle := hs.le_of_returned hmono hplace hfresh hcd hd
  have hless := hlt s.start b hgood
  have hless' := hlt c d hcd
  omega

end

end LearnNote.Lib.SlidingWindow
