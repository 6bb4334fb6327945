import Mathlib.Data.Finset.Card
import Mathlib.Logic.Function.Basic
import LearnNote.Lib.Segments
import LearnNote.Lib.Transition
import LearnNote.Muduo.Buffer

namespace LearnNote.Muduo

open Lib.Segments Lib.Transition

/-- What the kernel reports: the pointer to a channel and the events at it. -/
structure EpollEvent where
  ptr : Nat
  events : BitVec 32
deriving DecidableEq

/-- The event array of a poller, the events noted at the channels, the active channels
of the last poll, and how many polls have left out a channel that was ready. -/
structure PollArray where
  events : List EpollEvent
  revents : Nat → BitVec 32
  activeChannels : List Nat
  leftOut : Nat

/-- A call of epoll_wait: the channels that are ready, and the answer. -/
structure Poll where
  ready : Finset Nat
  answer : Except Errno (List EpollEvent)

namespace PollArray

def kInitEventListSize : Nat := 16

def activate (s : PollArray) (e : EpollEvent) : PollArray :=
  { s with
    revents := Function.update s.revents e.ptr e.events
    activeChannels := s.activeChannels ++ [e.ptr] }

def fillActiveChannels (numEvents : Nat) (s : PollArray) : PollArray := (s.events.take numEvents).foldl activate s

/-- The kernel writes what it reports to the front of the array, which grows when it is full. -/
def poll (answer : Except Errno (List EpollEvent)) (s : PollArray) : PollArray :=
  match answer with
  | .error _ => s
  | .ok reported =>
      if 0 < reported.length then
        let s := fillActiveChannels reported.length { s with events := store s.events 0 reported }
        if reported.length = s.events.length then { s with events := resize s.events (s.events.length * 2) ⟨0, 0⟩ }
        else s
      else s

def LeavesOut (c : Nat) (a : Poll) : Prop :=
  match a.answer with
  | .error _ => False
  | .ok reported => c ∈ a.ready ∧ c ∉ reported.map EpollEvent.ptr

instance (c : Nat) (a : Poll) : Decidable (LeavesOut c a) := by
  unfold LeavesOut
  split <;> infer_instance

/-- The kernel reports channels that are ready, each of them once and at most maxevents
of them, and it leaves one out only where it reports that many. -/
def Answers (maxevents : Int) (a : Poll) : Prop :=
  match a.answer with
  | .error _ => True
  | .ok reported =>
      (reported.map EpollEvent.ptr).Nodup ∧ (∀ e ∈ reported, e.ptr ∈ a.ready) ∧ 0 < maxevents ∧
        reported.length ≤ maxevents ∧ ((∃ c ∈ a.ready, LeavesOut c a) → reported.length = maxevents)

instance (maxevents : Int) (a : Poll) : Decidable (Answers maxevents a) := by
  unfold Answers
  split <;> infer_instance

/-- The loop clears its active channels and polls. -/
def step (a : Poll) (s : PollArray) : Option PollArray :=
  if Answers (int32 s.events.length) a then
    some { poll a.answer { s with activeChannels := [] } with
      leftOut := if ∃ c ∈ a.ready, LeavesOut c a then s.leftOut + 1 else s.leftOut }
  else none

def start (s : PollArray) : Prop :=
  s.events = List.replicate kInitEventListSize ⟨0, 0⟩ ∧ s.activeChannels = [] ∧ s.leftOut = 0

def AtMost (R : Nat) : Poll → PollArray → Prop := fun a _ => a.ready.card ≤ R

instance (R : Nat) (a : Poll) (s : PollArray) : Decidable (AtMost R a s) := inferInstanceAs (Decidable (_ ≤ _))

variable {R m : Nat} {a : Poll} {s t u : PollArray} {c : Nat} {reported : List EpollEvent} {polls : List Poll}

theorem foldl_activate (l : List EpollEvent) (s : PollArray) :
    (l.foldl activate s).activeChannels = s.activeChannels ++ l.map EpollEvent.ptr ∧
      (l.foldl activate s).events = s.events := by
  induction l generalizing s with
  | nil => exact ⟨(List.append_nil _).symm, rfl⟩
  | cons e l ih =>
      rw [List.foldl_cons]
      refine ⟨(ih _).1.trans ?_, (ih _).2⟩
      rw [List.map_cons, activate, List.append_assoc]
      rfl

theorem take_store (l xs : List EpollEvent) (h : xs.length ≤ l.length) : (store l 0 xs).take xs.length = xs := by
  have hsegment := segment_store l 0 xs (by rwa [Nat.zero_add])
  rwa [Lib.Segments.segment, List.drop_zero] at hsegment

/-- The active channels are the ones that the kernel has just reported. -/
theorem activeChannels_poll (h : reported.length ≤ s.events.length) (hs : s.activeChannels = []) :
    (poll (.ok reported) s).activeChannels = reported.map EpollEvent.ptr := by
  have hfill : (fillActiveChannels reported.length { s with events := store s.events 0 reported }).activeChannels =
      reported.map EpollEvent.ptr := by
    rw [fillActiveChannels, (foldl_activate _ _).1, hs, List.nil_append]
    exact congrArg _ (take_store s.events reported h)
  rw [poll]
  dsimp only
  split
  next =>
    split
    next => exact hfill
    next => exact hfill
  next hz => rw [hs, List.eq_nil_of_length_eq_zero (Nat.eq_zero_of_not_pos hz), List.map_nil]

theorem length_poll (reported : List EpollEvent) (s : PollArray) :
    (poll (.ok reported) s).events.length =
      if 0 < reported.length ∧ reported.length = s.events.length then s.events.length * 2 else s.events.length := by
  have hfill : (fillActiveChannels reported.length { s with events := store s.events 0 reported }).events.length =
      s.events.length := by
    rw [fillActiveChannels, (foldl_activate _ _).2]
    exact length_store _ _ _
  rw [poll]
  dsimp only
  by_cases hpos : 0 < reported.length
  · rw [if_pos hpos, hfill]
    by_cases hfull : reported.length = s.events.length
    · rw [if_pos hfull, if_pos ⟨hpos, hfull⟩]
      exact length_resize _ _ _
    · rw [if_neg hfull, if_neg (fun h => hfull h.2), hfill]
  · rw [if_neg hpos, if_neg (fun h => hpos h.1)]

/-- The kernel reports no more channels than are ready, and fewer when it leaves one out. -/
theorem length_le_card (hn : (reported.map EpollEvent.ptr).Nodup) (hr : ∀ e ∈ reported, e.ptr ∈ a.ready) :
    reported.length ≤ a.ready.card ∧
      ((∃ c ∈ a.ready, c ∉ reported.map EpollEvent.ptr) → reported.length < a.ready.card) := by
  have hsub : (reported.map EpollEvent.ptr).toFinset ⊆ a.ready := by
    intro c hc
    obtain ⟨e, he, rfl⟩ := List.mem_map.mp (List.mem_toFinset.mp hc)
    exact hr e he
  have hcard : (reported.map EpollEvent.ptr).toFinset.card = reported.length := by
    rw [List.toFinset_card_of_nodup hn, List.length_map]
  refine ⟨hcard ▸ Finset.card_le_card hsub, ?_⟩
  rintro ⟨c, hc, hout⟩
  rw [← hcard]
  apply Finset.card_lt_card
  exact ⟨hsub, fun hall => hout (List.mem_toFinset.mp (hall hc))⟩

/-- The array has been doubled k times, each time when that many channels were ready, and
no poll has left a channel out without doubling it. -/
structure Doubled (R k : Nat) (s : PollArray) : Prop where
  length : s.events.length = kInitEventListSize * 2 ^ k
  ready : k ≠ 0 → kInitEventListSize * 2 ^ (k - 1) ≤ R
  leftOut : s.leftOut ≤ k
  short : s.leftOut ≠ 0 → kInitEventListSize * 2 ^ (s.leftOut - 1) < R

variable {k : Nat}

theorem Doubled.length_le (h : Doubled R k s) : s.events.length ≤ max kInitEventListSize (2 * R) := by
  rw [h.length]
  cases k with
  | zero => exact Nat.le_max_left _ _
  | succ k =>
      have hready := h.ready (Nat.succ_ne_zero k)
      rw [Nat.add_sub_cancel] at hready
      apply Nat.le_trans _ (Nat.le_max_right _ _)
      rw [Nat.pow_succ, ← Nat.mul_assoc, Nat.mul_comm]
      exact Nat.mul_le_mul_left 2 hready

theorem Doubled.maxevents (h : Doubled R k s) (hR : R < 2 ^ 30) : int32 s.events.length = s.events.length := by
  have hle := h.length_le
  have h16 : kInitEventListSize = 16 := rfl
  exact int32_of_mem (by omega) (by omega)

theorem step_doubled (h : Doubled R k s) (hR : R < 2 ^ 30) (ha : AtMost R a s) (hs : step a s = some t) :
    ∃ k, Doubled R k t := by
  rw [step, Option.ite_none_right_eq_some] at hs
  obtain ⟨hanswers, ht⟩ := hs
  cases ht
  rw [h.maxevents hR] at hanswers
  cases hanswer : a.answer with
  | error e =>
      have hnone : ¬ ∃ c ∈ a.ready, LeavesOut c a := by
        rintro ⟨c, -, hc⟩
        rw [LeavesOut, hanswer] at hc
        exact hc
      rw [if_neg hnone]
      exact ⟨k, h.length, h.ready, h.leftOut, h.short⟩
  | ok reported =>
      rw [Answers, hanswer] at hanswers
      obtain ⟨hn, hr, hpos, hle, hfull⟩ := hanswers
      obtain ⟨hcard, hless⟩ := length_le_card hn hr
      have hlen := length_poll reported { s with activeChannels := [] }
      have hpow : kInitEventListSize * 2 ^ (k + 1) = s.events.length * 2 := by
        rw [h.length, Nat.pow_succ, Nat.mul_assoc]
      by_cases hout : ∃ c ∈ a.ready, LeavesOut c a
      · have hsize : reported.length = s.events.length := by
          have := hfull hout
          omega
        have hmore : kInitEventListSize * 2 ^ k < R := by
          rw [← h.length, ← hsize]
          obtain ⟨c, hc, hl⟩ := hout
          rw [LeavesOut, hanswer] at hl
          exact Nat.lt_of_lt_of_le (hless ⟨c, hc, hl.2⟩) ha
        rw [if_pos hout]
        refine ⟨k + 1, ⟨?_, fun _ => Nat.le_of_lt hmore, Nat.succ_le_succ h.leftOut, fun _ => ?_⟩⟩
        · rw [hpow]
          exact hlen.trans (if_pos ⟨by omega, hsize⟩)
        · rw [Nat.add_sub_cancel]
          exact Nat.lt_of_le_of_lt (Nat.mul_le_mul_left _ (Nat.pow_le_pow_right (by decide) h.leftOut)) hmore
      · rw [if_neg hout]
        by_cases hsize : 0 < reported.length ∧ reported.length = s.events.length
        · refine ⟨k + 1, ⟨?_, fun _ => ?_, Nat.le_succ_of_le h.leftOut, h.short⟩⟩
          · rw [hpow]
            exact hlen.trans (if_pos hsize)
          · rw [Nat.add_sub_cancel, ← h.length, ← hsize.2]
            exact Nat.le_trans hcard ha
        · exact ⟨k, ⟨(hlen.trans (if_neg hsize)).trans h.length, h.ready, h.leftOut, h.short⟩⟩

theorem reachable_doubled (hR : R < 2 ^ 30) (h : Reachable start step (AtMost R) s) : ∃ k, Doubled R k s := by
  apply h.invariant (I := fun s => ∃ k, Doubled R k s)
  · rintro s ⟨hevents, -, hleft⟩
    refine ⟨0, ⟨?_, fun h => absurd rfl h, Nat.le_of_eq hleft, fun h => absurd hleft h⟩⟩
    rw [hevents, List.length_replicate, Nat.pow_zero, Nat.mul_one]
  · rintro a s t ⟨k, hk⟩ ha hs
    exact step_doubled hk hR ha hs

theorem active_or_leftOut (hR : R < 2 ^ 30) (h : Doubled R k s) (hs : step a s = some t) (hc : c ∈ a.ready)
    (hok : a.answer = .ok reported) : c ∈ t.activeChannels ∨ t.leftOut = s.leftOut + 1 := by
  rw [step, Option.ite_none_right_eq_some] at hs
  obtain ⟨hanswers, ht⟩ := hs
  cases ht
  rw [h.maxevents hR, Answers, hok] at hanswers
  obtain ⟨-, -, -, hle, -⟩ := hanswers
  by_cases hin : c ∈ reported.map EpollEvent.ptr
  · left
    rw [hok]
    show c ∈ (poll (.ok reported) { s with activeChannels := [] }).activeChannels
    have hlen : reported.length ≤ ({ s with activeChannels := [] } : PollArray).events.length := by
      show reported.length ≤ s.events.length
      omega
    rw [activeChannels_poll hlen rfl]
    exact hin
  · right
    have hl : LeavesOut c a := by
      rw [LeavesOut, hok]
      exact ⟨hc, hin⟩
    exact if_pos ⟨c, hc, hl⟩

theorem run_active_or_leftOut (hR : R < 2 ^ 30) (h : Reachable start step (AtMost R) s)
    (hready : ∀ a ∈ polls, c ∈ a.ready ∧ ∃ reported, a.answer = .ok reported)
    (hrun : run (guarded step (AtMost R)) polls s = some t) :
    (∃ pre post u, polls = pre ++ post ∧ pre ≠ [] ∧ run (guarded step (AtMost R)) pre s = some u ∧
      c ∈ u.activeChannels) ∨ t.leftOut = s.leftOut + polls.length := by
  induction polls generalizing s with
  | nil =>
      cases hrun
      exact .inr rfl
  | cons a polls ih =>
      obtain ⟨u, hu, hrest⟩ := Option.bind_eq_some_iff.mp hrun
      obtain ⟨ha, hs⟩ := Option.ite_none_right_eq_some.mp hu
      obtain ⟨hc, reported, hok⟩ := hready a List.mem_cons_self
      obtain ⟨k, hk⟩ := reachable_doubled hR h
      rcases active_or_leftOut hR hk hs hc hok with hin | hleft
      · refine .inl ⟨[a], polls, u, rfl, List.cons_ne_nil _ _, ?_, hin⟩
        rw [run, hu]
        rfl
      · rcases ih (.next a h ha hs) (fun b hb => hready b (List.mem_cons_of_mem a hb)) hrest with hin | hcount
        · obtain ⟨pre, post, v, rfl, -, hv, hc'⟩ := hin
          refine .inl ⟨a :: pre, post, v, rfl, List.cons_ne_nil _ _, ?_, hc'⟩
          rw [run, hu]
          exact hv
        · right
          rw [hcount, hleft, List.length_cons]
          omega

def fresh : PollArray := ⟨List.replicate kInitEventListSize ⟨0, 0⟩, fun _ => 0, [], 0⟩

def crowded : List Poll :=
  [⟨Finset.range 17, .ok ((List.range 16).map fun c => ⟨c, 1⟩)⟩,
    ⟨Finset.range 17, .ok ((List.range 17).map fun c => ⟨c, 1⟩)⟩]

end PollArray

end LearnNote.Muduo
