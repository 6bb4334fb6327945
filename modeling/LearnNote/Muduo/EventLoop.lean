import Mathlib.Logic.Function.Basic
import LearnNote.Lib.Transition

namespace LearnNote.Muduo

open Lib.Transition

namespace EventLoop

inductive Place
  | outside
  | test
  | polling
  | handling
  | flagged
  | calling
deriving DecidableEq

/-- A call of queueInLoop or quit that has not come to its wakeup. -/
inductive Call
  | idle
  | queued
  | quitting
deriving DecidableEq

end EventLoop

/-- An event loop: its queue and the functors swapped out of it, the counter of the
wakeup descriptor, and the calls under way in the loop thread and in the others. The
functors that were ever pushed and that were run are kept in order. -/
structure EventLoop (φ : Type) where
  place : EventLoop.Place
  quit : Bool
  callingPendingFunctors : Bool
  pendingFunctors : List φ
  functors : List φ
  wakeupFd : Nat
  self : EventLoop.Call
  others : Nat → EventLoop.Call
  pushed : List φ
  executed : List φ

namespace EventLoop

variable {φ : Type}

def maxCounter : Nat := 18446744073709551614

/-- A write that would overflow the counter fails. -/
def wakeup (s : EventLoop φ) : EventLoop φ :=
  if s.wakeupFd < maxCounter then { s with wakeupFd := s.wakeupFd + 1 } else s

def push (f : φ) (s : EventLoop φ) : EventLoop φ :=
  { s with pendingFunctors := s.pendingFunctors ++ [f], pushed := s.pushed ++ [f] }

inductive Act (φ : Type)
  | loop
  | test
  | poll
  | handleRead
  | doPendingFunctors
  | swap
  | run
  | finish
  | queueInLoop (f : φ)
  | advance
  | quit
  | otherQueueInLoop (t : Nat) (f : φ)
  | otherQuit (t : Nat)
  | otherWakeup (t : Nat)

/-- The loop thread runs user code in its handlers and in the functors. -/
def Busy (s : EventLoop φ) : Prop := (s.place = .handling ∨ s.place = .calling) ∧ s.self = .idle

instance (s : EventLoop φ) : Decidable s.Busy := inferInstanceAs (Decidable (_ ∧ _))

/-- A step of loop(), a call in the loop thread, or a call in another thread. In the
loop thread queueInLoop writes to the descriptor only while functors are called. -/
def step : Act φ → EventLoop φ → Option (EventLoop φ)
  | .loop, s => if s.place = .outside then some { s with place := .test, quit := false } else none
  | .test, s => if s.place = .test then some { s with place := if s.quit then .outside else .polling } else none
  | .poll, s => if s.place = .polling then some { s with place := .handling } else none
  | .handleRead, s => if s.place = .handling ∧ s.self = .idle then some { s with wakeupFd := 0 } else none
  | .doPendingFunctors, s =>
      if s.place = .handling ∧ s.self = .idle then some { s with place := .flagged, callingPendingFunctors := true }
      else none
  | .swap, s =>
      if s.place = .flagged then
        some { s with place := .calling, functors := s.pendingFunctors, pendingFunctors := [] }
      else none
  | .run, s =>
      match s.functors with
      | [] => none
      | f :: fs =>
          if s.place = .calling ∧ s.self = .idle then some { s with functors := fs, executed := s.executed ++ [f] }
          else none
  | .finish, s =>
      if s.place = .calling ∧ s.self = .idle ∧ s.functors.isEmpty = true then
        some { s with place := .test, callingPendingFunctors := false }
      else none
  | .queueInLoop f, s => if s.Busy then some { s.push f with self := .queued } else none
  | .advance, s =>
      if s.self = .queued then
        some { (if s.callingPendingFunctors then s.wakeup else s) with self := .idle }
      else none
  | .quit, s => if s.Busy then some { s with quit := true } else none
  | .otherQueueInLoop t f, s =>
      if s.others t = .idle then some { s.push f with others := Function.update s.others t .queued } else none
  | .otherQuit t, s =>
      if s.others t = .idle then some { s with quit := true, others := Function.update s.others t .quitting } else none
  | .otherWakeup t, s =>
      if s.others t = .idle then none else some { s.wakeup with others := Function.update s.others t .idle }

/-- A loop whose thread has queued nothing and has not entered loop(). -/
def start (s : EventLoop φ) : Prop :=
  s = ⟨.outside, s.quit, false, [], [], 0, .idle, fun _ => .idle, [], []⟩

/-- The poll will return, or another thread is about to make it return. -/
def Signalled (s : EventLoop φ) : Prop := 0 < s.wakeupFd ∨ ∃ t, s.others t = .queued

/-- The flag stands while functors are called, and there what is queued is signalled
or about to be, as it is outside of the handlers. -/
structure Inv (s : EventLoop φ) : Prop where
  fifo : s.pushed = s.executed ++ s.functors ++ s.pendingFunctors
  flag : s.callingPendingFunctors = true ↔ s.place = .flagged ∨ s.place = .calling
  calls : s.self = .queued → s.place = .handling ∨ s.place = .calling
  swapped : s.place ≠ .calling → s.functors = []
  signalled : s.place ≠ .handling → s.place ≠ .flagged → s.pendingFunctors ≠ [] → s.Signalled ∨ s.self = .queued

variable {s t : EventLoop φ}

theorem start_inv (h : start s) : Inv s := by
  rw [h]
  exact ⟨rfl, by simp, nofun, fun _ => rfl, fun _ _ hn => absurd rfl hn⟩

theorem wakeup_signalled (s : EventLoop φ) : 0 < s.wakeup.wakeupFd := by
  rw [wakeup]
  split
  · exact Nat.succ_pos _
  next h => exact Nat.lt_of_lt_of_le (by decide) (Nat.le_of_not_lt h)

theorem le_wakeup (s : EventLoop φ) : s.wakeupFd ≤ s.wakeup.wakeupFd := by
  rw [wakeup]
  split
  · exact Nat.le_succ _
  · exact Nat.le_refl _

theorem place_wakeup (s : EventLoop φ) : s.wakeup.place = s.place := by
  rw [wakeup]
  split <;> rfl

theorem quit_wakeup (s : EventLoop φ) : s.wakeup.quit = s.quit := by
  rw [wakeup]
  split <;> rfl

theorem Inv.queueInLoop (h : Inv s) (f : φ) (hb : s.Busy) : Inv { s.push f with self := .queued } where
  fifo := by
    rw [push, ← List.append_assoc, ← h.fifo]
  flag := h.flag
  calls _ := hb.1
  swapped := h.swapped
  signalled _ _ _ := .inr rfl

theorem Inv.advance (h : Inv s) (hq : s.self = .queued) :
    Inv { (if s.callingPendingFunctors then s.wakeup else s) with self := .idle } := by
  split
  next hf =>
    have hw := wakeup_signalled s
    rw [wakeup] at hw ⊢
    split
    next hlt =>
      exact ⟨h.fifo, h.flag, nofun, h.swapped, fun _ _ _ => .inl (.inl (Nat.succ_pos _))⟩
    next hlt =>
      rw [if_neg hlt] at hw
      exact ⟨h.fifo, h.flag, nofun, h.swapped, fun _ _ _ => .inl (.inl hw)⟩
  next hf =>
    refine ⟨h.fifo, h.flag, nofun, h.swapped, fun hh hfl _ => ?_⟩
    rcases h.calls hq with hp | hp
    · exact absurd hp hh
    · exact absurd (h.flag.mpr (.inr hp)) hf

theorem Inv.otherQuit (h : Inv s) {n : Nat} (hn : s.others n ≠ .queued) :
    Inv { s with quit := true, others := Function.update s.others n .quitting } := by
  refine ⟨h.fifo, h.flag, h.calls, h.swapped, fun hh hf hp => (h.signalled hh hf hp).imp_left ?_⟩
  refine Or.imp_right (fun ⟨m, hm⟩ => ⟨m, ?_⟩)
  have hne : m ≠ n := fun he => hn (he ▸ hm)
  exact (Function.update_of_ne hne _ _).trans hm

theorem Inv.otherQueueInLoop (h : Inv s) (n : Nat) (f : φ) :
    Inv { s.push f with others := Function.update s.others n .queued } where
  fifo := by
    rw [push, ← List.append_assoc, ← h.fifo]
  flag := h.flag
  calls := h.calls
  swapped := h.swapped
  signalled _ _ _ := .inl (.inr ⟨n, Function.update_self _ _ _⟩)

theorem Inv.otherWakeup (h : Inv s) (n : Nat) :
    Inv { s.wakeup with others := Function.update s.others n .idle } := by
  have hw := wakeup_signalled s
  rw [wakeup] at hw ⊢
  split
  next hlt => exact ⟨h.fifo, h.flag, h.calls, h.swapped, fun _ _ _ => .inl (.inl (Nat.succ_pos _))⟩
  next hlt =>
    rw [if_neg hlt] at hw
    exact ⟨h.fifo, h.flag, h.calls, h.swapped, fun _ _ _ => .inl (.inl hw)⟩

theorem Inv.swap (h : Inv s) (hp : s.place = .flagged) :
    Inv { s with place := .calling, functors := s.pendingFunctors, pendingFunctors := [] } where
  fifo := by
    have hnil : s.functors = [] := h.swapped (by rw [hp]; nofun)
    simpa [hnil] using h.fifo
  flag := iff_of_true (h.flag.mpr (.inl hp)) (.inr rfl)
  calls _ := .inr rfl
  swapped hn := absurd rfl hn
  signalled _ _ hn := absurd rfl hn

theorem Inv.run (h : Inv s) {f : φ} {fs : List φ} (hf : s.functors = f :: fs) (hp : s.place = .calling) :
    Inv { s with functors := fs, executed := s.executed ++ [f] } where
  fifo := by
    have hfifo := h.fifo
    rw [hf] at hfifo
    simpa using hfifo
  flag := h.flag
  calls := h.calls
  swapped hn := absurd hp hn
  signalled := h.signalled

theorem step_inv {a : Act φ} (h : Inv s) (hs : step a s = some t) : Inv t := by
  cases a with
  | loop =>
      obtain ⟨hp, he⟩ := Option.ite_none_right_eq_some.mp hs
      cases he
      have hc : s.callingPendingFunctors ≠ true := fun hf => by simpa [hp] using h.flag.mp hf
      exact ⟨h.fifo, iff_of_false hc (by simp), fun hq => by simpa [hp] using h.calls hq,
        fun _ => h.swapped (by simp [hp]), fun _ _ => h.signalled (by simp [hp]) (by simp [hp])⟩
  | test =>
      obtain ⟨hp, he⟩ := Option.ite_none_right_eq_some.mp hs
      cases he
      have hc : s.callingPendingFunctors ≠ true := fun hf => by simpa [hp] using h.flag.mp hf
      refine ⟨h.fifo, iff_of_false hc ?_, fun hq => by simpa [hp] using h.calls hq, fun _ => h.swapped (by simp [hp]),
        fun _ _ => h.signalled (by simp [hp]) (by simp [hp])⟩
      split <;> simp
  | poll =>
      obtain ⟨hp, he⟩ := Option.ite_none_right_eq_some.mp hs
      cases he
      have hc : s.callingPendingFunctors ≠ true := fun hf => by simpa [hp] using h.flag.mp hf
      exact ⟨h.fifo, iff_of_false hc (by simp), fun _ => .inl rfl, fun _ => h.swapped (by simp [hp]),
        fun hh => absurd rfl hh⟩
  | handleRead =>
      obtain ⟨hp, he⟩ := Option.ite_none_right_eq_some.mp hs
      cases he
      exact ⟨h.fifo, h.flag, h.calls, h.swapped, fun hh => absurd hp.1 hh⟩
  | doPendingFunctors =>
      obtain ⟨hp, he⟩ := Option.ite_none_right_eq_some.mp hs
      cases he
      exact ⟨h.fifo, iff_of_true rfl (.inl rfl), fun hq => absurd hq (by simp [hp.2]),
        fun _ => h.swapped (by simp [hp.1]), fun _ hf => absurd rfl hf⟩
  | swap =>
      obtain ⟨hp, he⟩ := Option.ite_none_right_eq_some.mp hs
      cases he
      exact h.swap hp
  | run =>
      simp only [step] at hs
      split at hs
      next => cases hs
      next f fs hf =>
        obtain ⟨hp, he⟩ := Option.ite_none_right_eq_some.mp hs
        cases he
        exact h.run hf hp.1
  | finish =>
      obtain ⟨⟨hp, hself, hnil⟩, he⟩ := Option.ite_none_right_eq_some.mp hs
      cases he
      exact ⟨h.fifo, iff_of_false nofun (by simp), fun hq => absurd hq (by simp [hself]),
        fun _ => List.isEmpty_iff.mp hnil, fun _ _ => h.signalled (by simp [hp]) (by simp [hp])⟩
  | queueInLoop f =>
      obtain ⟨hb, he⟩ := Option.ite_none_right_eq_some.mp hs
      cases he
      exact h.queueInLoop f hb
  | advance =>
      obtain ⟨hq, he⟩ := Option.ite_none_right_eq_some.mp hs
      cases he
      exact h.advance hq
  | quit =>
      obtain ⟨hb, he⟩ := Option.ite_none_right_eq_some.mp hs
      cases he
      exact ⟨h.fifo, h.flag, h.calls, h.swapped, h.signalled⟩
  | otherQueueInLoop n f =>
      obtain ⟨hn, he⟩ := Option.ite_none_right_eq_some.mp hs
      cases he
      exact h.otherQueueInLoop n f
  | otherQuit n =>
      obtain ⟨hn, he⟩ := Option.ite_none_right_eq_some.mp hs
      cases he
      exact h.otherQuit (by rw [hn]; nofun)
  | otherWakeup n =>
      simp only [step] at hs
      split at hs
      · cases hs
      · cases hs
        exact h.otherWakeup n

/-- Functors are run in the order in which they were pushed, each once, and when the
loop polls with functors queued the poll returns, or a thread that has pushed is about
to make it return. -/
theorem no_lost_wakeup (s : EventLoop φ) (h : Reachable start step always s) :
    s.executed <+: s.pushed ∧ s.pushed = s.executed ++ s.functors ++ s.pendingFunctors ∧
      (s.place = .polling → s.pendingFunctors ≠ [] → 0 < s.wakeupFd ∨ ∃ t, s.others t = .queued) := by
  have hi : Inv s := h.invariant (I := Inv) (fun _ => start_inv) (fun _ _ _ hi _ => step_inv hi)
  refine ⟨⟨s.functors ++ s.pendingFunctors, by rw [hi.fifo, List.append_assoc]⟩, hi.fifo, fun hp hn => ?_⟩
  refine (hi.signalled (by rw [hp]; nofun) (by rw [hp]; nofun) hn).resolve_right (fun hq => ?_)
  rcases hi.calls hq with hc | hc <;> rw [hp] at hc <;> cases hc

def idle : EventLoop Nat := ⟨.outside, false, false, [], [], 0, .idle, fun _ => .idle, [], []⟩

theorem no_lost_wakeup_requeue :
    ∃ s : EventLoop Nat, Reachable start step always s ∧ s.place = .polling ∧ s.executed = [1] ∧
      s.pendingFunctors = [2] ∧ (0 < s.wakeupFd ∨ ∃ t, s.others t = .queued) := by
  have hrun : (run (guarded step always) [.otherQueueInLoop 4 1, .loop, .otherWakeup 4, .test, .poll,
      .handleRead, .doPendingFunctors, .swap, .run, .queueInLoop 2, .advance, .finish, .test] idle).map
      (fun s => (s.place, s.executed, s.pendingFunctors)) = some (.polling, [1], [2]) := by decide +kernel
  obtain ⟨s, hr, he⟩ := reachable_of_run start hrun rfl
  simp only [Prod.mk.injEq] at he
  exact ⟨s, hr, he.1, he.2.1, he.2.2, (no_lost_wakeup s hr).2.2 he.1 (by rw [he.2.2]; nofun)⟩

end EventLoop

end LearnNote.Muduo
