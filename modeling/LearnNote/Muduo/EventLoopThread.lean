import LearnNote.Muduo.EventLoop

namespace LearnNote.Muduo

open Lib.Transition

namespace EventLoopThread

inductive Place
  | created
  | running
  | published
  | looping
  | left
  | done
deriving DecidableEq

inductive Owner
  | idle
  | waiting
  | started
  | destroying
  | quitting
  | returned
  | joined
deriving DecidableEq

end EventLoopThread

/-- A thread with its loop, and the owner. The polls that the loop has begun after the
owner's quit has returned are counted. -/
structure EventLoopThread (φ : Type) where
  loop : EventLoop φ
  place : EventLoopThread.Place
  owner : EventLoopThread.Owner
  latePolls : Nat

namespace EventLoopThread

variable {φ : Type}

/-- The thread has stored the address of its loop, and not cleared it yet. -/
def Published (s : EventLoopThread φ) : Prop := s.place = .published ∨ s.place = .looping ∨ s.place = .left

instance (s : EventLoopThread φ) : Decidable s.Published := inferInstanceAs (Decidable (_ ∨ _))

def Returned (s : EventLoopThread φ) : Prop := s.owner = .returned ∨ s.owner = .joined

instance (s : EventLoopThread φ) : Decidable s.Returned := inferInstanceAs (Decidable (_ ∨ _))

inductive Act (φ : Type)
  | startLoop
  | publish
  | woken
  | enterLoop
  | test
  | loop (a : EventLoop.Act φ)
  | clear
  | destroy
  | quit
  | wakeup
  | join

/-- The other steps of the loop: those that neither enter loop(), nor test quit_, nor are
the owner's, whose calls are those of thread 0. -/
def Inner : EventLoop.Act φ → Prop
  | .loop | .test => False
  | .otherQuit t | .otherWakeup t | .otherQueueInLoop t _ => t ≠ 0
  | _ => True

instance : DecidablePred (Inner : EventLoop.Act φ → Prop) := by
  intro a
  unfold Inner
  split <;> infer_instance

def step : Act φ → EventLoopThread φ → Option (EventLoopThread φ)
  | .startLoop, s =>
      if s.owner = .idle ∧ s.place = .created then some { s with owner := .waiting, place := .running } else none
  | .publish, s => if s.place = .running then some { s with place := .published } else none
  | .woken, s => if s.owner = .waiting ∧ s.Published then some { s with owner := .started } else none
  | .enterLoop, s =>
      if s.place = .published then (EventLoop.step .loop s.loop).map (fun l => { s with loop := l, place := .looping })
      else none
  | .test, s =>
      if s.place = .looping then
        (EventLoop.step .test s.loop).map (fun l => { s with
          loop := l
          place := if l.place = .outside then .left else .looping
          latePolls := if l.place = .polling ∧ s.Returned then s.latePolls + 1 else s.latePolls })
      else none
  | .loop a, s =>
      if s.place = .created ∨ s.place = .done ∨ ¬ Inner a then none
      else (EventLoop.step a s.loop).map (fun l => { s with loop := l })
  | .clear, s => if s.place = .left then some { s with place := .done } else none
  | .destroy, s => if s.owner = .started ∧ s.Published then some { s with owner := .destroying } else none
  | .quit, s =>
      if s.owner = .destroying then
        (EventLoop.step (.otherQuit 0) s.loop).map (fun l => { s with loop := l, owner := .quitting })
      else none
  | .wakeup, s =>
      if s.owner = .quitting then
        (EventLoop.step (.otherWakeup 0) s.loop).map (fun l => { s with loop := l, owner := .returned })
      else none
  | .join, s => if s.owner = .returned ∧ s.place = .done then some { s with owner := .joined } else none

def start (s : EventLoopThread φ) : Prop :=
  EventLoop.start s.loop ∧ s.place = .created ∧ s.owner = .idle ∧ s.latePolls = 0

/-- The owner stores its request after the loop has cleared quit_. -/
def AfterClear : Act φ → EventLoopThread φ → Prop
  | .quit, s => s.place ≠ .published
  | _, _ => True

instance (a : Act φ) (s : EventLoopThread φ) : Decidable (AfterClear a s) := by
  unfold AfterClear
  split <;> infer_instance

/-- The thread is ahead of the owner. A request that has been stored stays, and one
that has returned wakes the loop. -/
structure Inv (s : EventLoopThread φ) : Prop where
  outside : s.place ≠ .looping → s.loop.place = .outside
  early : s.place = .created ∨ s.place = .running → s.owner = .idle ∨ s.owner = .waiting
  stored : s.owner = .quitting ∨ s.Returned → s.place ≠ .published ∧ s.loop.quit = true
  woken : s.Returned → s.loop.place = .polling → 0 < s.loop.wakeupFd
  late : s.latePolls = 0

variable {s t : EventLoopThread φ} {l l' : EventLoop φ}

theorem inner_step {a : EventLoop.Act φ} (ha : Inner a) (hs : EventLoop.step a l = some l') :
    (l.place = .outside → l'.place = .outside) ∧ (l.quit = true → l'.quit = true) ∧
      (l'.place = .polling → l.place = .polling ∧ l.wakeupFd ≤ l'.wakeupFd) := by
  cases a with
  | loop => cases ha
  | test => cases ha
  | poll =>
      obtain ⟨hp, he⟩ := Option.ite_none_right_eq_some.mp hs
      cases he
      exact ⟨fun ho => absurd (hp.symm.trans ho) (by simp), id, by simp⟩
  | handleRead =>
      obtain ⟨hp, he⟩ := Option.ite_none_right_eq_some.mp hs
      cases he
      exact ⟨id, id, fun hpoll => absurd (hp.1.symm.trans hpoll) (by simp)⟩
  | doPendingFunctors =>
      obtain ⟨hp, he⟩ := Option.ite_none_right_eq_some.mp hs
      cases he
      exact ⟨fun ho => absurd (hp.1.symm.trans ho) (by simp), id, by simp⟩
  | swap =>
      obtain ⟨hp, he⟩ := Option.ite_none_right_eq_some.mp hs
      cases he
      exact ⟨fun ho => absurd (hp.symm.trans ho) (by simp), id, by simp⟩
  | run =>
      simp only [EventLoop.step] at hs
      split at hs
      · cases hs
      · obtain ⟨-, he⟩ := Option.ite_none_right_eq_some.mp hs
        cases he
        exact ⟨id, id, fun hp => ⟨hp, Nat.le_refl _⟩⟩
  | finish =>
      obtain ⟨hp, he⟩ := Option.ite_none_right_eq_some.mp hs
      cases he
      exact ⟨fun ho => absurd (hp.1.symm.trans ho) (by simp), id, by simp⟩
  | queueInLoop f =>
      obtain ⟨-, he⟩ := Option.ite_none_right_eq_some.mp hs
      cases he
      exact ⟨id, id, fun hp => ⟨hp, Nat.le_refl _⟩⟩
  | advance =>
      obtain ⟨-, he⟩ := Option.ite_none_right_eq_some.mp hs
      cases he
      split
      · exact ⟨(EventLoop.place_wakeup l).trans, (EventLoop.quit_wakeup l).trans,
          fun hp => ⟨(EventLoop.place_wakeup l).symm.trans hp, EventLoop.le_wakeup l⟩⟩
      · exact ⟨id, id, fun hp => ⟨hp, Nat.le_refl _⟩⟩
  | quit =>
      obtain ⟨-, he⟩ := Option.ite_none_right_eq_some.mp hs
      cases he
      exact ⟨id, fun _ => rfl, fun hp => ⟨hp, Nat.le_refl _⟩⟩
  | otherQueueInLoop n f =>
      obtain ⟨-, he⟩ := Option.ite_none_right_eq_some.mp hs
      cases he
      exact ⟨id, id, fun hp => ⟨hp, Nat.le_refl _⟩⟩
  | otherQuit n =>
      obtain ⟨-, he⟩ := Option.ite_none_right_eq_some.mp hs
      cases he
      exact ⟨id, fun _ => rfl, fun hp => ⟨hp, Nat.le_refl _⟩⟩
  | otherWakeup n =>
      simp only [EventLoop.step] at hs
      split at hs
      · cases hs
      · cases hs
        exact ⟨(EventLoop.place_wakeup l).trans, (EventLoop.quit_wakeup l).trans,
          fun hp => ⟨(EventLoop.place_wakeup l).symm.trans hp, EventLoop.le_wakeup l⟩⟩

theorem Inv.ahead (h : Inv s) (hi : s.owner ≠ .idle) (hw : s.owner ≠ .waiting) :
    ¬ (s.place = .created ∨ s.place = .running) :=
  fun he => (h.early he).elim hi hw

theorem step_inv {a : Act φ} (h : Inv s) (hc : AfterClear a s) (hs : step a s = some t) : Inv t := by
  cases a with
  | startLoop =>
      obtain ⟨⟨ho, hp⟩, he⟩ := Option.ite_none_right_eq_some.mp hs
      cases he
      exact ⟨fun _ => h.outside (by simp [hp]), fun _ => .inr rfl, by simp [Returned], by simp [Returned], h.late⟩
  | publish =>
      obtain ⟨hp, he⟩ := Option.ite_none_right_eq_some.mp hs
      cases he
      have howner := h.early (.inr hp)
      refine ⟨fun _ => h.outside (by simp [hp]), by simp, fun hq => ?_, fun hr => ?_, h.late⟩
      · rcases howner with ho | ho <;> rcases hq with hq | hq | hq <;> rw [ho] at hq <;> cases hq
      · rcases howner with ho | ho <;> rcases hr with hr | hr <;> rw [ho] at hr <;> cases hr
  | woken =>
      obtain ⟨⟨-, hp⟩, he⟩ := Option.ite_none_right_eq_some.mp hs
      cases he
      refine ⟨h.outside, fun hearly => ?_, by simp [Returned], by simp [Returned], h.late⟩
      rcases hp with hp | hp | hp <;> rcases hearly with hearly | hearly <;> rw [hp] at hearly <;> cases hearly
  | enterLoop =>
      obtain ⟨hp, hs⟩ := Option.ite_none_right_eq_some.mp hs
      obtain ⟨l, hl, rfl⟩ := Option.map_eq_some_iff.mp hs
      obtain ⟨-, he⟩ := Option.ite_none_right_eq_some.mp hl
      cases he
      refine ⟨fun hne => absurd rfl hne, by simp, fun hq => ?_, fun _ => (by simp), h.late⟩
      exact absurd hp (h.stored hq).1
  | test =>
      obtain ⟨hp, hs⟩ := Option.ite_none_right_eq_some.mp hs
      obtain ⟨l, hl, rfl⟩ := Option.map_eq_some_iff.mp hs
      obtain ⟨-, he⟩ := Option.ite_none_right_eq_some.mp hl
      cases he
      have hquit : s.Returned → s.loop.quit = true := fun hr => (h.stored (.inr hr)).2
      refine ⟨?_, ?_, ?_, ?_, ?_⟩
      · intro hne
        by_contra ho
        exact hne (if_neg ho)
      · intro he
        split at he <;> rcases he with he | he <;> cases he
      · intro hq
        refine ⟨?_, (h.stored hq).2⟩
        split <;> simp
      · intro hr hpoll
        rw [hquit hr] at hpoll
        cases hpoll
      · have hnot : ¬ ((if s.loop.quit = true then EventLoop.Place.outside else .polling) = .polling ∧ s.Returned) := by
          rintro ⟨hpoll, hr⟩
          rw [hquit hr] at hpoll
          cases hpoll
        rw [if_neg hnot]
        exact h.late
  | loop a =>
      simp only [step] at hs
      split at hs
      · cases hs
      next hg =>
        obtain ⟨l, hl, rfl⟩ := Option.map_eq_some_iff.mp hs
        have hinner : Inner a := by_contra (fun hn => hg (.inr (.inr hn)))
        obtain ⟨hout, hq, hpoll⟩ := inner_step hinner hl
        exact ⟨fun hne => hout (h.outside hne), h.early, fun hr => ⟨(h.stored hr).1, hq (h.stored hr).2⟩,
          fun hr hp => Nat.lt_of_lt_of_le (h.woken hr (hpoll hp).1) (hpoll hp).2, h.late⟩
  | clear =>
      obtain ⟨hp, he⟩ := Option.ite_none_right_eq_some.mp hs
      cases he
      exact ⟨fun _ => h.outside (by simp [hp]), by simp, fun hq => ⟨by simp, (h.stored hq).2⟩, h.woken, h.late⟩
  | destroy =>
      obtain ⟨⟨-, hp⟩, he⟩ := Option.ite_none_right_eq_some.mp hs
      cases he
      refine ⟨h.outside, fun hearly => ?_, by simp [Returned], by simp [Returned], h.late⟩
      rcases hp with hp | hp | hp <;> rcases hearly with hearly | hearly <;> rw [hp] at hearly <;> cases hearly
  | quit =>
      obtain ⟨ho, hs⟩ := Option.ite_none_right_eq_some.mp hs
      obtain ⟨l, hl, rfl⟩ := Option.map_eq_some_iff.mp hs
      obtain ⟨-, he⟩ := Option.ite_none_right_eq_some.mp hl
      cases he
      have hearly := h.ahead (by simp [ho]) (by simp [ho])
      exact ⟨h.outside, fun he => absurd he hearly, fun _ => ⟨hc, rfl⟩, by simp [Returned], h.late⟩
  | wakeup =>
      obtain ⟨ho, hs⟩ := Option.ite_none_right_eq_some.mp hs
      obtain ⟨l, hl, rfl⟩ := Option.map_eq_some_iff.mp hs
      simp only [EventLoop.step] at hl
      split at hl
      · cases hl
      · cases hl
        have hstored := h.stored (.inl ho)
        have hearly := h.ahead (by simp [ho]) (by simp [ho])
        exact ⟨fun hne => (EventLoop.place_wakeup _).trans (h.outside hne), fun he => absurd he hearly,
          fun _ => ⟨hstored.1, (EventLoop.quit_wakeup _).trans hstored.2⟩,
          fun _ _ => EventLoop.wakeup_signalled _, h.late⟩
  | join =>
      obtain ⟨⟨ho, -⟩, he⟩ := Option.ite_none_right_eq_some.mp hs
      cases he
      have hearly := h.ahead (by simp [ho]) (by simp [ho])
      exact ⟨h.outside, fun he => absurd he hearly, fun _ => h.stored (.inr (.inl ho)), fun _ => h.woken (.inl ho),
        h.late⟩

/-- A request that is stored after the loop has cleared quit_ is seen by every later
test: no poll begins after quit has returned, and one that has begun is woken. -/
theorem quit_not_lost (s : EventLoopThread φ) (h : Reachable start step AfterClear s) (hr : s.Returned) :
    s.loop.quit = true ∧ s.latePolls = 0 ∧ (s.loop.place = .polling → 0 < s.loop.wakeupFd) := by
  have hi : Inv s := by
    apply h.invariant (I := Inv) ?_ (fun _ _ _ => step_inv)
    rintro s ⟨hl, hp, ho, hz⟩
    refine ⟨fun _ => by rw [hl], fun _ => .inl ho, fun hq => ?_, fun hq => ?_, hz⟩
    · rcases hq with hq | hq | hq <;> rw [ho] at hq <;> cases hq
    · rcases hq with hq | hq <;> rw [ho] at hq <;> cases hq
  exact ⟨(hi.stored (.inr hr)).2, hi.late, hi.woken hr⟩

def created : EventLoopThread Nat := ⟨EventLoop.idle, .created, .idle, 0⟩

theorem quit_not_lost_join :
    ∃ s : EventLoopThread Nat, Reachable start step AfterClear s ∧ s.owner = .joined ∧ s.loop.quit = true := by
  have hrun : (run (guarded step AfterClear) [.startLoop, .publish, .woken, .enterLoop, .test, .destroy, .quit, .wakeup,
      .loop .poll, .loop .handleRead, .loop .doPendingFunctors, .loop .swap, .loop .finish, .test, .clear, .join]
      created).map (fun s => s.owner) = some .joined := by decide +kernel
  obtain ⟨s, hr, ho⟩ := reachable_of_run start hrun ⟨rfl, rfl, rfl, rfl⟩
  exact ⟨s, hr, ho, (quit_not_lost s hr (.inr ho)).1⟩

/-- The owner quits before the thread enters loop(), which clears the request. -/
theorem early_quit_lost :
    ¬ ∀ s : EventLoopThread Nat, Reachable start step always s → s.Returned → s.loop.place = .test →
      s.loop.quit = true := by
  intro h
  have hrun : (run (guarded step always) [.startLoop, .publish, .woken, .destroy, .quit, .wakeup, .enterLoop] created).map
      (fun s => (s.owner, s.loop.place, s.loop.quit)) = some (.returned, .test, false) := by decide +kernel
  obtain ⟨s, hr, he⟩ := reachable_of_run start hrun ⟨rfl, rfl, rfl, rfl⟩
  simp only [Prod.mk.injEq] at he
  have hq := h s hr (.inl he.1) he.2.1
  rw [he.2.2] at hq
  cases hq

end EventLoopThread

end LearnNote.Muduo
