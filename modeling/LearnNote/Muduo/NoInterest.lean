import LearnNote.Muduo.PollerChannels

namespace LearnNote.Muduo

open Lib.Transition

namespace TracedPoller

variable {ptr : Nat} {c : PolledChannel} {t : TracedPoller}

theorem updateChannel_channel : (t.updateChannel ptr c).1.channel = c.channel := by
  unfold updateChannel
  cases c.index with
  | kNew | kDeleted => rfl
  | kAdded =>
      dsimp only
      split <;> rfl

theorem updateChannel_index (hn : c.channel.isNoneEvent = true) :
    (t.updateChannel ptr c).1.index = if c.index = .kAdded then .kDeleted else .kAdded := by
  unfold updateChannel
  cases c.index with
  | kNew | kDeleted => rfl
  | kAdded =>
      dsimp only
      rw [if_pos hn, if_pos rfl]

end TracedPoller

namespace PollerChannels

def Act.ptr : Act → Nat
  | .update _ ptr => ptr
  | .remove ptr => ptr

/-- A channel without interest is not in the kernel's set. -/
def Unpolled (ptr : Nat) (s : PollerChannels) : Prop :=
  ∀ c, s.channels[ptr]? = some c → c.channel.isNoneEvent = true → s.traced.poller.epoll c.fd = none

/-- An operation that leaves a channel without interest finds the channel registered. -/
def Registered : Act → PollerChannels → Prop
  | .update mutator ptr, s =>
      ∀ c ∈ s.channels[ptr]?, (mutator.apply c.channel).isNoneEvent = true → c.index = .kAdded
  | .remove _, _ => True

instance (a : Act) (s : PollerChannels) : Decidable (Registered a s) := by
  cases a with
  | update mutator ptr => exact Option.decidableForallMem _
  | remove ptr => exact isTrue trivial

variable {s s' : PollerChannels} {a : Act} {ptr : Nat} {c : PolledChannel}

theorem Inv.epoll_eq_none (hinv : Inv s) (hc : s.channels[ptr]? = some c) :
    s.traced.poller.epoll c.fd = none ↔ c.index ≠ .kAdded := by
  rw [(hinv.entered ptr c hc).epoll]
  exact ite_eq_right_iff.trans (by simp)

theorem put_self {r : PolledChannel × TracedPoller} (hc : s.channels[ptr]? = some c) :
    (s.put ptr r).channels[ptr]? = some r.1 :=
  List.getElem?_set_self (List.getElem?_eq_some_iff.mp hc).1

theorem step_others {ptr' : Nat} (hs : step a s = some s') (hne : a.ptr ≠ ptr') :
    s'.channels[ptr']? = s.channels[ptr']? := by
  cases a with
  | update mutator ptr | remove ptr =>
      obtain ⟨c, hc, rfl⟩ := Option.map_eq_some_iff.mp hs
      exact List.getElem?_set_ne hne

/-- A step leaves a channel without interest unpolled just when it finds it registered. -/
theorem step_unpolled (hinv : Inv s) (hs : step a s = some s') : Unpolled a.ptr s' ↔ Registered a s := by
  have hinv' := step_inv hinv hs
  cases a with
  | update mutator ptr =>
      obtain ⟨c, hc, rfl⟩ := Option.map_eq_some_iff.mp hs
      have hself := @put_self s ptr c (s.traced.updateChannel ptr { c with channel := mutator.apply c.channel }) hc
      have hpolled := hinv'.epoll_eq_none hself
      constructor
      · intro hunpolled c' hc' hnone
        obtain rfl := Option.some.inj (hc.symm.trans hc')
        have hindex := hpolled.mp (hunpolled _ hself (by rwa [TracedPoller.updateChannel_channel]))
        rw [TracedPoller.updateChannel_index hnone] at hindex
        exact Classical.byContradiction fun hn => hindex (if_neg hn)
      · intro hregistered c' hc' hnone
        obtain rfl := Option.some.inj (hself.symm.trans hc')
        rw [TracedPoller.updateChannel_channel] at hnone
        rw [hpolled, TracedPoller.updateChannel_index hnone, if_pos (hregistered c hc hnone)]
        simp
  | remove ptr =>
      obtain ⟨c, hc, rfl⟩ := Option.map_eq_some_iff.mp hs
      have hself := @put_self s ptr c (s.traced.removeChannel ptr c) hc
      refine ⟨fun _ => trivial, fun _ c' hc' _ => ?_⟩
      obtain rfl := Option.some.inj (hself.symm.trans hc')
      rw [hinv'.epoll_eq_none hself]
      simp [TracedPoller.removeChannel]

theorem start_unpolled (h : start s) (ptr : Nat) : Unpolled ptr s := by
  intro c hc _
  rw [(start_inv h).epoll_eq_none hc, (h.2.1 c (List.mem_of_getElem? hc)).1]
  simp

theorem registered_unpolled (h : Reachable start step Registered s) (ptr : Nat) : Unpolled ptr s := by
  induction h with
  | start h => exact start_unpolled h ptr
  | next a h hc hs ih =>
      have hinv := reachable_inv h
      by_cases hptr : a.ptr = ptr
      · rw [← hptr]
        exact (step_unpolled hinv hs).mpr hc
      · intro c hc hnone
        rw [(step_inv hinv hs).epoll_eq_none hc]
        rw [step_others hs hptr] at hc
        exact (hinv.epoll_eq_none hc).mp (ih c hc hnone)

theorem disableAll_repeated (hinv : Inv s) (hc : s.channels[ptr]? = some c) (n : Nat) :
    ∃ t, run step (List.replicate n (.update .disableAll ptr)) s = some t ∧
      (t.traced.poller.epoll c.fd = none ↔ (c.index = .kAdded ↔ n % 2 = 1)) := by
  induction n generalizing s c with
  | zero => exact ⟨s, rfl, by simp [hinv.epoll_eq_none hc]⟩
  | succ n ih =>
      have hstep : step (.update .disableAll ptr) s = some (s.put ptr (s.traced.updateChannel ptr
          { c with channel := c.channel.disableAll })) := by
        simp [step, hc, Mutator.apply]
      have hself := @put_self s ptr c (s.traced.updateChannel ptr { c with channel := c.channel.disableAll }) hc
      obtain ⟨t, ht, hnone⟩ := ih (step_inv hinv hstep) hself
      have hfd := (updateChannel_kept (hinv.entered ptr c hc) c.channel.disableAll).moves.fd
      rw [hfd, TracedPoller.updateChannel_index rfl] at hnone
      refine ⟨t, by rw [List.replicate_succ, run, hstep]; exact ht, hnone.trans ?_⟩
      by_cases hi : c.index = .kAdded
      · simp [hi]
        omega
      · simp [hi]
        omega

/-- A channel without interest is not polled after an operation just when the operation found it
registered; repeated calls of disableAll register it every other time. -/
theorem no_interest_unpolled (s : PollerChannels) :
    (Reachable start step Registered s → ∀ ptr, Unpolled ptr s) ∧
      (Reachable start step always s →
        (∀ a t, step a s = some t → (Unpolled a.ptr t ↔ Registered a s)) ∧
          ∀ ptr c n, s.channels[ptr]? = some c →
            ∃ t, run step (List.replicate n (.update .disableAll ptr)) s = some t ∧
              (t.traced.poller.epoll c.fd = none ↔ (c.index = .kAdded ↔ n % 2 = 1))) := by
  refine ⟨fun h ptr => registered_unpolled h ptr, fun h => ⟨fun a t hs => ?_, fun ptr c n hc => ?_⟩⟩
  · exact step_unpolled (reachable_inv h) hs
  · exact disableAll_repeated (reachable_inv h) hc n

def unshown : PollerChannels := ⟨[⟨5, ⟨0⟩, .kNew⟩], ⟨⟨fun _ => none, fun _ => none⟩, []⟩⟩

theorem start_unshown : start unshown := by
  refine ⟨by decide, fun c hc => ?_, rfl⟩
  rw [List.mem_singleton.mp hc]
  exact ⟨rfl, rfl⟩

theorem no_interest_unpolled_disabled :
    ∃ s, Reachable start step Registered s ∧ s.traced.calls.length = 2 ∧ (∀ ptr, Unpolled ptr s) ∧
      ∃ t, step (.update .disableAll 0) s = some t ∧ ¬ Unpolled 0 t := by
  have hrun : (run (guarded step Registered) [.update .enableReading 0, .update .disableAll 0] unshown).map
      (fun s => (s.traced.calls.length, s.channels.map PolledChannel.index,
        (step (.update .disableAll 0) s).isSome)) = some (2, [.kDeleted], true) := by decide +kernel
  obtain ⟨s, hr, he⟩ := reachable_of_run start hrun start_unshown
  simp only [Prod.mk.injEq] at he
  obtain ⟨t, ht⟩ := Option.isSome_iff_exists.mp he.2.2
  obtain ⟨hunpolled, hstep⟩ := no_interest_unpolled s
  refine ⟨s, hr, he.1, hunpolled hr, t, ht, fun hut => ?_⟩
  have hregistered := ((hstep hr.forget).1 _ t ht).mp hut
  obtain ⟨c, hc, hi⟩ := List.map_eq_singleton_iff.mp he.2.1
  have hadded := hregistered c (by rw [hc]; rfl) rfl
  rw [hi] at hadded
  cases hadded

/-- The second disableAll finds the channel deleted and adds it, with no events to wait for. -/
theorem disabled_twice_polled :
    ¬ ∀ s, Reachable start step always s → ∀ a t, step a s = some t → Unpolled a.ptr t := by
  intro hclaim
  have hrun : (run (guarded step always) [.update .enableReading 0, .update .disableAll 0] unshown).map
      (fun s => (step (.update .disableAll 0) s).map fun t =>
        (t.channels.map (fun c => (c.fd, c.channel.isNoneEvent)), t.traced.poller.epoll 5)) =
      some (some ([(5, true)], some (0, 0))) := by decide +kernel
  obtain ⟨s, hr, he⟩ := reachable_of_run start hrun start_unshown
  obtain ⟨t, ht, he⟩ := Option.map_eq_some_iff.mp he
  simp only [Prod.mk.injEq] at he
  obtain ⟨c, hc, hi⟩ := List.map_eq_singleton_iff.mp he.1
  simp only [Prod.mk.injEq] at hi
  have hnone := hclaim s hr _ t ht c (by rw [hc]; rfl) hi.2
  rw [hi.1, he.2] at hnone
  cases hnone

end PollerChannels

end LearnNote.Muduo
