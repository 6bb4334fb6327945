import Mathlib.Logic.Function.Basic
import LearnNote.Muduo.TcpConnection

namespace LearnNote.Muduo

/-- What the poller has noted at a channel. -/
inductive Index
  | kNew
  | kAdded
  | kDeleted
deriving DecidableEq

inductive Operation
  | EPOLL_CTL_ADD
  | EPOLL_CTL_MOD
  | EPOLL_CTL_DEL

/-- The poller's map from descriptors to channels, and the kernel's set, which holds
for a descriptor the pointer to its channel and the events waited for. -/
structure EPollPoller where
  channels : Nat → Option Nat
  epoll : Nat → Option (Nat × BitVec 32)

/-- A channel with its descriptor and its index. -/
structure PolledChannel where
  fd : Nat
  channel : Channel
  index : Index

namespace EPollPoller

/-- The kernel refuses to add a descriptor twice, and to modify or delete one that
it does not hold. The refusal is only logged. -/
def update (operation : Operation) (ptr fd : Nat) (events : BitVec 32) (p : EPollPoller) : EPollPoller :=
  match operation, p.epoll fd with
  | .EPOLL_CTL_ADD, none | .EPOLL_CTL_MOD, some _ =>
      { p with epoll := Function.update p.epoll fd (some (ptr, events)) }
  | .EPOLL_CTL_DEL, some _ => { p with epoll := Function.update p.epoll fd none }
  | _, _ => p

def updateChannel (ptr : Nat) (c : PolledChannel) (p : EPollPoller) : PolledChannel × EPollPoller :=
  match c.index with
  | .kNew =>
      let p := { p with channels := Function.update p.channels c.fd (some ptr) }
      ({ c with index := .kAdded }, p.update .EPOLL_CTL_ADD ptr c.fd c.channel.events)
  | .kDeleted => ({ c with index := .kAdded }, p.update .EPOLL_CTL_ADD ptr c.fd c.channel.events)
  | .kAdded =>
      if c.channel.isNoneEvent then
        ({ c with index := .kDeleted }, p.update .EPOLL_CTL_DEL ptr c.fd c.channel.events)
      else (c, p.update .EPOLL_CTL_MOD ptr c.fd c.channel.events)

def removeChannel (ptr : Nat) (c : PolledChannel) (p : EPollPoller) : PolledChannel × EPollPoller :=
  let p := { p with channels := Function.update p.channels c.fd none }
  ({ c with index := .kNew }, if c.index = .kAdded then p.update .EPOLL_CTL_DEL ptr c.fd c.channel.events else p)

def watch (ptr : Nat) (s : PolledChannel × EPollPoller) : Effect → PolledChannel × EPollPoller
  | .enable mask => s.2.updateChannel ptr { s.1 with channel := s.1.channel.enable mask }
  | .disable mask => s.2.updateChannel ptr { s.1 with channel := s.1.channel.disable mask }
  | _ => s

def follow (ptr : Nat) (es : List Effect) (s : PolledChannel × EPollPoller) : PolledChannel × EPollPoller :=
  es.foldl (watch ptr) s

theorem channels_update (operation : Operation) (ptr fd : Nat) (events : BitVec 32) (p : EPollPoller) :
    (p.update operation ptr fd events).channels = p.channels := by
  unfold update
  split <;> rfl

theorem update_add {p : EPollPoller} {ptr fd : Nat} {events : BitVec 32} (h : p.epoll fd = none) :
    p.update .EPOLL_CTL_ADD ptr fd events = ⟨p.channels, Function.update p.epoll fd (some (ptr, events))⟩ := by
  simp [update, h]

theorem update_mod {p : EPollPoller} {ptr fd : Nat} {events : BitVec 32} {e : Nat × BitVec 32}
    (h : p.epoll fd = some e) :
    p.update .EPOLL_CTL_MOD ptr fd events = ⟨p.channels, Function.update p.epoll fd (some (ptr, events))⟩ := by
  simp [update, h]

theorem update_del {p : EPollPoller} {ptr fd : Nat} {events : BitVec 32} {e : Nat × BitVec 32}
    (h : p.epoll fd = some e) :
    p.update .EPOLL_CTL_DEL ptr fd events = ⟨p.channels, Function.update p.epoll fd none⟩ := by
  simp [update, h]

/-- A channel that is not new is in the map of its poller. -/
def Known (ptr : Nat) (s : PolledChannel × EPollPoller) : Prop :=
  s.1.index ≠ .kNew → s.2.channels s.1.fd = some ptr

/-- What the updates of a channel change: a channel never becomes new again, and
stays in the map once it is in. -/
structure Follows (ptr : Nat) (s s' : PolledChannel × EPollPoller) : Prop where
  fd : s'.1.fd = s.1.fd
  index : s.1.index ≠ .kNew → s'.1.index ≠ .kNew
  others : ∀ fd, fd ≠ s.1.fd → s'.2.channels fd = s.2.channels fd
  known : Known ptr s → Known ptr s'

variable {ptr : Nat} {s s' s'' : PolledChannel × EPollPoller}

theorem Follows.refl (s : PolledChannel × EPollPoller) : Follows ptr s s := ⟨rfl, id, fun _ _ => rfl, id⟩

theorem Follows.trans (h : Follows ptr s s') (h' : Follows ptr s' s'') : Follows ptr s s'' where
  fd := h'.fd.trans h.fd
  index := h'.index ∘ h.index
  others fd hfd := (h'.others fd (by rwa [h.fd])).trans (h.others fd hfd)
  known := h'.known ∘ h.known

theorem updateChannel_follows (c : PolledChannel) (p : EPollPoller) :
    Follows ptr (c, p) (p.updateChannel ptr c) ∧ (p.updateChannel ptr c).1.index ≠ .kNew := by
  cases hi : c.index with
  | kNew =>
      rw [updateChannel, hi]
      refine ⟨⟨rfl, fun hn => absurd hi hn, fun fd hfd => ?_, fun _ _ => ?_⟩, nofun⟩
      · simp only [channels_update]
        exact Function.update_of_ne hfd _ _
      · simp only [channels_update]
        exact Function.update_self _ _ _
  | kDeleted =>
      have hne : c.index ≠ .kNew := by
        rw [hi]
        nofun
      rw [updateChannel, hi]
      exact ⟨⟨rfl, fun _ => nofun, fun fd _ => by rw [channels_update], fun hk _ => by
        rw [channels_update]
        exact hk hne⟩, nofun⟩
  | kAdded =>
      have hne : c.index ≠ .kNew := by
        rw [hi]
        nofun
      rw [updateChannel, hi]
      simp only
      split
      · exact ⟨⟨rfl, fun _ => nofun, fun fd _ => by rw [channels_update], fun hk _ => by
          rw [channels_update]
          exact hk hne⟩, nofun⟩
      · exact ⟨⟨rfl, id, fun fd _ => by rw [channels_update], fun hk _ => by
          rw [channels_update]
          exact hk hne⟩, hne⟩

theorem watch_follows (s : PolledChannel × EPollPoller) (e : Effect) : Follows ptr s (watch ptr s e) := by
  have hupdate : ∀ ch : Channel, Follows ptr s (s.2.updateChannel ptr { s.1 with channel := ch }) := by
    intro ch
    have hu := (@updateChannel_follows ptr { s.1 with channel := ch } s.2).1
    exact ⟨hu.fd, hu.index, hu.others, hu.known⟩
  cases e with
  | enable mask => exact hupdate _
  | disable mask => exact hupdate _
  | _ => exact .refl s

theorem follow_follows (es : List Effect) (s : PolledChannel × EPollPoller) : Follows ptr s (follow ptr es s) := by
  induction es generalizing s with
  | nil => exact .refl s
  | cons e es ih => exact (watch_follows s e).trans (ih (watch ptr s e))

theorem index_follow {mask : BitVec 32} {es : List Effect} (h : .enable mask ∈ es) (s : PolledChannel × EPollPoller) :
    (follow ptr es s).1.index ≠ .kNew := by
  obtain ⟨pre, post, rfl⟩ := List.append_of_mem h
  have hsplit : follow ptr (pre ++ .enable mask :: post) s =
      follow ptr post (watch ptr (follow ptr pre s) (.enable mask)) := by
    simp [follow]
  rw [hsplit]
  exact (follow_follows post _).index (updateChannel_follows _ _).2

end EPollPoller

end LearnNote.Muduo
