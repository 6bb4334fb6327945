import LearnNote.Lib.Transition
import LearnNote.Muduo.EPollPoller

namespace LearnNote.Muduo

open Lib.Transition

/-- The poller with its calls of epoll_ctl: the operation, the descriptor and whether the
kernel took it. -/
structure TracedPoller where
  poller : EPollPoller
  calls : List (Operation × Nat × Bool)

namespace TracedPoller

/-- ADD is for a descriptor that the kernel does not hold, MOD and DEL for one that it holds. -/
def legal (operation : Operation) (fd : Nat) (p : EPollPoller) : Bool :=
  match operation with
  | .EPOLL_CTL_ADD => (p.epoll fd).isNone
  | .EPOLL_CTL_MOD | .EPOLL_CTL_DEL => (p.epoll fd).isSome

def update (operation : Operation) (ptr fd : Nat) (events : BitVec 32) (t : TracedPoller) : TracedPoller :=
  ⟨t.poller.update operation ptr fd events, t.calls ++ [(operation, fd, legal operation fd t.poller)]⟩

def enter (fd : Nat) (entry : Option Nat) (t : TracedPoller) : TracedPoller :=
  ⟨⟨Function.update t.poller.channels fd entry, t.poller.epoll⟩, t.calls⟩

def updateChannel (ptr : Nat) (c : PolledChannel) (t : TracedPoller) : PolledChannel × TracedPoller :=
  match c.index with
  | .kNew =>
      let t := t.enter c.fd (some ptr)
      ({ c with index := .kAdded }, t.update .EPOLL_CTL_ADD ptr c.fd c.channel.events)
  | .kDeleted => ({ c with index := .kAdded }, t.update .EPOLL_CTL_ADD ptr c.fd c.channel.events)
  | .kAdded =>
      if c.channel.isNoneEvent then
        ({ c with index := .kDeleted }, t.update .EPOLL_CTL_DEL ptr c.fd c.channel.events)
      else (c, t.update .EPOLL_CTL_MOD ptr c.fd c.channel.events)

def removeChannel (ptr : Nat) (c : PolledChannel) (t : TracedPoller) : PolledChannel × TracedPoller :=
  let t := t.enter c.fd none
  ({ c with index := .kNew }, if c.index = .kAdded then t.update .EPOLL_CTL_DEL ptr c.fd c.channel.events else t)

/-- The trace does not change what the poller does. -/
theorem updateChannel_poller (ptr : Nat) (c : PolledChannel) (t : TracedPoller) :
    ((t.updateChannel ptr c).1, (t.updateChannel ptr c).2.poller) = t.poller.updateChannel ptr c := by
  unfold updateChannel EPollPoller.updateChannel
  cases c.index with
  | kNew | kDeleted => rfl
  | kAdded =>
      dsimp only
      split <;> rfl

theorem removeChannel_poller (ptr : Nat) (c : PolledChannel) (t : TracedPoller) :
    ((t.removeChannel ptr c).1, (t.removeChannel ptr c).2.poller) = t.poller.removeChannel ptr c := by
  unfold removeChannel EPollPoller.removeChannel
  split <;> rfl

end TracedPoller

inductive Mutator
  | enableReading
  | disableReading
  | enableWriting
  | disableWriting
  | disableAll

def Mutator.apply : Mutator → Channel → Channel
  | .enableReading => Channel.enableReading
  | .disableReading => Channel.disableReading
  | .enableWriting => Channel.enableWriting
  | .disableWriting => Channel.disableWriting
  | .disableAll => Channel.disableAll

/-- The channels of one poller; the pointer to a channel is its place in the list. -/
structure PollerChannels where
  channels : List PolledChannel
  traced : TracedPoller

namespace PollerChannels

inductive Act
  | update (mutator : Mutator) (ptr : Nat)
  | remove (ptr : Nat)

def put (ptr : Nat) (r : PolledChannel × TracedPoller) (s : PollerChannels) : PollerChannels :=
  ⟨s.channels.set ptr r.1, r.2⟩

def step : Act → PollerChannels → Option PollerChannels
  | .update mutator ptr, s => s.channels[ptr]?.map fun c =>
      s.put ptr (s.traced.updateChannel ptr { c with channel := mutator.apply c.channel })
  | .remove ptr, s => s.channels[ptr]?.map fun c => s.put ptr (s.traced.removeChannel ptr c)

/-- Any channels, with different descriptors, that have not been shown to the poller. -/
def start (s : PollerChannels) : Prop :=
  (s.channels.map PolledChannel.fd).Nodup ∧ (∀ c ∈ s.channels, c.index = .kNew ∧ c.channel.events = 0) ∧
    s.traced = ⟨⟨fun _ => none, fun _ => none⟩, []⟩

/-- The kernel's set and the map have the channels that their index says, and every call was
legal. -/
structure Agrees (s : PollerChannels) : Prop where
  epoll : ∀ fd ptr events, s.traced.poller.epoll fd = some (ptr, events) ↔
    ∃ c, s.channels[ptr]? = some c ∧ c.fd = fd ∧ c.index = .kAdded ∧ c.channel.events = events
  map : ∀ fd ptr, s.traced.poller.channels fd = some ptr ↔
    ∃ c, s.channels[ptr]? = some c ∧ c.fd = fd ∧ c.index ≠ .kNew
  calls : ∀ call ∈ s.traced.calls, call.2.2 = true

/-- What the poller and the kernel have for a channel. -/
structure Entered (ptr : Nat) (c : PolledChannel) (p : EPollPoller) : Prop where
  epoll : p.epoll c.fd = if c.index = .kAdded then some (ptr, c.channel.events) else none
  map : p.channels c.fd = if c.index = .kNew then none else some ptr

/-- What holds between operations: each channel is entered by its index, and nothing else is. -/
structure Inv (s : PollerChannels) : Prop where
  nodup : (s.channels.map PolledChannel.fd).Nodup
  entered : ∀ ptr c, s.channels[ptr]? = some c → Entered ptr c s.traced.poller
  foreign : ∀ fd, fd ∉ s.channels.map PolledChannel.fd →
    s.traced.poller.epoll fd = none ∧ s.traced.poller.channels fd = none
  calls : ∀ call ∈ s.traced.calls, call.2.2 = true

/-- What an operation on one channel does to the poller. -/
structure Moves (ptr : Nat) (c : PolledChannel) (p : EPollPoller) (r : PolledChannel × EPollPoller) : Prop where
  fd : r.1.fd = c.fd
  entered : Entered ptr r.1 r.2
  others : ∀ fd, fd ≠ c.fd → r.2.epoll fd = p.epoll fd ∧ r.2.channels fd = p.channels fd

/-- An operation on one channel, and its calls. -/
structure Kept (ptr : Nat) (c : PolledChannel) (t : TracedPoller) (r : PolledChannel × TracedPoller) : Prop where
  moves : Moves ptr c t.poller (r.1, r.2.poller)
  calls : ∀ call ∈ r.2.calls, call ∈ t.calls ∨ call.2.2 = true

variable {ptr fd : Nat} {c : PolledChannel} {p : EPollPoller} {t : TracedPoller} {s s' : PollerChannels}
  {events : BitVec 32} {r : PolledChannel × TracedPoller} {operation : Operation}

theorem Moves.of_call {epoll : Option (Nat × BitVec 32)} {entry : Option Nat} {ch : Channel} {index : Index}
    (he : epoll = if index = .kAdded then some (ptr, ch.events) else none)
    (hm : entry = if index = .kNew then none else some ptr) :
    Moves ptr c p (⟨c.fd, ch, index⟩,
      ⟨Function.update p.channels c.fd entry, Function.update p.epoll c.fd epoll⟩) := by
  refine ⟨rfl, ⟨?_, ?_⟩, fun fd hfd => ⟨?_, ?_⟩⟩
  · exact (Function.update_self _ _ _).trans he
  · exact (Function.update_self _ _ _).trans hm
  · exact Function.update_of_ne hfd _ _
  · exact Function.update_of_ne hfd _ _

theorem Moves.of_call_known {epoll : Option (Nat × BitVec 32)} {ch : Channel} {index : Index}
    (he : epoll = if index = .kAdded then some (ptr, ch.events) else none) (hi : index ≠ .kNew)
    (hm : p.channels c.fd = some ptr) :
    Moves ptr c p (⟨c.fd, ch, index⟩, ⟨p.channels, Function.update p.epoll c.fd epoll⟩) := by
  have hmoves := Moves.of_call (c := c) (p := p) he (hm.trans (if_neg hi).symm)
  rwa [Function.update_eq_self] at hmoves

theorem updateChannel_moves (he : Entered ptr c p) (ch : Channel) :
    Moves ptr c p (p.updateChannel ptr { c with channel := ch }) := by
  obtain ⟨hepoll, hmap⟩ := he
  rw [EPollPoller.updateChannel]
  cases hi : c.index with
  | kNew =>
      rw [hi, if_neg (by simp)] at hepoll
      dsimp only
      rw [EPollPoller.update_add (p := ⟨Function.update p.channels c.fd (some ptr), p.epoll⟩) hepoll]
      exact Moves.of_call rfl rfl
  | kDeleted =>
      rw [hi, if_neg (by simp)] at hepoll hmap
      dsimp only
      rw [EPollPoller.update_add hepoll]
      exact Moves.of_call_known rfl (by simp) hmap
  | kAdded =>
      rw [hi, if_pos rfl] at hepoll
      rw [hi, if_neg (by simp)] at hmap
      dsimp only
      split
      · rw [EPollPoller.update_del hepoll]
        exact Moves.of_call_known rfl (by simp) hmap
      · rw [EPollPoller.update_mod hepoll]
        exact Moves.of_call_known rfl (by simp) hmap

theorem removeChannel_moves (he : Entered ptr c p) : Moves ptr c p (p.removeChannel ptr c) := by
  obtain ⟨hepoll, hmap⟩ := he
  rw [EPollPoller.removeChannel]
  by_cases hi : c.index = .kAdded
  · rw [if_pos hi] at hepoll ⊢
    rw [EPollPoller.update_del (p := ⟨Function.update p.channels c.fd none, p.epoll⟩) hepoll]
    exact Moves.of_call rfl rfl
  · rw [if_neg hi] at hepoll ⊢
    refine ⟨rfl, ⟨hepoll, Function.update_self _ _ _⟩, fun fd hfd => ⟨rfl, ?_⟩⟩
    exact Function.update_of_ne hfd _ _

theorem calls_update {call : Operation × Nat × Bool} (hc : call ∈ (t.update operation ptr fd events).calls)
    (hlegal : TracedPoller.legal operation fd t.poller = true) : call ∈ t.calls ∨ call.2.2 = true := by
  rcases List.mem_append.mp hc with hc | hc
  · exact .inl hc
  · rw [List.mem_singleton.mp hc]
    exact .inr hlegal

theorem updateChannel_kept (he : Entered ptr c t.poller) (ch : Channel) :
    Kept ptr c t (t.updateChannel ptr { c with channel := ch }) := by
  refine ⟨?_, fun call hc => ?_⟩
  · rw [TracedPoller.updateChannel_poller]
    exact updateChannel_moves he ch
  have hepoll := he.epoll
  rw [TracedPoller.updateChannel] at hc
  cases hi : c.index with
  | kNew =>
      rw [hi, if_neg (by simp)] at hepoll
      simp only [hi] at hc
      exact calls_update (t := t.enter c.fd (some ptr)) hc (Option.isNone_iff_eq_none.mpr hepoll)
  | kDeleted =>
      rw [hi, if_neg (by simp)] at hepoll
      simp only [hi] at hc
      exact calls_update hc (Option.isNone_iff_eq_none.mpr hepoll)
  | kAdded =>
      rw [hi, if_pos rfl] at hepoll
      simp only [hi] at hc
      split at hc
      · exact calls_update hc (Option.isSome_of_eq_some hepoll)
      · exact calls_update hc (Option.isSome_of_eq_some hepoll)

theorem removeChannel_kept (he : Entered ptr c t.poller) : Kept ptr c t (t.removeChannel ptr c) := by
  refine ⟨?_, fun call hc => ?_⟩
  · rw [TracedPoller.removeChannel_poller]
    exact removeChannel_moves he
  have hepoll := he.epoll
  rw [TracedPoller.removeChannel] at hc
  by_cases hi : c.index = .kAdded
  · rw [if_pos hi] at hepoll
    simp only [if_pos hi] at hc
    exact calls_update (t := t.enter c.fd none) hc (Option.isSome_of_eq_some hepoll)
  · simp only [if_neg hi] at hc
    exact .inl hc

theorem put_inv (hinv : Inv s) (hc : s.channels[ptr]? = some c) (hk : Kept ptr c s.traced r) :
    Inv (s.put ptr r) := by
  have hlt := (List.getElem?_eq_some_iff.mp hc).1
  have hfds : (s.channels.set ptr r.1).map PolledChannel.fd = s.channels.map PolledChannel.fd := by
    have hfd : (s.channels.map PolledChannel.fd)[ptr]? = some c.fd := by
      rw [List.getElem?_map, hc, Option.map_some]
    obtain ⟨hlt', hget⟩ := List.getElem?_eq_some_iff.mp hfd
    rw [List.map_set, hk.moves.fd, ← hget, List.set_getElem_self]
  refine ⟨hfds ▸ hinv.nodup, fun ptr' c' hc' => ?_, fun fd hfd => ?_, fun call hcall => ?_⟩
  · by_cases hptr : ptr = ptr'
    · subst ptr'
      rw [put, List.getElem?_set_self hlt] at hc'
      cases hc'
      exact hk.moves.entered
    · rw [put, List.getElem?_set_ne hptr] at hc'
      have hne : c'.fd ≠ c.fd := by
        intro he
        have hl := (List.getElem?_eq_some_iff.mp hc').1
        apply hptr
        apply (List.getElem?_inj (i := ptr) (j := ptr') (by simpa using hlt) hinv.nodup).mp
        rw [List.getElem?_map, List.getElem?_map, hc, hc', Option.map_some, Option.map_some, he]
      obtain ⟨hepoll, hmap⟩ := hk.moves.others c'.fd hne
      obtain ⟨he, hm⟩ := hinv.entered ptr' c' hc'
      exact ⟨hepoll.trans he, hmap.trans hm⟩
  · rw [put, hfds] at hfd
    have hne : fd ≠ c.fd := by
      rintro rfl
      exact hfd (List.mem_map.mpr ⟨c, List.mem_of_getElem? hc, rfl⟩)
    obtain ⟨hepoll, hmap⟩ := hk.moves.others fd hne
    obtain ⟨he, hm⟩ := hinv.foreign fd hfd
    exact ⟨hepoll.trans he, hmap.trans hm⟩
  · exact (hk.calls call hcall).elim (hinv.calls call) id

theorem step_inv {a : Act} (hinv : Inv s) (hs : step a s = some s') : Inv s' := by
  cases a with
  | update mutator ptr =>
      obtain ⟨c, hc, rfl⟩ := Option.map_eq_some_iff.mp hs
      exact put_inv hinv hc (updateChannel_kept (hinv.entered ptr c hc) (mutator.apply c.channel))
  | remove ptr =>
      obtain ⟨c, hc, rfl⟩ := Option.map_eq_some_iff.mp hs
      exact put_inv hinv hc (removeChannel_kept (hinv.entered ptr c hc))

theorem start_inv (h : start s) : Inv s := by
  obtain ⟨hnodup, hnew, htraced⟩ := h
  refine ⟨hnodup, fun ptr c hc => ?_, fun fd _ => ?_, fun call hcall => ?_⟩
  · have hi := (hnew c (List.mem_of_getElem? hc)).1
    rw [htraced]
    exact ⟨by rw [hi]; rfl, by rw [hi]; rfl⟩
  · rw [htraced]
    exact ⟨rfl, rfl⟩
  · rw [htraced] at hcall
    cases hcall

theorem reachable_inv {cond : Act → PollerChannels → Prop} (h : Reachable start step cond s) : Inv s := by
  apply h.invariant
  · intro s hs
    exact start_inv hs
  · intro a s t hinv _ hs
    exact step_inv hinv hs

theorem Inv.agrees (hinv : Inv s) : Agrees s := by
  refine ⟨fun fd ptr events => ⟨fun hepoll => ?_, ?_⟩, fun fd ptr => ⟨fun hmap => ?_, ?_⟩, hinv.calls⟩
  · by_cases hfd : fd ∈ s.channels.map PolledChannel.fd
    · obtain ⟨c, hc, rfl⟩ := List.mem_map.mp hfd
      obtain ⟨ptr', hget⟩ := List.getElem?_of_mem hc
      rw [(hinv.entered ptr' c hget).epoll] at hepoll
      obtain ⟨hi, he⟩ := Option.ite_none_right_eq_some.mp hepoll
      cases he
      exact ⟨c, hget, rfl, hi, rfl⟩
    · rw [(hinv.foreign fd hfd).1] at hepoll
      cases hepoll
  · rintro ⟨c, hc, rfl, hi, rfl⟩
    rw [(hinv.entered ptr c hc).epoll, if_pos hi]
  · by_cases hfd : fd ∈ s.channels.map PolledChannel.fd
    · obtain ⟨c, hc, rfl⟩ := List.mem_map.mp hfd
      obtain ⟨ptr', hget⟩ := List.getElem?_of_mem hc
      rw [(hinv.entered ptr' c hget).map] at hmap
      obtain ⟨hi, he⟩ := Option.ite_none_left_eq_some.mp hmap
      cases he
      exact ⟨c, hget, rfl, hi⟩
    · rw [(hinv.foreign fd hfd).2] at hmap
      cases hmap
  · rintro ⟨c, hc, rfl, hi⟩
    rw [(hinv.entered ptr c hc).map, if_neg hi]

/-- After any operations on any channels the kernel, the map and the channels agree. -/
theorem bookkeeping_agrees (s : PollerChannels) (h : Reachable start step always s) : Agrees s := by
  have hinv := reachable_inv h
  exact hinv.agrees

theorem bookkeeping_agrees_enabled_again :
    ∃ s, Reachable start step always s ∧ s.traced.calls.length = 8 ∧
      s.traced.poller.epoll 5 = some (0, EPOLLIN ||| EPOLLPRI) ∧ s.traced.poller.epoll 6 = some (1, 0) ∧ Agrees s := by
  have hstart : start ⟨[⟨5, ⟨0⟩, .kNew⟩, ⟨6, ⟨0⟩, .kNew⟩], ⟨⟨fun _ => none, fun _ => none⟩, []⟩⟩ := by
    refine ⟨by decide, ?_, rfl⟩
    intro c hc
    rcases List.mem_pair.mp hc with rfl | rfl <;> exact ⟨rfl, rfl⟩
  have hrun : (run (guarded step always) [.update .enableReading 0, .update .enableWriting 1, .update .disableAll 0,
      .remove 0, .update .enableWriting 0, .update .enableReading 0, .update .disableWriting 0,
      .update .disableWriting 1, .update .disableAll 1]
      ⟨[⟨5, ⟨0⟩, .kNew⟩, ⟨6, ⟨0⟩, .kNew⟩], ⟨⟨fun _ => none, fun _ => none⟩, []⟩⟩).map
      (fun s => (s.traced.calls.length, s.traced.poller.epoll 5, s.traced.poller.epoll 6)) =
        some (8, some (0, EPOLLIN ||| EPOLLPRI), some (1, 0)) := by decide +kernel
  obtain ⟨s, hr, he⟩ := reachable_of_run start hrun hstart
  simp only [Prod.mk.injEq] at he
  exact ⟨s, hr, he.1, he.2.1, he.2.2, bookkeeping_agrees s hr⟩

end PollerChannels

end LearnNote.Muduo
