import LearnNote.Muduo.TcpServer

namespace LearnNote.Muduo

open Lib.Transition

def Effect.mutate (c : Channel) : Effect → Channel
  | .enable mask => c.enable mask
  | .disable mask => c.disable mask
  | _ => c

def mutated (es : List Effect) (c : Channel) : Channel := es.foldl Effect.mutate c

theorem mutated_append (es es' : List Effect) (c : Channel) : mutated (es ++ es') c = mutated es' (mutated es c) :=
  List.foldl_append

theorem Channel.disable_all (c : Channel) : c.disable (~~~Channel.kNoneEvent) = c.disableAll := by
  rw [disable, disableAll, BitVec.not_not, kNoneEvent]
  exact congrArg Channel.mk (BitVec.and_zero)

/-- The effects of a connection say how its channel has changed. -/
def Mutates (c t : TcpConnection) : Prop := ∃ es, t.log = c.log ++ es ∧ t.channel = mutated es c.channel

namespace Mutates

variable {c d t u : TcpConnection} {rest data : List UInt8} {answer : Except Errno Nat}

theorem refl (c : TcpConnection) : Mutates c c := ⟨[], (List.append_nil _).symm, rfl⟩

theorem trans (h : Mutates c d) (h' : Mutates d t) : Mutates c t := by
  obtain ⟨es, hl, hc⟩ := h
  obtain ⟨es', hl', hc'⟩ := h'
  refine ⟨es ++ es', ?_, ?_⟩
  · rw [hl', hl, List.append_assoc]
  · rw [hc', hc, mutated_append]

theorem congr (h : Mutates c t) (hl : u.log = t.log) (hc : u.channel = t.channel) : Mutates c u := by
  obtain ⟨es, hl', hc'⟩ := h
  exact ⟨es, hl.trans hl', hc.trans hc'⟩

theorem emit (h : Mutates c t) (e : Effect) : Mutates c ({ t with channel := e.mutate t.channel }.emit e) :=
  h.trans ⟨[e], rfl, rfl⟩

theorem setState (h : Mutates c t) (state : StateE) : Mutates c (t.setState state) :=
  (h.congr (u := { t with state := state }) rfl rfl).emit (.setState state)

theorem disableAll (h : Mutates c t) : Mutates c t.disableAll := by
  have hd := h.emit (.disable (~~~Channel.kNoneEvent))
  rw [Effect.mutate, Channel.disable_all] at hd
  exact hd

theorem writeCompleted (h : Mutates c t) : Mutates c t.writeCompleted := by
  rw [TcpConnection.writeCompleted]
  split
  · exact h.congr rfl rfl
  · exact h

theorem checkHighWaterMark (h : Mutates c t) (n : Nat) : Mutates c (t.checkHighWaterMark n) := by
  rw [TcpConnection.checkHighWaterMark]
  split
  · exact h.congr rfl rfl
  · exact h

theorem ensureWriting (h : Mutates c t) : Mutates c t.ensureWriting := by
  rw [TcpConnection.ensureWriting]
  split
  · exact h
  · exact h.emit (.enable Channel.kWriteEvent)

theorem sendRest (h : Mutates c d) (hs : d.sendRest rest = some t) : Mutates c t := by
  rw [TcpConnection.sendRest] at hs
  split at hs
  · cases hs
    exact h
  · obtain ⟨a, ha, rfl⟩ := Option.map_eq_some_iff.mp hs
    obtain ⟨b, -, rfl⟩ := Option.map_eq_some_iff.mp ha
    have hbuffer : Mutates c { d.checkHighWaterMark rest.length with outputBuffer := b } :=
      (h.checkHighWaterMark rest.length).congr rfl rfl
    exact (hbuffer.emit (.append rest)).ensureWriting

theorem sendInLoop (hs : c.sendInLoop data answer = some t) : Mutates c t := by
  have hcall : Mutates c (c.emit (.sendInLoop data)) := (refl c).emit (.sendInLoop data)
  have hwrite : Mutates c ((c.emit (.sendInLoop data)).emit (.write data answer)) := hcall.emit (.write data answer)
  rw [TcpConnection.sendInLoop] at hs
  split at hs
  · cases answer with
    | ok nwrote =>
        dsimp only at hs
        split at hs
        · exact hwrite.writeCompleted.sendRest hs
        · exact hwrite.sendRest hs
    | error errno =>
        dsimp only at hs
        split at hs
        · cases hs
          exact hwrite
        · exact hwrite.sendRest hs
  · exact hcall.sendRest hs

theorem shutdownInLoop (h : Mutates c t) : Mutates c t.shutdownInLoop := by
  rw [TcpConnection.shutdownInLoop]
  split
  · exact h
  · exact h.emit .shutdownWrite

theorem shutdown (c : TcpConnection) : Mutates c c.shutdown := by
  rw [TcpConnection.shutdown]
  split
  · exact ((refl c).setState .kDisconnecting).shutdownInLoop
  · exact refl c

theorem connectEstablished (c : TcpConnection) : Mutates c c.connectEstablished :=
  (((refl c).setState .kConnected).emit (.enable Channel.kReadEvent)).emit .connectionCallback

theorem connectDestroted (c : TcpConnection) : Mutates c c.connectDestroted := by
  rw [TcpConnection.connectDestroted]
  split
  · exact ((refl c).setState .kDisconnected).disableAll.emit .connectionCallback
  · exact refl c

theorem handleClose (c : TcpConnection) : Mutates c c.handleClose :=
  (((refl c).setState .kDisconnected).disableAll.emit .connectionCallback).emit .closeCallback

theorem handleRead {received : Except Errno (List UInt8)} (hs : c.handleRead received = some t) : Mutates c t := by
  obtain ⟨⟨n, b⟩, -, rfl⟩ := Option.map_eq_some_iff.mp hs
  have hread : Mutates c { c with inputBuffer := b } := (refl c).congr rfl rfl
  dsimp only
  split
  · exact hread
  · exact hread.trans (handleClose _)
  · exact hread.emit .messageCallback

theorem outputDrained (h : Mutates c t) : Mutates c t.outputDrained := by
  have hd : Mutates c t.disableWriting := h.emit (.disable Channel.kWriteEvent)
  rw [TcpConnection.outputDrained]
  split
  · exact hd.writeCompleted.shutdownInLoop
  · exact hd.writeCompleted

theorem handleWrite (answer : Except Errno Nat) (c : TcpConnection) : Mutates c (c.handleWrite answer) := by
  have hw : Mutates c (c.writeFd answer) := (refl c).emit (.write _ answer)
  have hr : Mutates c ((c.writeFd answer).retrieveOutput (written answer)) := hw.congr rfl rfl
  rw [TcpConnection.handleWrite]
  split
  · split
    · rw [TcpConnection.checkDrained]
      split
      · exact hr.outputDrained
      · exact hr
    · exact hw
  · exact refl c

theorem sendFileInLoop (fileDescriptor : Nat) (offset : Int) (count : Nat) (answer : Except Errno Nat)
    (c : TcpConnection) :
    Mutates c (c.sendFileInLoop fileDescriptor offset count answer) := by
  have hsent : Mutates c (c.emit (.sendfile fileDescriptor offset count answer)) :=
    (refl c).emit (.sendfile fileDescriptor offset count answer)
  rw [TcpConnection.sendFileInLoop]
  split
  · exact refl c
  · split
    · cases answer with
      | ok bytesSent =>
          dsimp only
          split
          · exact hsent.writeCompleted
          · exact hsent.congr rfl rfl
      | error errno =>
          dsimp only
          split
          · exact hsent
          · exact hsent.congr rfl rfl
    · split
      · exact refl c
      · exact (refl c).congr rfl rfl

end Mutates

namespace Dispatch

open ConnectionLoop

variable {c t : TcpConnection} {l l' : ConnectionLoop} {d d' : Dispatch}

theorem mutates_runs {memory : Nat → UInt8} {answer : Except Errno Nat} {f : Functor} (hr : Runs memory answer c f t) :
    Mutates c t := by
  cases hr with
  | sendInLoop data len t hle hs => exact .sendInLoop hs
  | sendFileInLoop => exact .sendFileInLoop ..
  | shutdownInLoop => exact (Mutates.refl c).shutdownInLoop
  | connectDestroted => exact .connectDestroted c
  | writeCompleteCallback | highWaterMarkCallback => exact .refl c

theorem mutates_loopMoves {a : LoopAct} (hm : LoopMoves l a t) : Mutates l.conn t := by
  cases hm with
  | connectEstablished => exact .connectEstablished _
  | connectDestroted => exact .connectDestroted _
  | handleRead received t hstate hs => exact .handleRead hs
  | handleWrite answer => exact .handleWrite answer _
  | handleClose => exact .handleClose _
  | send data answer t hstate hle hs => exact .sendInLoop hs
  | sendFile => exact .sendFileInLoop ..
  | sendOff | sendFileOff => exact .refl _
  | shutdown => exact .shutdown _
  | runPending answer f fs t hq hr =>
      have hfs : Mutates l.conn { l.conn with pendingFunctors := fs } := (Mutates.refl _).congr rfl rfl
      exact hfs.trans (mutates_runs hr)

theorem mutates_loop {a : ConnectionLoop.Act} (hs : ConnectionLoop.step a l = some l') : Mutates l.conn l'.conn := by
  have hcall : ∀ {n : Nat} {next : Caller}, l.call n next = some l' → Mutates l.conn l'.conn := by
    intro n next hs
    obtain ⟨-, he⟩ := Option.ite_none_right_eq_some.mp hs
    cases he
    split <;> exact .refl _
  cases a with
  | send | sendFile | shutdown => exact hcall hs
  | advance n =>
      cases advances_of_advance hs with
      | queueSend | queueSendFile | queueShutdown => exact (Mutates.refl _).congr rfl rfl
      | storeState => exact (Mutates.refl _).setState _
  | poke =>
      cases hs
      exact .refl _
  | loop a =>
      obtain ⟨c, hc, rfl⟩ := Option.map_eq_some_iff.mp hs
      exact mutates_loopMoves (moves_of_loopStep hc)

theorem mutates_step {a : Act} (hs : step a d = some d') : Mutates d.loop.conn d'.loop.conn := by
  cases a with
  | poll revents =>
      obtain ⟨-, he⟩ := Option.ite_none_right_eq_some.mp hs
      cases he
      exact .refl _
  | handle received sent =>
      rw [step] at hs
      split at hs
      next => cases hs
      next h hs' _ =>
        obtain ⟨c, hc, rfl⟩ := Option.map_eq_some_iff.mp hs
        cases h with
        | close =>
            rw [handle] at hc
            split at hc
            · exact mutates_loopMoves (moves_of_loopStep hc)
            · cases hc
              exact .refl _
        | error =>
            cases hc
            exact .refl _
        | read =>
            rw [handle] at hc
            split at hc
            · exact mutates_loopMoves (moves_of_loopStep hc)
            · cases hc
              exact .refl _
        | write =>
            rw [handle] at hc
            split at hc
            · exact mutates_loopMoves (moves_of_loopStep hc)
            · cases hc
              exact .refl _
  | queueDestroted =>
      cases hs
      exact (Mutates.refl _).congr rfl rfl
  | other a =>
      obtain ⟨-, hs⟩ := Option.ite_none_right_eq_some.mp hs
      obtain ⟨l, hl, rfl⟩ := Option.map_eq_some_iff.mp hs
      exact mutates_loop hl

end Dispatch

namespace EPollPoller

variable {ptr : Nat} {s s' s'' : PolledChannel × EPollPoller} {es es' : List Effect}

/-- The kernel has of a channel what its index says, and a channel that it does not have wants nothing. -/
structure Entered (ptr : Nat) (s : PolledChannel × EPollPoller) : Prop where
  added : s.1.index = .kAdded → s.2.epoll s.1.fd = some (ptr, s.1.channel.events)
  absent : s.1.index ≠ .kAdded → s.2.epoll s.1.fd = none ∧ s.1.channel.events = 0

theorem Entered.congr {c : PolledChannel} {p p' : EPollPoller} (h : Entered ptr (c, p))
    (hp : p'.epoll c.fd = p.epoll c.fd) : Entered ptr (c, p') :=
  ⟨fun hi => hp.trans (h.added hi), fun hi => ⟨hp.trans (h.absent hi).1, (h.absent hi).2⟩⟩

theorem Entered.ptr_eq (h : Entered ptr s) {j : Nat} {events : BitVec 32} (he : s.2.epoll s.1.fd = some (j, events)) :
    ptr = j := by
  by_cases hi : s.1.index = .kAdded
  · exact congrArg Prod.fst (Option.some.inj ((h.added hi).symm.trans he))
  · rw [(h.absent hi).1] at he
    cases he

/-- What the updates for some effects leave of a channel and of the kernel's set. -/
structure Enters (ptr : Nat) (es : List Effect) (s s' : PolledChannel × EPollPoller) : Prop where
  fd : s'.1.fd = s.1.fd
  channel : s'.1.channel = mutated es s.1.channel
  others : ∀ fd, fd ≠ s.1.fd → s'.2.epoll fd = s.2.epoll fd
  entered : Entered ptr s'

theorem Enters.trans (h : Enters ptr es s s') (h' : Enters ptr es' s' s'') : Enters ptr (es ++ es') s s'' where
  fd := h'.fd.trans h.fd
  channel := by rw [h'.channel, h.channel, mutated_append]
  others fd hfd := (h'.others fd (by rwa [h.fd])).trans (h.others fd hfd)
  entered := h'.entered

theorem Enters.of_call {e : Effect} {entry : Option (Nat × BitVec 32)} {channels : Nat → Option Nat} {index : Index}
    (he : entry = if index = .kAdded then some (ptr, (e.mutate s.1.channel).events) else none)
    (hnone : index ≠ .kAdded → (e.mutate s.1.channel).events = 0) :
    Enters ptr [e] s (⟨s.1.fd, e.mutate s.1.channel, index⟩, ⟨channels, Function.update s.2.epoll s.1.fd entry⟩) := by
  refine ⟨rfl, rfl, fun fd hfd => Function.update_of_ne hfd _ _, fun hi => ?_, fun hi => ⟨?_, hnone hi⟩⟩
  · exact (Function.update_self _ _ _).trans (he.trans (if_pos hi))
  · exact (Function.update_self _ _ _).trans (he.trans (if_neg hi))

theorem updateChannel_enters (h : Entered ptr s) (e : Effect) :
    Enters ptr [e] s (s.2.updateChannel ptr { s.1 with channel := e.mutate s.1.channel }) := by
  rw [updateChannel]
  cases hi : s.1.index with
  | kNew =>
      have hnone := (h.absent (by simp [hi])).1
      dsimp only
      rw [update_add (p := ⟨Function.update s.2.channels s.1.fd (some ptr), s.2.epoll⟩) hnone]
      exact Enters.of_call rfl (fun hne => absurd rfl hne)
  | kDeleted =>
      have hnone := (h.absent (by simp [hi])).1
      dsimp only
      rw [update_add hnone]
      exact Enters.of_call rfl (fun hne => absurd rfl hne)
  | kAdded =>
      have hsome := h.added hi
      dsimp only
      split
      next hz =>
        rw [update_del hsome]
        exact Enters.of_call rfl (fun _ => beq_iff_eq.mp hz)
      next =>
        rw [update_mod hsome]
        exact Enters.of_call (if_pos hi).symm (fun hne => absurd hi hne)

theorem watch_enters (h : Entered ptr s) (e : Effect) : Enters ptr [e] s (watch ptr s e) := by
  cases e with
  | enable mask => exact updateChannel_enters h (.enable mask)
  | disable mask => exact updateChannel_enters h (.disable mask)
  | _ => exact ⟨rfl, rfl, fun _ _ => rfl, h⟩

theorem follow_enters (h : Entered ptr s) (es : List Effect) : Enters ptr es s (follow ptr es s) := by
  induction es generalizing s with
  | nil => exact ⟨rfl, rfl, fun _ _ => rfl, h⟩
  | cons e es ih =>
      have hfirst := watch_enters h e
      exact hfirst.trans (ih hfirst.entered)

end EPollPoller

namespace TcpServer

open EPollPoller (Entered follow_enters)

variable {s u : TcpServer} {x y : Served} {i : Nat}

theorem channel_effects {a : Dispatch.Act} {d d' : Dispatch} (hs : Dispatch.step a d = some d') :
    d'.loop.conn.channel = mutated (effects d d') d.loop.conn.channel := by
  obtain ⟨es, hl, hc⟩ := Dispatch.mutates_step hs
  rw [effects, hl, List.drop_left, hc]

/-- The kernel's sets have the connections that exist, each in the set of its loop and with the events
that its channel is to be watched for. -/
structure Polled (s : TcpServer) : Prop where
  fresh : ∀ (i : Nat) (x : Served), s.connections[i]? = some x → x.waiting = true → x.polled.index = .kNew
  channel : ∀ (i : Nat) (x : Served), s.connections[i]? = some x →
    x.polled.channel = x.dispatch.loop.conn.channel
  entered : ∀ (i : Nat) (x : Served), s.connections[i]? = some x → x.alive = true →
    Entered i (x.polled, s.pollers x.ioLoop)
  owned : ∀ (l fd i : Nat) (events : BitVec 32), (s.pollers l).epoll fd = some (i, events) →
    ∃ x, s.connections[i]? = some x ∧ x.alive = true ∧ x.ioLoop = l ∧ x.polled.fd = fd

theorem Polled.owned_other (h : Polled s) (hx : s.connections[i]? = some x) (y : Served) {l fd j : Nat}
    {events : BitVec 32} (he : (s.pollers l).epoll fd = some (j, events)) (hne : ¬ (l = x.ioLoop ∧ fd = x.polled.fd)) :
    ∃ z, (s.connections.set i y)[j]? = some z ∧ z.alive = true ∧ z.ioLoop = l ∧ z.polled.fd = fd := by
  obtain ⟨z, hz, hlive, hio, hfd⟩ := h.owned l fd j events he
  have hij : i ≠ j := by
    rintro rfl
    obtain rfl : x = z := Option.some.inj (hx.symm.trans hz)
    exact hne ⟨hio.symm, hfd.symm⟩
  exact ⟨z, (List.getElem?_set_ne hij).trans hz, hlive, hio, hfd⟩

theorem Polled.serve (h : Polled s) (hi : Inv s) (hx : s.connections[i]? = some x) (hlive : x.alive = true)
    (d : Dispatch) (w l : Bool) (n : Nat) (b : Bool) (es : List Effect) (hw : w = true → x.waiting = true ∧ es = [])
    (hd : d.loop.conn.channel = mutated es x.dispatch.loop.conn.channel) :
    Polled (s.serve i { x with dispatch := d, waiting := w, listed := l, removals := n, destroyed := b } es) := by
  have hr := follow_enters (h.entered i x hx hlive) es
  refine ⟨fun j y hy hwait => ?_, fun j y hy => ?_, fun j y hy hly => ?_, fun k fd j events he => ?_⟩
  · rcases getElem?_set_cases hy with ⟨rfl, rfl⟩ | ⟨-, hy⟩
    · obtain ⟨hxw, rfl⟩ := hw hwait
      exact h.fresh j x hx hxw
    · exact h.fresh j y hy hwait
  · rcases getElem?_set_cases hy with ⟨rfl, rfl⟩ | ⟨-, hy⟩
    · exact hr.channel.trans ((congrArg (mutated es) (h.channel j x hx)).trans hd.symm)
    · exact h.channel j y hy
  · rcases getElem?_set_cases hy with ⟨rfl, rfl⟩ | ⟨hne, hy⟩
    · simpa only [TcpServer.serve, Function.update_self] using hr.entered
    · have hold := h.entered j y hy hly
      by_cases hio : y.ioLoop = x.ioLoop
      · have hfd : y.polled.fd ≠ x.polled.fd := fun hfd => hne (hi.fds j i y x hy hx hly hlive hfd)
        refine hold.congr ?_
        simp only [TcpServer.serve, hio, Function.update_self]
        exact hr.others _ hfd
      · simpa only [TcpServer.serve, Function.update_of_ne hio] using hold
  · simp only [TcpServer.serve] at he ⊢
    by_cases hk : k = x.ioLoop
    · subst hk
      rw [Function.update_self] at he
      by_cases hfd : fd = x.polled.fd
      · subst hfd
        rw [← hr.fd] at he
        obtain rfl := hr.entered.ptr_eq he
        exact ⟨_, List.getElem?_set_self (List.getElem?_eq_some_iff.mp hx).1, hlive, rfl, hr.fd⟩
      · rw [hr.others fd hfd] at he
        exact h.owned_other hx _ he fun hb => hfd hb.2
    · rw [Function.update_of_ne hk] at he
      exact h.owned_other hx _ he fun hb => hk hb.1

theorem Polled.add (h : Polled s) (hfd : ∀ y ∈ s.connections, y.alive = true → y.polled.fd ≠ x.polled.fd)
    (es : List Effect) (hlive : x.alive = true) (hnew : x.polled.index = .kNew) (hnone : x.polled.channel.events = 0)
    (hw : x.waiting = true → es = []) (hd : x.dispatch.loop.conn.channel = mutated es x.polled.channel) :
    Polled (s.add x es) := by
  have hempty : (s.pollers x.ioLoop).epoll x.polled.fd = none := by
    by_contra hsome
    obtain ⟨⟨j, events⟩, he⟩ := Option.ne_none_iff_exists'.mp hsome
    obtain ⟨z, hz, hlz, -, hfd'⟩ := h.owned _ _ j events he
    exact hfd z (List.mem_of_getElem? hz) hlz hfd'
  have hstart : Entered s.connections.length (x.polled, s.pollers x.ioLoop) := by
    refine ⟨fun hi => ?_, fun _ => ⟨hempty, hnone⟩⟩
    cases hnew.symm.trans hi
  have hr := follow_enters hstart es
  refine ⟨fun j y hy hwait => ?_, fun j y hy => ?_, fun j y hy hly => ?_, fun k fd j events he => ?_⟩
  · rcases getElem?_concat_cases hy with ⟨rfl, rfl⟩ | hy
    · obtain rfl := hw hwait
      exact hnew
    · exact h.fresh j y hy hwait
  · rcases getElem?_concat_cases hy with ⟨rfl, rfl⟩ | hy
    · exact hr.channel.trans hd.symm
    · exact h.channel j y hy
  · rcases getElem?_concat_cases hy with ⟨rfl, rfl⟩ | hy
    · simpa only [TcpServer.add, Function.update_self] using hr.entered
    · have hold := h.entered j y hy hly
      by_cases hio : y.ioLoop = x.ioLoop
      · refine hold.congr ?_
        simp only [TcpServer.add, hio, Function.update_self]
        exact hr.others _ (hfd y (List.mem_of_getElem? hy) hly)
      · simpa only [TcpServer.add, Function.update_of_ne hio] using hold
  · have hold : (s.pollers k).epoll fd = some (j, events) → ∃ z, (s.add x es).connections[j]? = some z ∧
        z.alive = true ∧ z.ioLoop = k ∧ z.polled.fd = fd := by
      intro he
      obtain ⟨z, hz, hrest⟩ := h.owned k fd j events he
      exact ⟨z, List.getElem?_append_left (List.getElem?_eq_some_iff.mp hz).1 ▸ hz, hrest⟩
    by_cases hk : k = x.ioLoop
    · subst hk
      simp only [TcpServer.add, Function.update_self] at he
      by_cases hfd' : fd = x.polled.fd
      · subst hfd'
        rw [← hr.fd] at he
        obtain rfl := hr.entered.ptr_eq he
        exact ⟨_, List.getElem?_concat_length, hlive, rfl, hr.fd⟩
      · rw [hr.others fd hfd'] at he
        exact hold he
    · simp only [TcpServer.add, Function.update_of_ne hk] at he
      exact hold he

/-- When the last owner of a connection goes, its descriptor is closed, and the kernel forgets it. -/
theorem Polled.release (h : Polled s) (hi : Inv s) (hx : s.connections[i]? = some x) (hlive : x.alive = true) :
    Polled ⟨s.connections.set i { x with alive := false }, Function.update s.pollers x.ioLoop
      { s.pollers x.ioLoop with epoll := Function.update (s.pollers x.ioLoop).epoll x.polled.fd none }⟩ := by
  refine ⟨fun j y hy hwait => ?_, fun j y hy => ?_, fun j y hy hly => ?_, fun k fd j events he => ?_⟩
  · rcases getElem?_set_cases hy with ⟨rfl, rfl⟩ | ⟨-, hy⟩
    · exact h.fresh j x hx hwait
    · exact h.fresh j y hy hwait
  · rcases getElem?_set_cases hy with ⟨rfl, rfl⟩ | ⟨-, hy⟩
    · exact h.channel j x hx
    · exact h.channel j y hy
  · rcases getElem?_set_cases hy with ⟨rfl, rfl⟩ | ⟨hne, hy⟩
    · cases hly
    · have hold := h.entered j y hy hly
      by_cases hio : y.ioLoop = x.ioLoop
      · have hfd : y.polled.fd ≠ x.polled.fd := fun hfd => hne (hi.fds j i y x hy hx hly hlive hfd)
        refine hold.congr ?_
        simp only [hio, Function.update_self]
        exact Function.update_of_ne hfd _ _
      · simpa only [Function.update_of_ne hio] using hold
  · dsimp only at he ⊢
    by_cases hk : k = x.ioLoop
    · subst hk
      rw [Function.update_self] at he
      by_cases hfd : fd = x.polled.fd
      · subst hfd
        simp only [Function.update_self, reduceCtorEq] at he
      · dsimp only at he
        rw [Function.update_of_ne hfd] at he
        exact h.owned_other hx _ he fun hb => hfd hb.2
    · rw [Function.update_of_ne hk] at he
      exact h.owned_other hx _ he fun hb => hk hb.1

theorem polled_newConnection {fd ioLoop : Nat} {o : Options} (h : Polled s)
    (hfd : ∀ x ∈ s.connections, x.alive = true → x.polled.fd ≠ fd) (hs : s.newConnection fd ioLoop o = some u) :
    Polled u := by
  rw [newConnection] at hs
  split at hs
  next =>
    obtain ⟨d, hd, rfl⟩ := Option.map_eq_some_iff.mp hs
    exact h.add hfd _ rfl rfl rfl (by simp) (channel_effects hd)
  next =>
    cases hs
    exact h.add hfd [] rfl rfl rfl (fun _ => rfl) rfl

def ReleasedOnce : Act → TcpServer → Prop
  | .release i, s => ∀ x ∈ s.connections[i]?, x.alive = true
  | _, _ => True

instance : (a : Act) → (s : TcpServer) → Decidable (ReleasedOnce a s)
  | .release _, _ => inferInstanceAs (Decidable (∀ _, _))
  | .newConnection .., _ | .connectEstablished _, _ | .connection .., _ | .removeConnectionInLoop _, _
  | .destroy _, _ => .isTrue trivial

theorem polled_step {a : Act} (h : Polled s) (hi : Inv s) (ha : ReleasedOnce a s) (hs : step a s = some u) :
    Polled u := by
  cases a with
  | newConnection fd ioLoop o =>
      obtain ⟨hfd, hs⟩ := Option.ite_none_right_eq_some.mp hs
      exact polled_newConnection h hfd hs
  | connectEstablished i =>
      obtain ⟨x, hx, hs⟩ := Option.bind_eq_some_iff.mp hs
      obtain ⟨hw, hs⟩ := Option.ite_none_right_eq_some.mp hs
      obtain ⟨d, hd, rfl⟩ := Option.map_eq_some_iff.mp hs
      exact h.serve hi hx hw.2 d false x.listed x.removals x.destroyed _ nofun (channel_effects hd)
  | connection i a =>
      obtain ⟨x, hx, hs⟩ := Option.bind_eq_some_iff.mp hs
      obtain ⟨hw, hs⟩ := Option.ite_none_right_eq_some.mp hs
      obtain ⟨d, hd, rfl⟩ := Option.map_eq_some_iff.mp hs
      exact h.serve hi hx hw.2.1 d x.waiting x.listed _ _ _
        (fun ht => absurd ht (by rw [hw.1]; nofun)) (channel_effects hd)
  | removeConnectionInLoop i =>
      obtain ⟨x, hx, hs⟩ := Option.bind_eq_some_iff.mp hs
      obtain ⟨hw, hs⟩ := Option.ite_none_right_eq_some.mp hs
      obtain ⟨d, hd, rfl⟩ := Option.map_eq_some_iff.mp hs
      cases hd
      exact h.serve hi hx hw.2 _ x.waiting false _ x.destroyed [] (fun ht => ⟨ht, rfl⟩) rfl
  | destroy i =>
      obtain ⟨x, hx, hs⟩ := Option.bind_eq_some_iff.mp hs
      obtain ⟨hw, hs⟩ := Option.ite_none_right_eq_some.mp hs
      split at hs
      next hio =>
        obtain ⟨d, hd, rfl⟩ := Option.map_eq_some_iff.mp hs
        exact h.serve hi hx hw.2 d x.waiting false x.removals true _
          (fun ht => absurd ht (by rw [hi.base i x hx hio]; nofun)) (channel_effects hd)
      next =>
        obtain ⟨d, hd, rfl⟩ := Option.map_eq_some_iff.mp hs
        cases hd
        exact h.serve hi hx hw.2 _ x.waiting false x.removals x.destroyed [] (fun ht => ⟨ht, rfl⟩) rfl
  | release i =>
      obtain ⟨x, hx, hs⟩ := Option.bind_eq_some_iff.mp hs
      obtain ⟨hw, he⟩ := Option.ite_none_right_eq_some.mp hs
      cases he
      exact h.release hi hx (ha x hx)

theorem reachable_polled (h : Reachable start step ReleasedOnce s) : Polled s := by
  have hboth := h.invariant (I := fun s => Polled s ∧ Inv s) ?_ ?_
  · exact hboth.1
  · rintro s ⟨hs, hp⟩
    refine ⟨⟨?_, ?_, ?_, ?_⟩, reachable_inv (.start ⟨hs, hp⟩)⟩
    · simp [hs]
    · simp [hs]
    · simp [hs]
    · simp [hp]
  · rintro a s t ⟨h, hi⟩ ha hs
    exact ⟨polled_step h hi ha hs, step_inv hi hs⟩

/-- What the kernel can report belongs to a connection that exists and is established, in the loop that asks,
and a connection that exists is there with the events that it wants, also where a descriptor is used again;
or it is not there, and wants none. -/
theorem kernel_set_exact (s : TcpServer) (h : Reachable start step ReleasedOnce s) :
    (∀ l fd i events, (s.pollers l).epoll fd = some (i, events) →
        ∃ x, s.connections[i]? = some x ∧ x.alive = true ∧ x.waiting = false ∧ x.ioLoop = l ∧ x.polled.fd = fd) ∧
      ∀ (i : Nat) (x : Served), s.connections[i]? = some x → x.alive = true →
        ((s.pollers x.ioLoop).epoll x.polled.fd =
          if x.polled.index = .kAdded then some (i, x.dispatch.loop.conn.channel.events) else none) ∧
        (x.polled.index ≠ .kAdded → x.dispatch.loop.conn.channel.events = 0) := by
  have hp := reachable_polled h
  constructor
  · intro l fd i events he
    obtain ⟨x, hx, hlive, rfl, rfl⟩ := hp.owned l fd i events he
    refine ⟨x, hx, hlive, ?_, rfl, rfl⟩
    cases hw : x.waiting with
    | false => rfl
    | true =>
        have hnone := ((hp.entered i x hx hlive).absent (by simp [hp.fresh i x hx hw])).1
        cases hnone.symm.trans he
  · intro i x hx hlive
    have hentered := hp.entered i x hx hlive
    rw [← hp.channel i x hx]
    refine ⟨?_, fun hi => (hentered.absent hi).2⟩
    split
    next hi => exact hentered.added hi
    next hi => exact (hentered.absent hi).1

def reuse : List Act := visit ++ [.release 0, .newConnection 7 1 ⟨64, false, true, fun _ => 0⟩, .connectEstablished 1]

theorem kernel_set_exact_reuse :
    ∃ s, Reachable start step ReleasedOnce s ∧ (s.pollers 1).epoll 7 = some (1, Channel.kReadEvent) ∧
      ∃ x, s.connections[1]? = some x ∧ x.alive = true ∧ x.waiting = false ∧ x.ioLoop = 1 ∧ x.polled.fd = 7 := by
  have hrun : (run (guarded step ReleasedOnce) reuse empty).map (fun s => (s.pollers 1).epoll 7) =
      some (some (1, Channel.kReadEvent)) := by decide +kernel
  obtain ⟨s, hr, he⟩ := reachable_of_run start hrun ⟨rfl, fun _ => rfl⟩
  exact ⟨s, hr, he, (kernel_set_exact s hr).1 1 7 1 _ he⟩

end TcpServer

end LearnNote.Muduo
