import LearnNote.Lib.Transition
import LearnNote.Muduo.Disconnect
import LearnNote.Muduo.EPollPoller
import LearnNote.Muduo.StateOrder

namespace LearnNote.Muduo

open Lib.History Lib.Transition

inductive Handler
  | close
  | error
  | read
  | write
deriving DecidableEq

/-- A connection and the event that its channel is handling: the mask, and the
handlers still to come. -/
structure Dispatch where
  loop : ConnectionLoop
  revents : BitVec 32
  handlers : List Handler

namespace Dispatch

def index (c : TcpConnection) : Index :=
  (EPollPoller.follow 0 c.log (⟨0, ⟨Channel.kNoneEvent⟩, .kNew⟩, ⟨fun _ => none, fun _ => none⟩)).1.index

inductive Act
  | poll (revents : BitVec 32)
  | handle (received : Except Errno (List UInt8)) (sent : Except Errno Nat)
  | queueDestroted
  | other (a : ConnectionLoop.Act)

/-- handleError only logs. -/
def handle (received : Except Errno (List UInt8)) (sent : Except Errno Nat) (s : Dispatch) :
    Handler → Option TcpConnection
  | .close =>
      if s.revents &&& EPOLLHUP ≠ 0 ∧ s.revents &&& EPOLLIN = 0 then s.loop.loopStep .handleClose
      else some s.loop.conn
  | .error => some s.loop.conn
  | .read =>
      if s.revents &&& (EPOLLIN ||| EPOLLPRI) ≠ 0 then s.loop.loopStep (.handleRead received) else some s.loop.conn
  | .write => if s.revents &&& EPOLLOUT ≠ 0 then s.loop.loopStep (.handleWrite sent) else some s.loop.conn

/-- The handlers are called for an event, and the functors run when it is handled. -/
def Free (s : Dispatch) : ConnectionLoop.Act → Prop
  | .loop (.handleRead _) | .loop (.handleWrite _) | .loop .handleClose => False
  | .loop (.runPending _) => s.handlers = []
  | _ => True

instance (s : Dispatch) : DecidablePred s.Free
  | .loop (.handleRead _) | .loop (.handleWrite _) | .loop .handleClose => inferInstanceAs (Decidable False)
  | .loop (.runPending _) => inferInstanceAs (Decidable (s.handlers = []))
  | .loop .connectEstablished | .loop .connectDestroted | .loop (.send _ _) | .loop (.sendFile _ _ _ _) |
    .loop .shutdown | .send _ _ _ | .sendFile _ _ _ _ | .shutdown _ | .advance _ | .poke _ _ =>
      inferInstanceAs (Decidable True)

/-- An event is delivered to a channel that the poller has added. The server queues
connectDestroted when it removes the connection, and runs or queues it in its
destructor. -/
def step : Act → Dispatch → Option Dispatch
  | .poll revents, s =>
      if s.handlers = [] ∧ index s.loop.conn = .kAdded then some ⟨s.loop, revents, [.close, .error, .read, .write]⟩
      else none
  | .handle received sent, s =>
      match s.handlers with
      | [] => none
      | h :: hs => (s.handle received sent h).map (fun c => ⟨{ s.loop with conn := c }, s.revents, hs⟩)
  | .queueDestroted, s => some { s with loop := { s.loop with conn := s.loop.conn.queueInLoop .connectDestroted } }
  | .other a, s => if s.Free a then (ConnectionLoop.step a s.loop).map (fun l => { s with loop := l }) else none

def start (s : Dispatch) : Prop := ConnectionLoop.start s.loop ∧ s.handlers = []

end Dispatch

/-- What the user and the server are told. -/
inductive Notice
  | up
  | down
  | closed
deriving DecidableEq

/-- The connection callback is told of the state that the connection is in. -/
def Effect.tell (s : StateE × List Notice) : Effect → StateE × List Notice
  | .setState state => (state, s.2)
  | .connectionCallback => (s.1, s.2 ++ [if s.1 = .kConnected then .up else .down])
  | .closeCallback => (s.1, s.2 ++ [.closed])
  | _ => s

/-- The state a connection was last set to, and what has been told so far. -/
def told (log : List Effect) : StateE × List Notice := log.foldl Effect.tell (.kConnecting, [])

def Effect.Silent : Effect → Prop
  | .setState _ | .connectionCallback | .closeCallback => False
  | _ => True

namespace Dispatch

open ConnectionLoop

def Hushed (c t : TcpConnection) : Prop := t.state = c.state ∧ Extends Effect.Silent c.log t.log

variable {c d t : TcpConnection}

theorem told_concat (log : List Effect) (e : Effect) : told (log ++ [e]) = e.tell (told log) := by
  simp [told]

theorem told_extends {log log' : List Effect} (h : Extends Effect.Silent log log') : told log' = told log := by
  obtain ⟨es, rfl, hes⟩ := h
  induction es generalizing log with
  | nil => rw [List.append_nil]
  | cons e es ih =>
      have he := hes e List.mem_cons_self
      rw [List.append_cons, ih (fun x hx => hes x (List.mem_cons_of_mem e hx)), told_concat]
      cases e <;> first | rfl | cases he

theorem Hushed.refl (c : TcpConnection) : Hushed c c := ⟨rfl, .refl _⟩

theorem Hushed.of_grows (h : Grows c t) : Hushed c t := by
  refine ⟨h.state, h.log.mono (fun e ho => ?_)⟩
  cases e <;> trivial

theorem Hushed.concat {e : Effect} (hs : t.state = c.state) (hl : t.log = c.log ++ [e]) (he : e.Silent) :
    Hushed c t :=
  ⟨hs, hl ▸ .concat he _⟩

theorem hushed_sendFileInLoop (fileDescriptor : Nat) (offset : Int) (count : Nat) (answer : Except Errno Nat)
    (c : TcpConnection) :
    Hushed c (c.sendFileInLoop fileDescriptor offset count answer) := by
  have hs := Grows.state_sendFileInLoop fileDescriptor offset count answer c
  rcases Grows.log_sendFileInLoop fileDescriptor offset count answer c with hl | hl
  · exact ⟨hs, hl ▸ .refl _⟩
  · exact .concat hs hl trivial

/-- How far a connection is: not established, told to the user, disconnected. -/
structure Heard (c : TcpConnection) : Prop where
  state : (told c.log).1 = c.state
  connecting : c.state = .kConnecting → ¬ Disconnected c ∧ (told c.log).2 = []
  up : c.state ≠ .kConnecting → ¬ Disconnected c → (told c.log).2 = [.up]
  down : Disconnected c → c.state ≠ .kConnected ∧
    ((told c.log).2 = [.up, .down] ∨ (told c.log).2 = [.up, .down, .closed])

def Once (log : List Effect) : Prop := (told log).2 <+: [.up, .down, .closed]

namespace Heard

theorem once (h : Heard c) : Once c.log := by
  rw [Once]
  by_cases hd : Disconnected c
  · rcases (h.down hd).2 with hn | hn
    · rw [hn]
      exact ⟨[.closed], rfl⟩
    · rw [hn]
  · by_cases hs : c.state = .kConnecting
    · rw [(h.connecting hs).2]
      exact List.nil_prefix
    · rw [h.up hs hd]
      exact ⟨[.down, .closed], rfl⟩

theorem nil_iff (h : Heard c) : (told c.log).2 = [] ↔ c.state = .kConnecting := by
  refine ⟨fun hn => ?_, fun hs => (h.connecting hs).2⟩
  by_contra hs
  by_cases hd : Disconnected c
  · rcases (h.down hd).2 with hn' | hn' <;> rw [hn] at hn' <;> cases hn'
  · rw [h.up hs hd] at hn
    cases hn

theorem hushed (h : Heard c) (hh : Hushed c t) : Heard t := by
  obtain ⟨hs, hl⟩ := hh
  have ht := told_extends hl
  have hd : Disconnected t ↔ Disconnected c := by
    refine ⟨fun hd => by_contra (fun hc => hl.notMem (x := .setState .kDisconnected) nofun hc hd), fun hd => ?_⟩
    obtain ⟨es, hes, -⟩ := hl
    rw [Disconnected, hes]
    exact List.mem_append_left _ hd
  exact ⟨by rw [ht, hs, h.state], by rw [hs, hd, ht]; exact h.connecting, by rw [hs, hd, ht]; exact h.up,
    by rw [hs, hd, ht]; exact h.down⟩

theorem connectEstablished (h : Heard c) (hs : c.state = .kConnecting) : Heard c.connectEstablished := by
  obtain ⟨hd, hn⟩ := h.connecting hs
  have ht : told c.connectEstablished.log = (.kConnected, [.up]) := by
    simp only [TcpConnection.connectEstablished, TcpConnection.setState, TcpConnection.enableReading,
      TcpConnection.emit, told_concat, Effect.tell, hn]
    rfl
  have hd' : ¬ Disconnected c.connectEstablished := (goesOn_connectEstablished c).connected hd
  exact ⟨by rw [ht]; rfl, fun he => absurd he (by simp [TcpConnection.connectEstablished]), fun _ _ => by rw [ht],
    fun hd => absurd hd hd'⟩

theorem disconnect (h : Heard c) (hs : c.state ≠ .kConnecting) (hd : ¬ Disconnected c) :
    Heard ((c.setState .kDisconnected).disableAll.emit .connectionCallback) := by
  have ht : told ((c.setState .kDisconnected).disableAll.emit .connectionCallback).log =
      (.kDisconnected, [.up, .down]) := by
    simp only [TcpConnection.setState, TcpConnection.disableAll, TcpConnection.emit, told_concat, Effect.tell,
      h.up hs hd]
    rfl
  refine ⟨by rw [ht]; rfl, fun he => absurd he (by simp), fun _ hd' => absurd ?_ hd',
    fun _ => ⟨by simp, .inl (by rw [ht])⟩⟩
  simp [Disconnected, TcpConnection.setState, TcpConnection.disableAll, TcpConnection.emit]

theorem connectDestroted (h : Heard c) : Heard c.connectDestroted := by
  rw [TcpConnection.connectDestroted]
  split
  next hs =>
    refine h.disconnect (by simp [hs]) (fun hd => (h.down hd).1 hs)
  next => exact h

theorem told_handleClose (c : TcpConnection) :
    told c.handleClose.log = (.kDisconnected, (told c.log).2 ++ [.down, .closed]) := by
  simp only [TcpConnection.handleClose, TcpConnection.setState, TcpConnection.disableAll, TcpConnection.emit,
    told_concat, Effect.tell]
  rw [List.append_assoc]
  rfl

theorem handleClose (h : Heard c) (hs : c.state ≠ .kConnecting) :
    (¬ Disconnected c → Heard c.handleClose) ∧ (Once c.handleClose.log → ¬ Disconnected c) := by
  have ht := told_handleClose c
  refine ⟨fun hd => ?_, fun ho hd => ?_⟩
  · rw [h.up hs hd] at ht
    refine ⟨by rw [ht]; rfl, nofun, fun _ hd' => absurd ?_ hd', fun _ => ⟨nofun, .inr (by rw [ht]; rfl)⟩⟩
    simp [Disconnected, TcpConnection.handleClose, TcpConnection.setState, TcpConnection.disableAll,
      TcpConnection.emit]
  · have hlen := ho.length_le
    rw [ht] at hlen
    rcases (h.down hd).2 with hn | hn
    · rw [hn] at hlen
      exact absurd hlen (by decide)
    · rw [hn] at hlen
      exact absurd hlen (by decide)

theorem disconnecting (h : Heard c) (hs : c.state ≠ .kConnecting) : Heard (c.setState .kDisconnecting) := by
  have ht : told (c.setState .kDisconnecting).log = (.kDisconnecting, (told c.log).2) := told_concat _ _
  have hd : Disconnected (c.setState .kDisconnecting) ↔ Disconnected c := by
    simp [Disconnected, TcpConnection.setState, TcpConnection.emit]
  exact ⟨by rw [ht]; rfl, fun he => absurd he (by simp), fun _ hc => by rw [ht]; exact h.up hs (fun h => hc (hd.mpr h)),
    fun hc => ⟨by simp, by rw [ht]; exact (h.down (hd.mp hc)).2⟩⟩

theorem shutdown (h : Heard c) : Heard c.shutdown := by
  rw [TcpConnection.shutdown]
  split
  next hs => exact (h.disconnecting (by simp [hs])).hushed (.of_grows (.shutdownInLoop (.refl _)))
  next => exact h

end Heard

variable {s u : Dispatch} {l l' : ConnectionLoop} {received : Except Errno (List UInt8)} {sent answer : Except Errno Nat}

/-- The handler that comes next closes the connection: the peer has hung up and
nothing is to be read, or the end of the stream is read. -/
def Closing (received : Except Errno (List UInt8)) (s : Dispatch) : Handler → Prop
  | .close => s.revents &&& EPOLLHUP ≠ 0 ∧ s.revents &&& EPOLLIN = 0
  | .read => s.revents &&& (EPOLLIN ||| EPOLLPRI) ≠ 0 ∧ received = .ok []
  | _ => False

/-- A handler that closes the connection does not find it disconnected already. -/
def FirstClose : Act → Dispatch → Prop
  | .handle received _, s => ∀ h ∈ s.handlers.head?, Closing received s h → ¬ Disconnected s.loop.conn
  | _, _ => True

instance (received : Except Errno (List UInt8)) (s : Dispatch) : DecidablePred (Closing received s) := by
  intro h
  unfold Closing
  split <;> infer_instance

instance (a : Act) (s : Dispatch) : Decidable (FirstClose a s) := by
  unfold FirstClose Disconnected
  split <;> infer_instance

theorem heard_runs {memory : Nat → UInt8} (h : Heard c) {f : Functor} (hr : Runs memory answer c f t) : Heard t := by
  cases hr with
  | sendInLoop data len t hle hs => exact h.hushed (.of_grows (.sendInLoop hs))
  | sendFileInLoop => exact h.hushed (hushed_sendFileInLoop ..)
  | shutdownInLoop => exact h.hushed (.of_grows (.shutdownInLoop (.refl c)))
  | connectDestroted => exact h.connectDestroted
  | writeCompleteCallback => exact h
  | highWaterMarkCallback => exact h

theorem heard_loopMoves {a : LoopAct} (h : Heard l.conn) (hf : s.Free (.loop a)) (hm : LoopMoves l a t) : Heard t := by
  cases hm with
  | connectEstablished hstate => exact h.connectEstablished hstate
  | connectDestroted => exact h.connectDestroted
  | handleRead | handleWrite | handleClose => cases hf
  | send data answer t hstate hle hs => exact h.hushed (.of_grows (.sendInLoop hs))
  | sendFile => exact h.hushed (hushed_sendFileInLoop ..)
  | sendOff => exact h
  | sendFileOff => exact h
  | shutdown => exact h.shutdown
  | runPending answer f fs t hq hr =>
      have hfs : Heard { l.conn with pendingFunctors := fs } := h.hushed ⟨rfl, .refl _⟩
      exact heard_runs hfs hr

/-- A thread that is in a call has found the connection established. -/
structure Told (l : ConnectionLoop) : Prop where
  heard : Heard l.conn
  called : ∀ n, l.callers n ≠ .idle → l.conn.state ≠ .kConnecting

theorem connecting_of_rank (h : l.conn.state.rank ≤ t.state.rank) (hs : t.state = .kConnecting) :
    l.conn.state = .kConnecting := by
  rw [hs] at h
  cases hc : l.conn.state with
  | kConnecting => rfl
  | kConnected | kDisconnecting | kDisconnected =>
      rw [hc] at h
      exact absurd h (by decide)

theorem Told.conn (h : Told l) (hc : Heard c) (hrank : l.conn.state.rank ≤ c.state.rank) :
    Told { l with conn := c } :=
  ⟨hc, fun n hn hs => h.called n hn (connecting_of_rank hrank hs)⟩

theorem told_call {n : Nat} {next : Caller} (h : Told l) (hs : l.call n next = some l') : Told l' := by
  rw [call] at hs
  split at hs
  · cases hs
    split
    next hstate =>
      refine ⟨h.heard, fun k _ => ?_⟩
      simp [hstate]
    next => exact h
  · cases hs

theorem told_advances {n : Nat} (h : Told l) (hm : Advances n l l') : Told l' := by
  have hcalled : ∀ {next : Caller}, l.callers n = next → next ≠ .idle → l.conn.state ≠ .kConnecting := by
    rintro _ rfl hne
    exact h.called n hne
  have hrest : ∀ {c : TcpConnection} {next : Caller}, Heard c → c.state ≠ .kConnecting →
      Told ⟨c, l.memory, Function.update l.callers n next⟩ := fun hc hs => ⟨hc, fun _ _ => hs⟩
  cases hm with
  | queueSend data len hn => exact hrest (h.heard.hushed ⟨rfl, .refl _⟩) (hcalled hn (by simp))
  | queueSendFile fileDescriptor offset count hn =>
      exact hrest (h.heard.hushed ⟨rfl, .refl _⟩) (hcalled hn (by simp))
  | storeState hn => exact hrest (h.heard.disconnecting (hcalled hn (by simp))) (by simp)
  | queueShutdown hn => exact hrest (h.heard.hushed ⟨rfl, .refl _⟩) (hcalled hn (by simp))

theorem told_other {a : ConnectionLoop.Act} (h : Told l) (hf : s.Free a) (hs : ConnectionLoop.step a l = some l') :
    Told l' := by
  cases a with
  | send n data len => exact told_call h hs
  | sendFile n fileDescriptor offset count => exact told_call h hs
  | shutdown n => exact told_call h hs
  | advance n => exact told_advances h (advances_of_advance hs)
  | poke x v =>
      cases hs
      exact ⟨h.heard, h.called⟩
  | loop a =>
      obtain ⟨c, hc, rfl⟩ := Option.map_eq_some_iff.mp hs
      exact h.conn (heard_loopMoves h.heard hf (moves_of_loopStep hc)) (rank_loopMoves (moves_of_loopStep hc))

theorem heard_handleClose (h : Heard l.conn) (hm : LoopMoves l .handleClose t) :
    (¬ Disconnected l.conn → Heard t) ∧ (Once t.log → ¬ Disconnected l.conn) := by
  cases hm with
  | handleClose hstate => exact h.handleClose hstate

theorem heard_handleRead (h : Heard l.conn) (hm : LoopMoves l (.handleRead received) t) :
    ((received = .ok [] → ¬ Disconnected l.conn) → Heard t) ∧
      (Once t.log → received = .ok [] → ¬ Disconnected l.conn) := by
  cases hm with
  | handleRead _ _ hstate hs =>
      obtain ⟨⟨n, b⟩, hr, rfl⟩ := Option.map_eq_some_iff.mp hs
      have hb : Heard { l.conn with inputBuffer := b } := h.hushed ⟨rfl, .refl _⟩
      have hn : n = received.map List.length := Buffer.readFd_result hr
      simp only
      split
      next errno =>
        refine ⟨fun _ => hb, fun _ he => ?_⟩
        rw [he] at hn
        cases hn
      next =>
        obtain ⟨hclose, honce⟩ := hb.handleClose hstate
        have hnil : received = .ok [] := by
          cases received with
          | error errno => cases hn
          | ok data =>
              have hlen : 0 = data.length := Except.ok.inj hn
              rw [List.eq_nil_of_length_eq_zero hlen.symm]
        exact ⟨fun hd => hclose (hd hnil), fun ho _ => honce ho⟩
      next hne =>
        refine ⟨fun _ => hb.hushed (.concat rfl rfl trivial), fun _ he => ?_⟩
        rw [he] at hn
        exact absurd (Except.ok.inj hn) hne

theorem heard_handleWrite (h : Heard l.conn) (hm : LoopMoves l (.handleWrite sent) t) : Heard t := by
  cases hm with
  | handleWrite => exact h.hushed (.of_grows (.handleWrite sent _))

theorem told_handle {x : Handler} (h : Told s.loop) (hs : s.handle received sent x = some c) :
    ((Closing received s x → ¬ Disconnected s.loop.conn) → Told { s.loop with conn := c }) ∧
      (Once c.log → Closing received s x → ¬ Disconnected s.loop.conn) := by
  cases x with
  | close =>
      simp only [handle] at hs
      split at hs
      next hc =>
        have hm := moves_of_loopStep hs
        obtain ⟨hheard, honce⟩ := heard_handleClose h.heard hm
        exact ⟨fun hd => h.conn (hheard (hd hc)) (rank_loopMoves hm), fun ho _ => honce ho⟩
      next hc =>
        cases hs
        exact ⟨fun _ => h, fun _ hclosing => absurd hclosing hc⟩
  | error =>
      cases hs
      exact ⟨fun _ => h, fun _ => nofun⟩
  | read =>
      simp only [handle] at hs
      split at hs
      next hc =>
        have hm := moves_of_loopStep hs
        obtain ⟨hheard, honce⟩ := heard_handleRead h.heard hm
        exact ⟨fun hd => h.conn (hheard (fun he => hd ⟨hc, he⟩)) (rank_loopMoves hm),
          fun ho hclosing => honce ho hclosing.2⟩
      next hc =>
        cases hs
        exact ⟨fun _ => h, fun _ hclosing => absurd hclosing.1 hc⟩
  | write =>
      refine ⟨fun _ => ?_, fun _ => nofun⟩
      simp only [handle] at hs
      split at hs
      next =>
        have hm := moves_of_loopStep hs
        exact h.conn (heard_handleWrite h.heard hm) (rank_loopMoves hm)
      next =>
        cases hs
        exact h

theorem step_told {a : Act} (h : Told s.loop) (hs : step a s = some u) :
    (FirstClose a s → Told u.loop) ∧ (Once u.loop.conn.log → FirstClose a s) := by
  cases a with
  | poll revents =>
      simp only [step] at hs
      split at hs
      · cases hs
        exact ⟨fun _ => h, fun _ => trivial⟩
      · cases hs
  | handle received sent =>
      simp only [step] at hs
      split at hs
      next => cases hs
      next x xs hx =>
        obtain ⟨c, hc, rfl⟩ := Option.map_eq_some_iff.mp hs
        have hfirst : FirstClose (.handle received sent) s ↔ (Closing received s x → ¬ Disconnected s.loop.conn) := by
          simp [FirstClose, hx]
        rw [hfirst]
        exact told_handle h hc
  | queueDestroted =>
      cases hs
      exact ⟨fun _ => ⟨h.heard.hushed ⟨rfl, .refl _⟩, h.called⟩, fun _ => trivial⟩
  | other a =>
      simp only [step] at hs
      split at hs
      next hf =>
        obtain ⟨l, hl, rfl⟩ := Option.map_eq_some_iff.mp hs
        exact ⟨fun _ => told_other h hf hl, fun _ => trivial⟩
      next => cases hs

theorem start_told (h : start s) : Told s.loop := by
  obtain ⟨⟨mark, high, complete, memory, hl⟩, -⟩ := h
  rw [hl]
  refine ⟨⟨rfl, fun _ => ⟨List.not_mem_nil, rfl⟩, fun hs => absurd rfl hs, fun hd => absurd hd List.not_mem_nil⟩,
    fun n hn => absurd rfl hn⟩

/-- The user is told once that the connection is up, and at most once that it is
down; the server at most once that it is closed. A step keeps this exactly when
its handler does not close the connection again. -/
theorem one_disconnect (s : Dispatch) (h : Reachable start step FirstClose s) :
    Once s.loop.conn.log ∧ ((told s.loop.conn.log).2 = [] ↔ s.loop.conn.state = .kConnecting) ∧
      ∀ a u, step a s = some u → (FirstClose a s ↔ Once u.loop.conn.log) := by
  have hi : Told s.loop := h.invariant (I := fun s => Told s.loop) (fun _ => start_told)
    (fun _ _ _ hi hc hs => (step_told hi hs).1 hc)
  exact ⟨hi.heard.once, hi.heard.nil_iff,
    fun a u hs => ⟨fun hc => ((step_told hi hs).1 hc).heard.once, (step_told hi hs).2⟩⟩

def fresh : Dispatch := ⟨blank, 0, []⟩

def readToEnd : List Act :=
  [.other (.loop .connectEstablished), .poll EPOLLIN, .handle (.ok []) (.ok 0), .handle (.ok []) (.ok 0),
    .handle (.ok []) (.ok 0), .handle (.ok []) (.ok 0), .queueDestroted, .other (.loop (.runPending (.ok 0)))]

theorem one_disconnect_readToEnd :
    ∃ s, Reachable start step FirstClose s ∧ (told s.loop.conn.log).2 = [.up, .down, .closed] ∧
      Once s.loop.conn.log := by
  have hrun : (run (guarded step FirstClose) readToEnd fresh).map (fun s => (told s.loop.conn.log).2) =
      some [.up, .down, .closed] := by decide +kernel
  obtain ⟨s, hr, hn⟩ := reachable_of_run start hrun ⟨⟨64, false, true, _, rfl⟩, rfl⟩
  exact ⟨s, hr, hn, (one_disconnect s hr).1⟩

/-- The peer has hung up with urgent data announced, and the read that follows the
close in the same event finds the end of the stream. -/
theorem closed_twice : ¬ ∀ s, Reachable start step always s → Once s.loop.conn.log := by
  intro h
  have hrun : (run (guarded step always) [.other (.loop .connectEstablished), .poll (EPOLLHUP ||| EPOLLPRI),
      .handle (.ok []) (.ok 0), .handle (.ok []) (.ok 0), .handle (.ok []) (.ok 0)] fresh).map
      (fun s => (told s.loop.conn.log).2) = some [.up, .down, .closed, .down, .closed] := by decide +kernel
  obtain ⟨s, hr, hn⟩ := reachable_of_run start hrun ⟨⟨64, false, true, _, rfl⟩, rfl⟩
  have ho := (h s hr).length_le
  rw [hn] at ho
  revert ho
  decide

end Dispatch

end LearnNote.Muduo
