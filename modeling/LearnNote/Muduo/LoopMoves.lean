import LearnNote.Muduo.ConnectionLoop

namespace LearnNote.Muduo

namespace ConnectionLoop

inductive Runs (memory : Nat → UInt8) (answer : Except Errno Nat) (c : TcpConnection) : Functor → TcpConnection → Prop
  | sendInLoop (data len t) (hle : written answer ≤ len) 
      (hs : c.sendInLoop (bytes memory data len) answer = some t) : Runs memory answer c (.sendInLoop data len) t
  | sendFileInLoop (fileDescriptor offset count) (hle : Sends offset count answer) :
      Runs memory answer c (.sendFileInLoop fileDescriptor offset count)
        (c.sendFileInLoop fileDescriptor offset count answer)
  | shutdownInLoop : Runs memory answer c .shutdownInLoop c.shutdownInLoop
  | connectDestroted : Runs memory answer c .connectDestroted c.connectDestroted
  | writeCompleteCallback : Runs memory answer c .writeCompleteCallback c
  | highWaterMarkCallback (len) : Runs memory answer c (.highWaterMarkCallback len) c

/-- The steps of the loop thread as a relation, with what each has found and what it
leaves of the connection. -/
inductive LoopMoves (s : ConnectionLoop) : LoopAct → TcpConnection → Prop
  | connectEstablished (hstate : s.conn.state = .kConnecting) :
      LoopMoves s .connectEstablished s.conn.connectEstablished
  | connectDestroted : LoopMoves s .connectDestroted s.conn.connectDestroted
  | handleRead (answer t) (hstate : s.conn.state ≠ .kConnecting) (hs : s.conn.handleRead answer = some t) :
      LoopMoves s (.handleRead answer) t
  | handleWrite (answer) (hstate : s.conn.state ≠ .kConnecting)
      (hle : written answer ≤ s.conn.outputBuffer.readableBytes) :
      LoopMoves s (.handleWrite answer) (s.conn.handleWrite answer)
  | handleClose (hstate : s.conn.state ≠ .kConnecting) : LoopMoves s .handleClose s.conn.handleClose
  | send (data answer t) (hstate : s.conn.state = .kConnected) (hle : written answer ≤ data.bytes.length)
      (hs : s.conn.sendInLoop data.bytes answer = some t) : LoopMoves s (.send data answer) t
  | sendOff (data answer) (hstate : s.conn.state ≠ .kConnected) : LoopMoves s (.send data answer) s.conn
  | sendFile (fileDescriptor offset count answer) (hstate : s.conn.state = .kConnected)
      (hle : Sends offset count answer) :
      LoopMoves s (.sendFile fileDescriptor offset count answer)
        (s.conn.sendFileInLoop fileDescriptor offset count answer)
  | sendFileOff (fileDescriptor offset count answer) (hstate : s.conn.state ≠ .kConnected) :
      LoopMoves s (.sendFile fileDescriptor offset count answer) s.conn
  | shutdown : LoopMoves s .shutdown s.conn.shutdown
  | runPending (answer f fs t) (hf : s.conn.pendingFunctors = f :: fs)
      (hr : Runs s.memory answer { s.conn with pendingFunctors := fs } f t) : LoopMoves s (.runPending answer) t

inductive Advances (n : Nat) (s : ConnectionLoop) : ConnectionLoop → Prop
  | queueSend (data len) (hn : s.callers n = .queueSend data len) :
      Advances n s ⟨s.conn.queueInLoop (.sendInLoop data len), s.memory, Function.update s.callers n .idle⟩
  | queueSendFile (fileDescriptor offset count) (hn : s.callers n = .queueSendFile fileDescriptor offset count) :
      Advances n s ⟨s.conn.queueInLoop (.sendFileInLoop fileDescriptor offset count), s.memory,
        Function.update s.callers n .idle⟩
  | storeState (hn : s.callers n = .storeState) :
      Advances n s ⟨s.conn.setState .kDisconnecting, s.memory, Function.update s.callers n .queueShutdown⟩
  | queueShutdown (hn : s.callers n = .queueShutdown) :
      Advances n s ⟨s.conn.queueInLoop .shutdownInLoop, s.memory, Function.update s.callers n .idle⟩

variable {s u : ConnectionLoop} {c t : TcpConnection}

theorem runs_of_runFunctor {memory : Nat → UInt8} {answer : Except Errno Nat} {f : Functor}
    (hs : runFunctor memory answer c f = some t) : Runs memory answer c f t := by
  cases f with
  | sendInLoop data len =>
      obtain ⟨hle, hs⟩ := Option.ite_none_right_eq_some.mp hs
      exact .sendInLoop data len t hle hs
  | sendFileInLoop fileDescriptor offset count =>
      obtain ⟨hle, he⟩ := Option.ite_none_right_eq_some.mp hs
      cases he
      exact .sendFileInLoop fileDescriptor offset count hle
  | shutdownInLoop =>
      cases hs
      exact .shutdownInLoop
  | connectDestroted =>
      cases hs
      exact .connectDestroted
  | writeCompleteCallback =>
      cases hs
      exact .writeCompleteCallback
  | highWaterMarkCallback len =>
      cases hs
      exact .highWaterMarkCallback len

theorem moves_of_loopStep {a : LoopAct} (hs : s.loopStep a = some t) : LoopMoves s a t := by
  cases a with
  | connectEstablished =>
      obtain ⟨hstate, he⟩ := Option.ite_none_right_eq_some.mp hs
      cases he
      exact .connectEstablished hstate
  | connectDestroted =>
      cases hs
      exact .connectDestroted
  | handleRead answer =>
      obtain ⟨hstate, hs⟩ := Option.ite_none_left_eq_some.mp hs
      exact .handleRead answer t hstate hs
  | handleWrite answer =>
      obtain ⟨hnot, he⟩ := Option.ite_none_left_eq_some.mp hs
      cases he
      obtain ⟨hstate, hlt⟩ := not_or.mp hnot
      exact .handleWrite answer hstate (Nat.le_of_not_lt hlt)
  | handleClose =>
      obtain ⟨hstate, he⟩ := Option.ite_none_left_eq_some.mp hs
      cases he
      exact .handleClose hstate
  | send data answer =>
      simp only [loopStep] at hs
      split at hs
      next hstate =>
        cases hs
        exact .sendOff data answer hstate
      next hstate =>
        obtain ⟨hle, hs⟩ := Option.ite_none_right_eq_some.mp hs
        exact .send data answer t (not_not.mp hstate) hle hs
  | sendFile fileDescriptor offset count answer =>
      simp only [loopStep] at hs
      split at hs
      next hstate =>
        cases hs
        exact .sendFileOff fileDescriptor offset count answer hstate
      next hstate =>
        obtain ⟨hle, he⟩ := Option.ite_none_right_eq_some.mp hs
        cases he
        exact .sendFile fileDescriptor offset count answer (not_not.mp hstate) hle
  | shutdown =>
      cases hs
      exact .shutdown
  | runPending answer =>
      simp only [loopStep, runPending] at hs
      split at hs
      next => cases hs
      next f fs hf => exact .runPending answer f fs t hf (runs_of_runFunctor hs)

theorem advances_of_advance {n : Nat} (hs : s.advance n = some u) : Advances n s u := by
  rw [advance] at hs
  split at hs
  next => cases hs
  next data len hn =>
    cases hs
    exact .queueSend data len hn
  next fileDescriptor offset count hn =>
    cases hs
    exact .queueSendFile fileDescriptor offset count hn
  next hn =>
    cases hs
    exact .storeState hn
  next hn =>
    cases hs
    exact .queueShutdown hn

end ConnectionLoop

end LearnNote.Muduo
