import LearnNote.Muduo.TcpConnection

namespace LearnNote.Muduo

/-- What another thread still has to do in a call that has found the connection
connected. -/
inductive Caller
  | idle
  | queueSend (data len : Nat)
  | queueSendFile (fileDescriptor : Nat) (offset : Int) (count : Nat)
  | storeState
  | queueShutdown
deriving DecidableEq

/-- A connection, the memory of its process and the threads that call it. -/
structure ConnectionLoop where
  conn : TcpConnection
  memory : Nat → UInt8
  callers : Nat → Caller

namespace ConnectionLoop

/-- What the loop thread does on a connection: the handlers that the server and
the poller call, the user's calls in this thread, and the queue. -/
inductive LoopAct
  | connectEstablished
  | connectDestroted
  | handleRead (answer : Except Errno (List UInt8))
  | handleWrite (answer : Except Errno Nat)
  | handleClose
  | send (data : Payload) (answer : Except Errno Nat)
  | sendFile (fileDescriptor : Nat) (offset : Int) (count : Nat) (answer : Except Errno Nat)
  | shutdown
  | runPending (answer : Except Errno Nat)

inductive Act
  | send (t data len : Nat)
  | sendFile (t fileDescriptor : Nat) (offset : Int) (count : Nat)
  | shutdown (t : Nat)
  | advance (t : Nat)
  | poke (a : Nat) (v : UInt8)
  | loop (a : LoopAct)

/-- A call from another thread begins with a load of the state. -/
def call (t : Nat) (next : Caller) (s : ConnectionLoop) : Option ConnectionLoop :=
  if s.callers t = .idle then
    some (if s.conn.state = .kConnected then { s with callers := Function.update s.callers t next } else s)
  else none

/-- The thread goes on with a store to the state or a push to the queue. -/
def advance (t : Nat) (s : ConnectionLoop) : Option ConnectionLoop :=
  match s.callers t with
  | .idle => none
  | .queueSend data len =>
      some ⟨s.conn.queueInLoop (.sendInLoop data len), s.memory, Function.update s.callers t .idle⟩
  | .queueSendFile fileDescriptor offset count =>
      some ⟨s.conn.queueInLoop (.sendFileInLoop fileDescriptor offset count), s.memory,
        Function.update s.callers t .idle⟩
  | .storeState => some ⟨s.conn.setState .kDisconnecting, s.memory, Function.update s.callers t .queueShutdown⟩
  | .queueShutdown => some ⟨s.conn.queueInLoop .shutdownInLoop, s.memory, Function.update s.callers t .idle⟩

def bytes (memory : Nat → UInt8) (data len : Nat) : List UInt8 :=
  (List.range len).map (fun i => memory (data + i))

/-- A functor reads the bytes it is bound to when it runs. The callbacks are the
user's; what they call are steps of their own. -/
def runFunctor (memory : Nat → UInt8) (answer : Except Errno Nat) (c : TcpConnection) :
    Functor → Option TcpConnection
  | .sendInLoop data len => if written answer ≤ len then c.sendInLoop (bytes memory data len) answer else none
  | .sendFileInLoop fileDescriptor offset count =>
      if Sends offset count answer then some (c.sendFileInLoop fileDescriptor offset count answer) else none
  | .shutdownInLoop => some c.shutdownInLoop
  | .connectDestroted => some c.connectDestroted
  | .writeCompleteCallback | .highWaterMarkCallback _ => some c

def runPending (answer : Except Errno Nat) (s : ConnectionLoop) : Option TcpConnection :=
  match s.conn.pendingFunctors with
  | [] => none
  | f :: fs => runFunctor s.memory answer { s.conn with pendingFunctors := fs } f

/-- A connection is established once, and its events are delivered after that. -/
def loopStep (s : ConnectionLoop) : LoopAct → Option TcpConnection
  | .connectEstablished => if s.conn.state = .kConnecting then some s.conn.connectEstablished else none
  | .connectDestroted => some s.conn.connectDestroted
  | .handleRead answer => if s.conn.state = .kConnecting then none else s.conn.handleRead answer
  | .handleWrite answer =>
      if s.conn.state = .kConnecting ∨ s.conn.outputBuffer.readableBytes < written answer then none
      else some (s.conn.handleWrite answer)
  | .handleClose => if s.conn.state = .kConnecting then none else some s.conn.handleClose
  | .send data answer =>
      if s.conn.state ≠ .kConnected then some s.conn
      else if written answer ≤ data.bytes.length then s.conn.sendInLoop data.bytes answer else none
  | .sendFile fileDescriptor offset count answer =>
      if s.conn.state ≠ .kConnected then some s.conn
      else if Sends offset count answer then some (s.conn.sendFileInLoop fileDescriptor offset count answer) else none
  | .shutdown => some s.conn.shutdown
  | .runPending answer => s.runPending answer

def step : Act → ConnectionLoop → Option ConnectionLoop
  | .send t data len, s => s.call t (.queueSend data len)
  | .sendFile t fileDescriptor offset count, s => s.call t (.queueSendFile fileDescriptor offset count)
  | .shutdown t, s => s.call t .storeState
  | .advance t, s => s.advance t
  | .poke a v, s => some { s with memory := Function.update s.memory a v }
  | .loop a, s => (s.loopStep a).map (fun c => { s with conn := c })

def start (s : ConnectionLoop) : Prop :=
  ∃ mark high complete memory, s = ⟨TcpConnection.new mark high complete, memory, fun _ => .idle⟩

def blank : ConnectionLoop := ⟨TcpConnection.new 64 false true, fun _ => 97, fun _ => .idle⟩

end ConnectionLoop

end LearnNote.Muduo
