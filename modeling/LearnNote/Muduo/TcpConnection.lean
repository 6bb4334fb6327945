import LearnNote.Muduo.Buffer
import LearnNote.Muduo.Channel

namespace LearnNote.Muduo

inductive StateE
  | kConnecting
  | kConnected
  | kDisconnecting
  | kDisconnected
deriving DecidableEq

/-- What the loop is asked to run later. A send from another thread is bound to
the address and the length of its data. -/
inductive Functor
  | sendInLoop (data len : Nat)
  | sendFileInLoop (fileDescriptor : Nat) (offset : Int) (count : Nat)
  | shutdownInLoop
  | connectDestroted
  | writeCompleteCallback
  | highWaterMarkCallback (len : Nat)
deriving DecidableEq

/-- What a connection does to the world, and the calls of sendInLoop and sendFile.
A write is recorded with the bytes it offers and the kernel's answer. -/
inductive Effect
  | setState (state : StateE)
  | sendInLoop (data : List UInt8)
  | sendFile (fileDescriptor : Nat) (offset : Int) (count : Nat)
  | write (data : List UInt8) (answer : Except Errno Nat)
  | sendfile (fileDescriptor : Nat) (offset : Int) (count : Nat) (answer : Except Errno Nat)
  | append (data : List UInt8)
  | enable (mask : BitVec 32)
  | disable (mask : BitVec 32)
  | shutdownWrite
  | connectionCallback
  | messageCallback
  | closeCallback
deriving DecidableEq

def written : Except Errno Nat → Nat
  | .ok n => n
  | .error _ => 0

/-- What sendfile may answer: no more than it is asked for, and an error for a negative offset. -/
def Sends (offset : Int) (count : Nat) (answer : Except Errno Nat) : Prop :=
  written answer ≤ count ∧ (offset < 0 → answer = .error .einval)

instance (offset : Int) (count : Nat) (answer : Except Errno Nat) : Decidable (Sends offset count answer) :=
  inferInstanceAs (Decidable (_ ∧ _))

def Errno.fault (errno : Errno) : Bool := errno == .epipe || errno == .econnreset

/-- A connection, with the functors it has queued in its loop and the history of
its effects. The callbacks are kept as whether they are set. -/
structure TcpConnection where
  state : StateE
  channel : Channel
  inputBuffer : Buffer
  outputBuffer : Buffer
  highWaterMark : Nat
  highWaterMarkCallback : Bool
  writeCompleteCallback : Bool
  pendingFunctors : List Functor
  log : List Effect

namespace TcpConnection

def emit (e : Effect) (c : TcpConnection) : TcpConnection := { c with log := c.log ++ [e] }

def queueInLoop (f : Functor) (c : TcpConnection) : TcpConnection :=
  { c with pendingFunctors := c.pendingFunctors ++ [f] }

def setState (state : StateE) (c : TcpConnection) : TcpConnection :=
  { c with state := state }.emit (.setState state)

def enableReading (c : TcpConnection) : TcpConnection :=
  { c with channel := c.channel.enableReading }.emit (.enable Channel.kReadEvent)

def enableWriting (c : TcpConnection) : TcpConnection :=
  { c with channel := c.channel.enableWriting }.emit (.enable Channel.kWriteEvent)

def disableWriting (c : TcpConnection) : TcpConnection :=
  { c with channel := c.channel.disableWriting }.emit (.disable Channel.kWriteEvent)

def disableAll (c : TcpConnection) : TcpConnection :=
  { c with channel := c.channel.disableAll }.emit (.disable (~~~Channel.kNoneEvent))

@[simp]
theorem state_emit (e : Effect) (c : TcpConnection) : (c.emit e).state = c.state := rfl

@[simp]
theorem state_setState (state : StateE) (c : TcpConnection) : (c.setState state).state = state := rfl

@[simp]
theorem state_enableReading (c : TcpConnection) : c.enableReading.state = c.state := rfl

@[simp]
theorem state_disableAll (c : TcpConnection) : c.disableAll.state = c.state := rfl

/-- The callback for a completed write is queued, where there is one. -/
def writeCompleted (c : TcpConnection) : TcpConnection :=
  if c.writeCompleteCallback then c.queueInLoop .writeCompleteCallback else c

/-- The callback for a full buffer is queued when the buffer reaches the mark. -/
def checkHighWaterMark (remaining : Nat) (c : TcpConnection) : TcpConnection :=
  let oldLen := c.outputBuffer.readableBytes
  if sizeT (oldLen + remaining) ≥ c.highWaterMark ∧ oldLen < c.highWaterMark ∧ c.highWaterMarkCallback then
    c.queueInLoop (.highWaterMarkCallback (sizeT (oldLen + remaining)))
  else c

def appendOutput (data : List UInt8) (c : TcpConnection) : Option TcpConnection :=
  (c.outputBuffer.append data).map (fun b => { c with outputBuffer := b }.emit (.append data))

def ensureWriting (c : TcpConnection) : TcpConnection := if c.channel.isWriting then c else c.enableWriting

/-- The end of sendInLoop: what is left goes to the output buffer. -/
def sendRest (rest : List UInt8) (c : TcpConnection) : Option TcpConnection :=
  if rest = [] then some c
  else ((c.checkHighWaterMark rest.length).appendOutput rest).map ensureWriting

/-- A closed connection is only logged. errno is looked at again after a failed write has been logged,
and is taken to be unchanged by that. -/
def sendInLoop (data : List UInt8) (answer : Except Errno Nat) (c : TcpConnection) : Option TcpConnection :=
  let c := c.emit (.sendInLoop data)
  if c.channel.isWriting = false ∧ c.outputBuffer.readableBytes = 0 then
    let c := c.emit (.write data answer)
    match answer with
    | .ok nwrote => (if data.length - nwrote = 0 then c.writeCompleted else c).sendRest (data.drop nwrote)
    | .error errno => if errno.fault then some c else c.sendRest data
  else c.sendRest data

def shutdownInLoop (c : TcpConnection) : TcpConnection :=
  if c.channel.isWriting then c else c.emit .shutdownWrite

/-- A shutdown called in the loop thread. -/
def shutdown (c : TcpConnection) : TcpConnection :=
  if c.state = .kConnected then (c.setState .kDisconnecting).shutdownInLoop else c

def connectEstablished (c : TcpConnection) : TcpConnection :=
  (c.setState .kConnected).enableReading.emit .connectionCallback

def connectDestroted (c : TcpConnection) : TcpConnection :=
  if c.state = .kConnected then (c.setState .kDisconnected).disableAll.emit .connectionCallback else c

def handleClose (c : TcpConnection) : TcpConnection :=
  ((c.setState .kDisconnected).disableAll.emit .connectionCallback).emit .closeCallback

/-- An error is only logged. -/
def handleRead (answer : Except Errno (List UInt8)) (c : TcpConnection) : Option TcpConnection :=
  (c.inputBuffer.readFd answer).map (fun r =>
    let c := { c with inputBuffer := r.2 }
    match r.1 with
    | .error _ => c
    | .ok 0 => c.handleClose
    | .ok _ => c.emit .messageCallback)

def writeFd (answer : Except Errno Nat) (c : TcpConnection) : TcpConnection :=
  c.emit (.write (c.outputBuffer.peek c.outputBuffer.readableBytes) answer)

def retrieveOutput (len : Nat) (c : TcpConnection) : TcpConnection :=
  { c with outputBuffer := c.outputBuffer.retrieve len }

/-- The end of handleWrite, when the output buffer has become empty. -/
def outputDrained (c : TcpConnection) : TcpConnection :=
  let c := c.disableWriting.writeCompleted
  if c.state = .kDisconnecting then c.shutdownInLoop else c

def checkDrained (c : TcpConnection) : TcpConnection :=
  if c.outputBuffer.readableBytes = 0 then c.outputDrained else c

def handleWrite (answer : Except Errno Nat) (c : TcpConnection) : TcpConnection :=
  if c.channel.isWriting then
    if written answer > 0 then ((c.writeFd answer).retrieveOutput (written answer)).checkDrained
    else c.writeFd answer
  else c

/-- What is left of a file is queued again, at the offset that sendfile has advanced. -/
def sendFileInLoop (fileDescriptor : Nat) (offset : Int) (count : Nat) (answer : Except Errno Nat) (c : TcpConnection) :
    TcpConnection :=
  if c.state = .kDisconnecting then c
  else if c.channel.isWriting = false ∧ c.outputBuffer.readableBytes = 0 then
    let c := c.emit (.sendfile fileDescriptor offset count answer)
    match answer with
    | .ok bytesSent =>
        let remaining := count - bytesSent
        if remaining = 0 then c.writeCompleted
        else c.queueInLoop (.sendFileInLoop fileDescriptor (offset + bytesSent) remaining)
    | .error errno =>
        if errno.fault ∨ count = 0 then c else c.queueInLoop (.sendFileInLoop fileDescriptor offset count)
  else if count = 0 then c
  else c.queueInLoop (.sendFileInLoop fileDescriptor offset count)

def sendFile (fileDescriptor : Nat) (offset : Int) (count : Nat) (answer : Except Errno Nat)
    (c : TcpConnection) : TcpConnection :=
  if c.state = .kConnected then
    (c.emit (.sendFile fileDescriptor offset count)).sendFileInLoop fileDescriptor offset count answer
  else c

def new (highWaterMark : Nat) (highWaterMarkCallback writeCompleteCallback : Bool) : TcpConnection where
  state := .kConnecting
  channel := ⟨Channel.kNoneEvent⟩
  inputBuffer := .initial
  outputBuffer := .initial
  highWaterMark := highWaterMark
  highWaterMarkCallback := highWaterMarkCallback
  writeCompleteCallback := writeCompleteCallback
  pendingFunctors := []
  log := []

end TcpConnection

end LearnNote.Muduo
