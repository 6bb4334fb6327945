import LearnNote.Muduo.OutputStream
import LearnNote.Muduo.SendCalls

namespace LearnNote.Muduo

open Lib.Transition

namespace TcpConnection

/-- A send called in the loop thread. The kernel takes no more than it is offered. -/
def send (buf : List UInt8) (answer : Except Errno Nat) (c : TcpConnection) : Option TcpConnection :=
  if c.state = .kConnected then
    if written answer ≤ buf.length then c.sendInLoop buf answer else none
  else some c

end TcpConnection

/-- A connection of the server, and the bytes that were read while it was connected. -/
structure EchoServer where
  conn : TcpConnection
  received : List UInt8

namespace EchoServer

def onMessage (answer : Except Errno Nat) (c : TcpConnection) : Option TcpConnection :=
  c.inputBuffer.retrieveAllAsString.bind fun r => { c with inputBuffer := r.2 }.send r.1 answer

def handleRead (received : Except Errno (List UInt8)) (answer : Except Errno Nat) (c : TcpConnection) :
    Option TcpConnection :=
  match received with
  | .ok (_ :: _) => (c.handleRead received).bind (onMessage answer)
  | _ => c.handleRead received

inductive Act
  | handleRead (received : Except Errno (List UInt8)) (answer : Except Errno Nat)
  | handleWrite (answer : Except Errno Nat)
  | handleClose
  | connectDestroted

def step : Act → EchoServer → Option EchoServer
  | .handleRead received answer, s =>
      (handleRead received answer s.conn).map fun c =>
        ⟨c, if s.conn.state = .kConnected then s.received ++ Buffer.received received else s.received⟩
  | .handleWrite answer, s =>
      if written answer ≤ s.conn.outputBuffer.readableBytes then some { s with conn := s.conn.handleWrite answer }
      else none
  | .handleClose, s => some { s with conn := s.conn.handleClose }
  | .connectDestroted, s => some { s with conn := s.conn.connectDestroted }

def highWaterMark : Nat := 64 * 1024 * 1024

def start (s : EchoServer) : Prop := s = ⟨(TcpConnection.new highWaterMark false false).connectEstablished, []⟩

/-- The peer has not gone when a message is sent back. -/
def NoFault : Act → EchoServer → Prop
  | .handleRead _ (.error errno), _ => errno.fault = false
  | _, _ => True

instance : ∀ (a : Act) (s : EchoServer), Decidable (NoFault a s)
  | .handleRead _ (.error _), _ => inferInstanceAs (Decidable (_ = _))
  | .handleRead _ (.ok _), _ | .handleWrite _, _ | .handleClose, _ | .connectDestroted, _ =>
      inferInstanceAs (Decidable True)

section InputBuffer

variable {c t : TcpConnection} {data : List UInt8} {answer : Except Errno Nat}

theorem inputBuffer_writeCompleted (c : TcpConnection) : c.writeCompleted.inputBuffer = c.inputBuffer := by
  rw [TcpConnection.writeCompleted]
  split <;> rfl

theorem inputBuffer_checkHighWaterMark (n : Nat) (c : TcpConnection) :
    (c.checkHighWaterMark n).inputBuffer = c.inputBuffer := by
  rw [TcpConnection.checkHighWaterMark]
  split <;> rfl

theorem inputBuffer_ensureWriting (c : TcpConnection) : c.ensureWriting.inputBuffer = c.inputBuffer := by
  rw [TcpConnection.ensureWriting]
  split <;> rfl

theorem inputBuffer_sendRest (hs : c.sendRest data = some t) : t.inputBuffer = c.inputBuffer := by
  rw [TcpConnection.sendRest] at hs
  split at hs
  · cases hs
    rfl
  · obtain ⟨a, ha, rfl⟩ := Option.map_eq_some_iff.mp hs
    obtain ⟨b, -, rfl⟩ := Option.map_eq_some_iff.mp ha
    exact (inputBuffer_ensureWriting _).trans (inputBuffer_checkHighWaterMark _ c)

theorem inputBuffer_sendInLoop (hs : c.sendInLoop data answer = some t) : t.inputBuffer = c.inputBuffer := by
  rw [TcpConnection.sendInLoop] at hs
  split at hs
  · cases answer with
    | ok nwrote =>
        dsimp only at hs
        split at hs
        · exact (inputBuffer_sendRest hs).trans (inputBuffer_writeCompleted _)
        · exact (inputBuffer_sendRest hs).trans rfl
    | error errno =>
        dsimp only at hs
        split at hs
        · cases hs
          rfl
        · exact (inputBuffer_sendRest hs).trans rfl
  · exact (inputBuffer_sendRest hs).trans rfl

theorem buffers_outputDrained (c : TcpConnection) :
    c.outputDrained.inputBuffer = c.inputBuffer ∧ c.outputDrained.outputBuffer = c.outputBuffer := by
  have hd : c.disableWriting.writeCompleted.inputBuffer = c.inputBuffer ∧
      c.disableWriting.writeCompleted.outputBuffer = c.outputBuffer := by
    rw [TcpConnection.writeCompleted]
    split <;> exact ⟨rfl, rfl⟩
  rw [TcpConnection.outputDrained]
  split
  · rw [TcpConnection.shutdownInLoop]
    split
    · exact hd
    · exact hd
  · exact hd

theorem buffers_checkDrained (c : TcpConnection) :
    c.checkDrained.inputBuffer = c.inputBuffer ∧ c.checkDrained.outputBuffer = c.outputBuffer := by
  rw [TcpConnection.checkDrained]
  split
  · exact buffers_outputDrained c
  · exact ⟨rfl, rfl⟩

theorem inputBuffer_handleWrite (answer : Except Errno Nat) (c : TcpConnection) :
    (c.handleWrite answer).inputBuffer = c.inputBuffer := by
  rw [TcpConnection.handleWrite]
  split
  · split
    · exact (buffers_checkDrained _).1
    · rfl
  · rfl

theorem outputBuffer_handleWrite (hw : c.channel.isWriting = true) (hn : 0 < written answer) :
    (c.handleWrite answer).outputBuffer = c.outputBuffer.retrieve (written answer) := by
  rw [TcpConnection.handleWrite, if_pos hw, if_pos hn]
  exact (buffers_checkDrained _).2

end InputBuffer

/-- What was read while the connection was connected has been given to sendInLoop, and
a connection that is not connected is not watched for writing. -/
structure Inv (s : EchoServer) : Prop where
  carries : Carries (fun _ _ _ => []) [] s.conn
  interest : s.conn.state = .kConnected → Interest s.conn
  closed : s.conn.state ≠ .kConnected → s.conn.channel.isWriting = false
  input : s.conn.inputBuffer.WF ∧ s.conn.inputBuffer.content = []
  sent : (SendCalls.payloads s.conn.log).flatten = s.received

variable {s u : EchoServer} {c t : TcpConnection} {received : Except Errno (List UInt8)} {answer : Except Errno Nat}

theorem start_inv (h : start s) : Inv s := by
  subst h
  have hnew : Carries (fun _ _ _ => []) [] (TcpConnection.new highWaterMark false false).connectEstablished ∧
      Interest (TcpConnection.new highWaterMark false false).connectEstablished :=
    Carries.established highWaterMark false false
  exact ⟨hnew.1, fun _ => hnew.2, fun hs => absurd rfl hs, Buffer.initial_wf, rfl⟩

theorem carries_down {range : Nat → Int → Nat → List UInt8} (h : Carries range [] c) :
    Carries range [] ((c.setState .kDisconnected).disableAll.emit .connectionCallback) := by
  have hset := h.setState .kDisconnected
  have hall : Carries range [] (c.setState .kDisconnected).disableAll :=
    Carries.emit_other (c := { c.setState .kDisconnected with channel := c.channel.disableAll })
      ⟨hset.wf, hset.flow⟩ nofun rfl rfl
  exact hall.emit_other nofun rfl rfl

theorem Inv.handleClose (h : Inv s) : Inv { s with conn := s.conn.handleClose } where
  carries := (carries_down h.carries).emit_other (e := .closeCallback) nofun rfl rfl
  interest hs := nomatch hs
  closed _ := Channel.isWriting_disableAll s.conn.channel
  input := h.input
  sent := by
    rw [(SendCalls.Keeps.handleClose s.conn).payloads]
    exact h.sent

theorem Inv.connectDestroted (h : Inv s) : Inv { s with conn := s.conn.connectDestroted } := by
  have hsent : (SendCalls.payloads s.conn.connectDestroted.log).flatten = s.received := by
    rw [(SendCalls.Keeps.connectDestroted s.conn).payloads]
    exact h.sent
  by_cases hstate : s.conn.state = .kConnected
  · rw [TcpConnection.connectDestroted, if_pos hstate] at hsent ⊢
    refine ⟨carries_down h.carries, ?_, fun _ => Channel.isWriting_disableAll s.conn.channel, h.input, hsent⟩
    intro he
    cases he
  · rw [TcpConnection.connectDestroted, if_neg hstate]
    exact h

theorem Inv.handleWrite (h : Inv s) (answer : Except Errno Nat) : Inv { s with conn := s.conn.handleWrite answer } := by
  have hstate := (Grows.handleWrite answer s.conn).state
  have hsent : (SendCalls.payloads (s.conn.handleWrite answer).log).flatten = s.received := by
    rw [(SendCalls.Keeps.handleWrite answer s.conn).payloads]
    exact h.sent
  have hinput := inputBuffer_handleWrite answer s.conn
  by_cases hs : s.conn.state = .kConnected
  · have hw := h.carries.handleWrite (h.interest hs) (fun _ => rfl) answer
    refine ⟨hw.1, fun _ => hw.2, fun hne => absurd (hstate.trans hs) hne, ?_, hsent⟩
    rw [hinput]
    exact h.input
  · have hidle : s.conn.handleWrite answer = s.conn := by
      rw [TcpConnection.handleWrite, h.closed hs]
      exact if_neg Bool.false_ne_true
    rw [hidle]
    exact h

theorem handleRead_message {x : UInt8} {xs : List UInt8} (hw : c.inputBuffer.WF) (hc : c.inputBuffer.content = [])
    (hs : handleRead (.ok (x :: xs)) answer c = some t) :
    ∃ b : Buffer, b.WF ∧ b.content = [] ∧ (x :: xs).length < 2 ^ 63 ∧
      { c.emit .messageCallback with inputBuffer := b }.send (x :: xs) answer = some t := by
  obtain ⟨d, hd, hm⟩ := Option.bind_eq_some_iff.mp hs
  obtain ⟨⟨n, b⟩, hb, rfl⟩ := Option.map_eq_some_iff.mp hd
  obtain ⟨hbw, hbc, rfl⟩ := Buffer.readFd_wf hw hb
  rw [hc, List.nil_append] at hbc
  obtain ⟨⟨msg, b'⟩, hr, ht⟩ := Option.bind_eq_some_iff.mp hm
  obtain ⟨hw', rfl, hc'⟩ := Buffer.retrieveAllAsString_wf hbw hr
  have hmsg : b.content = x :: xs := hbc
  refine ⟨b', hw', hc', ?_, ?_⟩
  · rw [← hmsg, hbw.length_content, hbw.readableBytes]
    have := hbw.inside
    have := hbw.lt
    omega
  · rw [← hmsg]
    exact ht

theorem Inv.message (h : Inv s) {x : UInt8} {xs : List UInt8} (hf : NoFault (.handleRead (.ok (x :: xs)) answer) s)
    (hs : handleRead (.ok (x :: xs)) answer s.conn = some t) :
    Inv ⟨t, if s.conn.state = .kConnected then s.received ++ (x :: xs) else s.received⟩ := by
  obtain ⟨b, hw, hc, hlen, ht⟩ := handleRead_message h.input.1 h.input.2 hs
  rw [TcpConnection.send] at ht
  have hread : Carries (fun _ _ _ => []) [] { s.conn.emit .messageCallback with inputBuffer := b } := by
    have he : Carries (fun _ _ _ => []) [] (s.conn.emit .messageCallback) := h.carries.emit_other nofun rfl rfl
    exact ⟨he.wf, he.flow⟩
  have hkeep : SendCalls.payloads (s.conn.emit .messageCallback).log = SendCalls.payloads s.conn.log :=
    ((SendCalls.Keeps.refl s.conn).emit rfl).payloads
  by_cases hstate : s.conn.state = .kConnected
  · rw [if_pos hstate]
    have hstate' : { s.conn.emit .messageCallback with inputBuffer := b }.state = .kConnected := hstate
    rw [if_pos hstate', Option.ite_none_right_eq_some] at ht
    obtain ⟨hle, ht⟩ := ht
    have hfault : ∀ errno, answer = .error errno → errno.fault = false := by
      rintro errno rfl
      exact hf
    obtain ⟨hcarries, hi⟩ := hread.sendInLoop (h.interest hstate) ⟨x :: xs, hlen⟩ (.inr rfl) hfault ht
    have hsame := (Grows.sendInLoop ht).state
    refine ⟨hcarries, fun _ => hi, fun hne => absurd (hsame.trans hstate) hne, ?_, ?_⟩
    · rw [inputBuffer_sendInLoop ht]
      exact ⟨hw, hc⟩
    · rw [(SendCalls.sendInLoop_keeps ht).payloads, SendCalls.payloads_emit, List.flatten_append,
        List.flatten_singleton]
      refine congrArg (· ++ (x :: xs)) ?_
      rw [← h.sent]
      exact congrArg List.flatten hkeep
  · rw [if_neg hstate]
    have hstate' : ¬ { s.conn.emit .messageCallback with inputBuffer := b }.state = .kConnected := hstate
    rw [if_neg hstate'] at ht
    cases ht
    refine ⟨hread, fun hs => absurd hs hstate, h.closed, ⟨hw, hc⟩, ?_⟩
    rw [← h.sent]
    exact congrArg List.flatten hkeep

theorem Inv.handleRead (h : Inv s) (hf : NoFault (.handleRead received answer) s)
    (hs : EchoServer.handleRead received answer s.conn = some t) :
    Inv ⟨t, if s.conn.state = .kConnected then s.received ++ Buffer.received received else s.received⟩ := by
  match received with
  | .error errno =>
      have hread : s.conn.handleRead (.error errno) = some t := hs
      obtain ⟨⟨n, b⟩, hb, rfl⟩ := Option.map_eq_some_iff.mp hread
      cases hb
      simp only [Buffer.received, List.append_nil, ite_self]
      exact h
  | .ok [] =>
      have hread : s.conn.handleRead (.ok []) = some t := hs
      obtain ⟨⟨n, b⟩, hb, rfl⟩ := Option.map_eq_some_iff.mp hread
      obtain ⟨hw, hc, rfl⟩ := Buffer.readFd_wf h.input.1 hb
      simp only [Buffer.received, List.append_nil, ite_self]
      have hi : Inv { s with conn := { s.conn with inputBuffer := b } } := by
        refine ⟨⟨h.carries.wf, h.carries.flow⟩, h.interest, h.closed, ⟨hw, ?_⟩, h.sent⟩
        rw [hc, h.input.2]
        rfl
      exact hi.handleClose
  | .ok (x :: xs) => exact h.message hf hs

theorem step_inv {a : Act} (h : Inv s) (hf : NoFault a s) (hs : step a s = some u) : Inv u := by
  cases a with
  | handleRead received answer =>
      obtain ⟨t, ht, rfl⟩ := Option.map_eq_some_iff.mp hs
      exact h.handleRead hf ht
  | handleWrite answer =>
      simp only [step] at hs
      split at hs
      · cases hs
        exact h.handleWrite answer
      · cases hs
  | handleClose =>
      cases hs
      exact h.handleClose
  | connectDestroted =>
      cases hs
      exact h.connectDestroted

theorem reachable_inv (h : Reachable start step NoFault s) : Inv s :=
  h.invariant (fun _ => start_inv) (fun _ _ _ => step_inv)

theorem sent_eq_flatten (log : List Effect) : OutputStream.sent log = (SendCalls.payloads log).flatten := by
  induction log with
  | nil => rfl
  | cons e log ih =>
      rw [OutputStream.sent, List.flatMap_cons, ← OutputStream.sent, ih]
      cases e <;> rfl

theorem Inv.conserved (h : Inv s) :
    OutputStream.accepted s.conn.log ++ s.conn.outputBuffer.content = s.received := by
  have hflow := h.carries.flow.conserved
  rw [List.append_nil] at hflow
  rw [← OutputStream.taken_eq_accepted, ← h.sent, ← sent_eq_flatten, ← OutputStream.given_eq_sent]
  exact hflow

theorem Inv.flushed (h : Inv s) (hs : s.conn.state = .kConnected) :
    (s.conn.handleWrite (.ok s.conn.outputBuffer.readableBytes)).outputBuffer.content = [] := by
  by_cases hr : s.conn.outputBuffer.readableBytes = 0
  · have hidle : ¬ s.conn.channel.isWriting = true := fun hw => (h.interest hs).mp hw hr
    rw [TcpConnection.handleWrite, if_neg hidle]
    exact h.carries.content_eq_nil.mpr hr
  · have hn : 0 < written (.ok s.conn.outputBuffer.readableBytes) := Nat.pos_of_ne_zero hr
    rw [outputBuffer_handleWrite ((h.interest hs).mpr hr) hn, (Buffer.retrieve_wf h.carries.wf _).2]
    apply List.drop_eq_nil_of_le
    rw [h.carries.wf.length_content]
    exact Nat.le_refl _

/-- Every byte that is read while the connection is up is sent back once and in order:
what the kernel has taken and what is pending are the bytes read. -/
theorem echo_exact (s : EchoServer) (h : Reachable start step NoFault s) :
    OutputStream.accepted s.conn.log ++ s.conn.outputBuffer.content = s.received ∧
      s.conn.inputBuffer.content = [] ∧
      (s.conn.state = .kConnected →
        (s.conn.channel.isWriting = true ↔ s.conn.outputBuffer.content ≠ []) ∧
          OutputStream.accepted (s.conn.handleWrite (.ok s.conn.outputBuffer.readableBytes)).log = s.received) := by
  have hi := reachable_inv h
  refine ⟨hi.conserved, hi.input.2, fun hs => ⟨?_, ?_⟩⟩
  · rw [ne_eq, hi.carries.content_eq_nil]
    exact hi.interest hs
  · have hw := (hi.handleWrite (.ok s.conn.outputBuffer.readableBytes)).conserved
    rw [hi.flushed hs, List.append_nil] at hw
    exact hw

def chat : List Act :=
  [.handleRead (.ok [1, 2, 3]) (.ok 2), .handleRead (.ok [4]) (.ok 0), .handleWrite (.ok 1)]

theorem echo_exact_chat :
    ∃ s, Reachable start step NoFault s ∧ s.received = [1, 2, 3, 4] ∧ s.conn.outputBuffer.content = [4] ∧
      OutputStream.accepted s.conn.log ++ s.conn.outputBuffer.content = s.received := by
  have hrun : (run (guarded step NoFault) chat
      ⟨(TcpConnection.new highWaterMark false false).connectEstablished, []⟩).map
      (fun s => (s.received, s.conn.outputBuffer.content)) = some ([1, 2, 3, 4], [4]) := by decide +kernel
  obtain ⟨s, hr, he⟩ := reachable_of_run start hrun rfl
  simp only [Prod.mk.injEq] at he
  exact ⟨s, hr, he.1, he.2, (echo_exact s hr).1⟩

end EchoServer

end LearnNote.Muduo
