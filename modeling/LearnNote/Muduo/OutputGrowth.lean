import LearnNote.Lib.History
import LearnNote.Muduo.TcpConnection

namespace LearnNote.Muduo

open Lib.History

/-- The effects of writing, of which none is seen by the user. -/
def Effect.Output : Effect → Prop
  | .sendInLoop _ | .write _ _ | .append _ | .enable _ | .disable _ | .shutdownWrite => True
  | _ => False

/-- The functors that only call the user. -/
def Functor.Notice : Functor → Prop
  | .writeCompleteCallback | .highWaterMarkCallback _ => True
  | _ => False

/-- What writing does to the state, the history and the queue of a connection. -/
structure Grows (c t : TcpConnection) : Prop where
  state : t.state = c.state
  log : Extends Effect.Output c.log t.log
  pending : Extends Functor.Notice c.pendingFunctors t.pendingFunctors

namespace Grows

variable {data rest : List UInt8} {answer : Except Errno Nat} {c d t : TcpConnection}

theorem refl (c : TcpConnection) : Grows c c := ⟨rfl, .refl _, .refl _⟩

theorem trans (h : Grows c d) (h' : Grows d t) : Grows c t :=
  ⟨h'.state.trans h.state, h.log.trans h'.log, h.pending.trans h'.pending⟩

theorem emit (h : Grows c t) {e : Effect} (he : e.Output) : Grows c (t.emit e) :=
  ⟨h.state, h.log.trans (.concat he _), h.pending⟩

theorem queueInLoop (h : Grows c t) {f : Functor} (hf : f.Notice) : Grows c (t.queueInLoop f) :=
  ⟨h.state, h.log, h.pending.trans (.concat hf _)⟩

theorem writeCompleted (h : Grows c t) : Grows c t.writeCompleted := by
  rw [TcpConnection.writeCompleted]
  split
  · exact h.queueInLoop trivial
  · exact h

theorem checkHighWaterMark (h : Grows c t) (n : Nat) : Grows c (t.checkHighWaterMark n) := by
  rw [TcpConnection.checkHighWaterMark]
  split
  · exact h.queueInLoop trivial
  · exact h

theorem ensureWriting (h : Grows c t) : Grows c t.ensureWriting := by
  rw [TcpConnection.ensureWriting]
  split
  · exact h
  · exact ⟨h.state, h.log.trans (.concat trivial _), h.pending⟩

theorem log_checkHighWaterMark (n : Nat) (c : TcpConnection) : (c.checkHighWaterMark n).log = c.log := by
  rw [TcpConnection.checkHighWaterMark]
  split <;> rfl

theorem append (hne : rest ≠ []) (hs : c.sendRest rest = some t) : Grows (c.emit (.append rest)) t := by
  rw [TcpConnection.sendRest, if_neg hne] at hs
  obtain ⟨a, ha, rfl⟩ := Option.map_eq_some_iff.mp hs
  obtain ⟨b, -, rfl⟩ := Option.map_eq_some_iff.mp ha
  have hmark := (refl c).checkHighWaterMark rest.length
  have happend : Grows (c.emit (.append rest))
      ({ c.checkHighWaterMark rest.length with outputBuffer := b }.emit (.append rest)) := by
    refine ⟨hmark.state, ?_, hmark.pending⟩
    simp only [TcpConnection.emit, log_checkHighWaterMark]
    exact .refl _
  exact happend.ensureWriting

theorem sendRest (h : Grows c d) (hs : d.sendRest rest = some t) : Grows c t := by
  by_cases hnil : rest = []
  · rw [TcpConnection.sendRest, if_pos hnil] at hs
    cases hs
    exact h
  · have happend : Grows c (d.emit (.append rest)) := h.emit trivial
    exact happend.trans (append hnil hs)

theorem write (hidle : c.channel.isWriting = false ∧ c.outputBuffer.readableBytes = 0)
    (hs : c.sendInLoop data answer = some t) : Grows ((c.emit (.sendInLoop data)).emit (.write data answer)) t := by
  rw [TcpConnection.sendInLoop] at hs
  split at hs
  next =>
    cases answer with
    | ok nwrote =>
        simp only at hs
        split at hs
        · exact ((refl _).writeCompleted).sendRest hs
        · exact (refl _).sendRest hs
    | error errno =>
        simp only at hs
        split at hs
        · cases hs
          exact refl _
        · exact (refl _).sendRest hs
  next hbusy => exact absurd hidle hbusy

theorem sendInLoop_of_busy (hbusy : ¬ (c.channel.isWriting = false ∧ c.outputBuffer.readableBytes = 0)) :
    c.sendInLoop data answer = (c.emit (.sendInLoop data)).sendRest data := by
  rw [TcpConnection.sendInLoop]
  exact if_neg hbusy

theorem sendInLoop (hs : c.sendInLoop data answer = some t) : Grows c t := by
  have hcall : Grows c (c.emit (.sendInLoop data)) := (refl c).emit trivial
  by_cases hidle : c.channel.isWriting = false ∧ c.outputBuffer.readableBytes = 0
  · have hwrite : Grows c ((c.emit (.sendInLoop data)).emit (.write data answer)) := hcall.emit trivial
    exact hwrite.trans (write hidle hs)
  · rw [sendInLoop_of_busy hidle] at hs
    exact hcall.sendRest hs

theorem shutdownInLoop (h : Grows c t) : Grows c t.shutdownInLoop := by
  rw [TcpConnection.shutdownInLoop]
  split
  · exact h
  · exact h.emit trivial

theorem outputDrained (h : Grows c t) : Grows c t.outputDrained := by
  have hd : Grows c t.disableWriting := ⟨h.state, h.log.trans (.concat trivial _), h.pending⟩
  rw [TcpConnection.outputDrained]
  split
  · exact hd.writeCompleted.shutdownInLoop
  · exact hd.writeCompleted

theorem handleWrite (answer : Except Errno Nat) (c : TcpConnection) : Grows c (c.handleWrite answer) := by
  have hw : Grows c (c.writeFd answer) := (refl c).emit trivial
  have hr : Grows c ((c.writeFd answer).retrieveOutput (written answer)) := ⟨hw.state, hw.log, hw.pending⟩
  rw [TcpConnection.handleWrite]
  split
  · split
    · rw [TcpConnection.checkDrained]
      split
      · exact hr.outputDrained
      · exact hr
    · exact hw
  · exact refl c

theorem log_writeCompleted (c : TcpConnection) : c.writeCompleted.log = c.log := by
  rw [TcpConnection.writeCompleted]
  split <;> rfl

theorem state_sendFileInLoop (fileDescriptor : Nat) (offset : Int) (count : Nat) (answer : Except Errno Nat)
    (c : TcpConnection) :
    (c.sendFileInLoop fileDescriptor offset count answer).state = c.state := by
  rw [TcpConnection.sendFileInLoop]
  split
  · rfl
  · split
    · cases answer with
      | ok bytesSent =>
          simp only
          split
          · exact (refl _).writeCompleted.state
          · rfl
      | error errno =>
          simp only
          split <;> rfl
    · split <;> rfl

theorem log_sendFileInLoop (fileDescriptor : Nat) (offset : Int) (count : Nat) (answer : Except Errno Nat)
    (c : TcpConnection) :
    (c.sendFileInLoop fileDescriptor offset count answer).log = c.log ∨
      (c.sendFileInLoop fileDescriptor offset count answer).log =
        c.log ++ [.sendfile fileDescriptor offset count answer] := by
  rw [TcpConnection.sendFileInLoop]
  split
  · exact .inl rfl
  · split
    · right
      cases answer with
      | ok bytesSent =>
          simp only
          split
          · exact log_writeCompleted _
          · rfl
      | error errno =>
          simp only
          split <;> rfl
    · left
      split <;> rfl

end Grows

end LearnNote.Muduo
