import LearnNote.Lib.Pipe
import LearnNote.Muduo.OutputGrowth

namespace LearnNote.Muduo

open Lib.Pipe

/-- The bytes that an effect has the kernel take, where range is what the files hold. -/
def Effect.taken (range : Nat → Int → Nat → List UInt8) : Effect → List UInt8
  | .write data answer => data.take (written answer)
  | .sendfile fileDescriptor offset count answer => (range fileDescriptor offset count).take (written answer)
  | _ => []

def Effect.given (range : Nat → Int → Nat → List UInt8) : Effect → List UInt8
  | .sendInLoop data => data
  | .sendFile fileDescriptor offset count => range fileDescriptor offset count
  | _ => []

/-- A connection as a queue of bytes. The write end is shut down when it is empty. -/
def ports (range : Nat → Int → Nat → List UInt8) : Ports Effect UInt8 where
  enters := Effect.given range
  leaves := Effect.taken range
  barrier e := e = .shutdownWrite

/-- The history of a connection leads to its output buffer and to some bytes
behind it, which a call or a file still holds. -/
structure Carries (range : Nat → Int → Nat → List UInt8) (rest : List UInt8) (c : TcpConnection) : Prop where
  wf : c.outputBuffer.WF
  flow : Flow (ports range) c.log (c.outputBuffer.content ++ rest)

def Interest (c : TcpConnection) : Prop := c.channel.isWriting = true ↔ c.outputBuffer.readableBytes ≠ 0

variable {range : Nat → Int → Nat → List UInt8} {data rest rest' : List UInt8} {c t : TcpConnection}

namespace Carries

theorem content_eq_nil (h : Carries range rest c) :
    c.outputBuffer.content = [] ↔ c.outputBuffer.readableBytes = 0 := by
  rw [← h.wf.length_content, List.length_eq_zero_iff]

theorem emit (h : Carries range rest c) {e : Effect} (hb : e ≠ .shutdownWrite)
    (hq : c.outputBuffer.content ++ rest ++ e.given range = e.taken range ++ (c.outputBuffer.content ++ rest')) :
    Carries range rest' (c.emit e) :=
  ⟨h.wf, h.flow.concat hq (fun he => absurd he hb)⟩

theorem emit_other (h : Carries range rest c) {e : Effect} (hb : e ≠ .shutdownWrite) (ht : e.taken range = [])
    (hg : e.given range = []) : Carries range rest (c.emit e) := by
  apply h.emit hb
  rw [ht, hg, List.append_nil, List.nil_append]

theorem writeCompleted (h : Carries range rest c) : Carries range rest c.writeCompleted := by
  rw [TcpConnection.writeCompleted]
  split
  · exact ⟨h.wf, h.flow⟩
  · exact h

theorem checkHighWaterMark (h : Carries range rest c) (n : Nat) : Carries range rest (c.checkHighWaterMark n) := by
  rw [TcpConnection.checkHighWaterMark]
  split
  · exact ⟨h.wf, h.flow⟩
  · exact h

theorem setState (h : Carries range rest c) (state : StateE) : Carries range rest (c.setState state) := by
  have hs : Carries range rest { c with state := state } := ⟨h.wf, h.flow⟩
  exact hs.emit_other nofun rfl rfl

theorem appendOutput (h : Carries range (data ++ rest) c) (hlen : data.length < 2 ^ 63)
    (hs : c.appendOutput data = some t) :
    Carries range rest t ∧ t.outputBuffer.content = c.outputBuffer.content ++ data := by
  obtain ⟨b, hb, rfl⟩ := Option.map_eq_some_iff.mp hs
  obtain ⟨hw, hc⟩ := Buffer.append_payload_wf h.wf ⟨data, hlen⟩ hb
  have hb' : Carries range rest { c with outputBuffer := b } := by
    refine ⟨hw, ?_⟩
    rw [hc, List.append_assoc]
    exact h.flow
  exact ⟨hb'.emit_other nofun rfl rfl, hc⟩

theorem ensureWriting (h : Carries range rest c) (hr : c.outputBuffer.readableBytes ≠ 0) :
    Carries range rest c.ensureWriting ∧ Interest c.ensureWriting := by
  rw [TcpConnection.ensureWriting]
  split
  next hw => exact ⟨h, iff_of_true hw hr⟩
  next =>
    have he : Carries range rest { c with channel := c.channel.enableWriting } := ⟨h.wf, h.flow⟩
    exact ⟨he.emit_other (by simp) rfl rfl, iff_of_true (Channel.isWriting_enableWriting _) hr⟩

end Carries

theorem Interest.writeCompleted (h : Interest c) : Interest c.writeCompleted := by
  rw [TcpConnection.writeCompleted]
  split <;> exact h

namespace Carries

theorem sendRest (h : Carries range (data ++ rest) c) (hi : Interest c) (hlen : data.length < 2 ^ 63)
    (hs : c.sendRest data = some t) : Carries range rest t ∧ Interest t := by
  rw [TcpConnection.sendRest] at hs
  split at hs
  next hnil =>
    subst hnil
    cases hs
    exact ⟨h, hi⟩
  next hne =>
    obtain ⟨a, ha, rfl⟩ := Option.map_eq_some_iff.mp hs
    obtain ⟨hstream, hc⟩ := (h.checkHighWaterMark data.length).appendOutput hlen ha
    apply hstream.ensureWriting
    intro hr
    have hnil := hstream.content_eq_nil.mpr hr
    rw [hc] at hnil
    exact hne (List.append_eq_nil_iff.mp hnil).2

theorem sendInLoop (h : Carries range rest c) (hi : Interest c) (data : Payload)
    (horder : data.bytes = [] ∨ rest = []) {answer : Except Errno Nat}
    (hf : ∀ errno, answer = .error errno → errno.fault = false)
    (hs : c.sendInLoop data.bytes answer = some t) : Carries range rest t ∧ Interest t := by
  have hdata : Carries range (data.bytes ++ rest) (c.emit (.sendInLoop data.bytes)) := by
    apply h.emit (e := .sendInLoop data.bytes) (by simp)
    rcases horder with hnil | rfl
    · simp [Effect.given, Effect.taken, hnil]
    · simp [Effect.given, Effect.taken]
  rw [TcpConnection.sendInLoop] at hs
  split at hs
  next hidle =>
    have hnil : c.outputBuffer.content = [] := h.content_eq_nil.mpr hidle.2
    have hwrite : Carries range (data.bytes.drop (written answer) ++ rest)
        ((c.emit (.sendInLoop data.bytes)).emit (.write data.bytes answer)) := by
      apply hdata.emit (e := .write data.bytes answer) (by simp)
      have hsplit : data.bytes.take (written answer) ++ data.bytes.drop (written answer) = data.bytes :=
        List.take_append_drop _ _
      simp only [Effect.given, Effect.taken, TcpConnection.emit, hnil, List.nil_append, List.append_nil]
      rw [← List.append_assoc, hsplit]
    cases answer with
    | ok nwrote =>
        have hlen : (data.bytes.drop nwrote).length < 2 ^ 63 :=
          Nat.lt_of_le_of_lt (List.drop_sublist _ _).length_le data.small
        simp only at hs
        split at hs
        · exact hwrite.writeCompleted.sendRest (Interest.writeCompleted hi) hlen hs
        · exact hwrite.sendRest hi hlen hs
    | error errno =>
        simp only [hf errno rfl, Bool.false_eq_true, if_false] at hs
        exact hwrite.sendRest hi data.small hs
  next => exact hdata.sendRest hi data.small hs

theorem shutdownInLoop (h : Carries range [] c) (hi : Interest c) :
    Carries range [] c.shutdownInLoop ∧ Interest c.shutdownInLoop := by
  rw [TcpConnection.shutdownInLoop]
  split
  next => exact ⟨h, hi⟩
  next hidle =>
    have hnil : c.outputBuffer.content = [] := by
      rw [h.content_eq_nil]
      by_contra hr
      exact hidle (hi.mpr hr)
    have hflow : Flow (ports range) (c.log ++ [.shutdownWrite]) (c.outputBuffer.content ++ []) :=
      h.flow.concat (by simp [ports, Effect.given, Effect.taken]) (fun _ => by simp [hnil])
    exact ⟨⟨h.wf, hflow⟩, hi⟩

theorem retrieveOutput (h : Carries range rest c) (answer : Except Errno Nat) :
    Carries range rest ((c.writeFd answer).retrieveOutput (written answer)) := by
  obtain ⟨hw, hc⟩ := Buffer.retrieve_wf h.wf (written answer)
  refine ⟨hw, h.flow.concat ?_ nofun⟩
  have hsplit : c.outputBuffer.content.take (written answer) ++ c.outputBuffer.content.drop (written answer) =
      c.outputBuffer.content := List.take_append_drop _ _
  simp only [TcpConnection.retrieveOutput, TcpConnection.writeFd, TcpConnection.emit, ports, Effect.given,
    Effect.taken, hc, List.append_nil]
  rw [← List.append_assoc]
  exact congrArg (· ++ rest) hsplit.symm

theorem writeFd (h : Carries range rest c) {answer : Except Errno Nat} (hz : written answer = 0) :
    Carries range rest (c.writeFd answer) := by
  refine h.emit_other nofun ?_ rfl
  rw [Effect.taken, hz, List.take_zero]

theorem outputDrained (h : Carries range rest c) (hrest : c.state = .kDisconnecting → rest = [])
    (hr : c.outputBuffer.readableBytes = 0) : Carries range rest c.outputDrained ∧ Interest c.outputDrained := by
  have hd : Carries range rest c.disableWriting :=
    emit_other (c := { c with channel := c.channel.disableWriting }) ⟨h.wf, h.flow⟩ nofun rfl rfl
  have hi : Interest c.disableWriting := iff_of_false (by simp [TcpConnection.disableWriting, TcpConnection.emit])
    (not_not_intro hr)
  have hstate : c.disableWriting.writeCompleted.state = c.state := ((Grows.refl _).writeCompleted).state
  rw [TcpConnection.outputDrained]
  split
  next hdisconnecting =>
    obtain rfl := hrest (hstate.symm.trans hdisconnecting)
    exact hd.writeCompleted.shutdownInLoop hi.writeCompleted
  next => exact ⟨hd.writeCompleted, hi.writeCompleted⟩

theorem handleWrite (h : Carries range rest c) (hi : Interest c)
    (hrest : c.state = .kDisconnecting → rest = []) (answer : Except Errno Nat) :
    Carries range rest (c.handleWrite answer) ∧ Interest (c.handleWrite answer) := by
  rw [TcpConnection.handleWrite]
  split
  next hwriting =>
    split
    next =>
      rw [TcpConnection.checkDrained]
      split
      next hr => exact (h.retrieveOutput answer).outputDrained hrest hr
      next hr => exact ⟨h.retrieveOutput answer, iff_of_true hwriting hr⟩
    next hz => exact ⟨h.writeFd (Nat.eq_zero_of_not_pos hz), hi⟩
  next => exact ⟨h, hi⟩

theorem established (mark : Nat) (high complete : Bool) :
    Carries range [] (TcpConnection.new mark high complete).connectEstablished ∧
      Interest (TcpConnection.new mark high complete).connectEstablished := by
  obtain ⟨hw, hc⟩ := Buffer.initial_wf
  have hnew : Carries range [] (TcpConnection.new mark high complete) := by
    refine ⟨hw, ?_⟩
    rw [List.append_nil, TcpConnection.new, hc]
    exact .nil
  have hconnected := hnew.setState .kConnected
  have hreading : Carries range [] ((TcpConnection.new mark high complete).setState .kConnected).enableReading :=
    emit_other (c := { (TcpConnection.new mark high complete).setState .kConnected with
      channel := Channel.enableReading ⟨Channel.kNoneEvent⟩ }) ⟨hconnected.wf, hconnected.flow⟩ nofun rfl rfl
  have hi : (Channel.enableReading ⟨Channel.kNoneEvent⟩).isWriting = true ↔ Buffer.initial.readableBytes ≠ 0 := by
    decide
  exact ⟨hreading.emit_other nofun rfl rfl, hi⟩

end Carries

end LearnNote.Muduo
