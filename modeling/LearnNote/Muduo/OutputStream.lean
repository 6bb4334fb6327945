import LearnNote.Lib.Transition
import LearnNote.Muduo.OutputFlow

namespace LearnNote.Muduo

open Lib.History Lib.Transition

def Effect.accepted : Effect → List UInt8
  | .write data answer => data.take (written answer)
  | _ => []

def Effect.sent : Effect → List UInt8
  | .sendInLoop data => data
  | _ => []

namespace OutputStream

def accepted (log : List Effect) : List UInt8 := log.flatMap Effect.accepted

def sent (log : List Effect) : List UInt8 := log.flatMap Effect.sent

variable {c t : TcpConnection}

theorem channel_writeCompleted : c.writeCompleted.channel = c.channel := by
  rw [TcpConnection.writeCompleted]
  split <;> rfl

theorem log_outputDrained (hstate : c.state = .kDisconnecting) :
    c.outputDrained.log = c.log ++ [.disable Channel.kWriteEvent, .shutdownWrite] := by
  have hs : c.disableWriting.writeCompleted.state = .kDisconnecting := (Grows.refl _).writeCompleted.state.trans hstate
  have hw : c.disableWriting.writeCompleted.channel.isWriting = false := by
    rw [channel_writeCompleted]
    simp [TcpConnection.disableWriting, TcpConnection.emit]
  have hl : c.disableWriting.writeCompleted.log = c.log ++ [.disable Channel.kWriteEvent] := Grows.log_writeCompleted _
  rw [TcpConnection.outputDrained, if_pos hs, TcpConnection.shutdownInLoop, hw]
  simp [TcpConnection.emit, hl]

/-- In the disconnecting state the handler that empties the buffer shuts the
write end down. -/
theorem handleWrite_shutdown (hi : Interest c) (hstate : c.state = .kDisconnecting) {answer : Except Errno Nat}
    (hr : c.outputBuffer.readableBytes ≠ 0) (hdone : (c.handleWrite answer).outputBuffer.readableBytes = 0) :
    (c.handleWrite answer).log = c.log ++
      [.write c.outputBuffer.content answer, .disable Channel.kWriteEvent, .shutdownWrite] := by
  have hwriting := hi.mpr hr
  rw [TcpConnection.handleWrite, if_pos hwriting] at hdone ⊢
  by_cases hn : written answer > 0
  · rw [if_pos hn, TcpConnection.checkDrained] at hdone ⊢
    split at hdone
    next hz =>
      rw [if_pos hz]
      exact (log_outputDrained (c := (c.writeFd answer).retrieveOutput (written answer)) hstate).trans
        (List.append_assoc c.log [_] _)
    next hz => exact absurd hdone hz
  · rw [if_neg hn] at hdone
    exact absurd hdone hr

inductive Act
  | sendInLoop (data : Payload) (answer : Except Errno Nat)
  | handleWrite (answer : Except Errno Nat)
  | shutdown
  | shutdownStore
  | shutdownInLoop

/-- A step in the loop thread, or the store by which a shutdown in another thread
begins. The kernel takes no more than it is offered. -/
def step : Act → TcpConnection → Option TcpConnection
  | .sendInLoop data answer, c =>
      if written answer ≤ data.bytes.length then c.sendInLoop data.bytes answer else none
  | .handleWrite answer, c =>
      if written answer ≤ c.outputBuffer.readableBytes then some (c.handleWrite answer) else none
  | .shutdown, c => some c.shutdown
  | .shutdownStore, c => if c.state = .kConnected then some (c.setState .kDisconnecting) else none
  | .shutdownInLoop, c => some c.shutdownInLoop

def start (c : TcpConnection) : Prop :=
  ∃ mark high complete, c = (TcpConnection.new mark high complete).connectEstablished

def NoFault : Act → TcpConnection → Prop
  | .sendInLoop _ (.error errno), _ | .handleWrite (.error errno), _ => errno.fault = false
  | _, _ => True

instance : ∀ (a : Act) (c : TcpConnection), Decidable (NoFault a c)
  | .sendInLoop _ (.error _), _ | .handleWrite (.error _), _ => inferInstanceAs (Decidable (_ = _))
  | .sendInLoop _ (.ok _), _ | .handleWrite (.ok _), _ | .shutdown, _ | .shutdownStore, _ | .shutdownInLoop, _ =>
    inferInstanceAs (Decidable True)

def Carried (c : TcpConnection) : Prop := Carries (fun _ _ _ => []) [] c ∧ Interest c

theorem step_carried {a : Act} (h : Carried c) (hf : NoFault a c) (hs : step a c = some t) : Carried t := by
  cases a with
  | sendInLoop data answer =>
      simp only [step] at hs
      split at hs
      · refine h.1.sendInLoop h.2 data (.inr rfl) (fun errno he => ?_) hs
        subst he
        exact hf
      · cases hs
  | handleWrite answer =>
      simp only [step] at hs
      split at hs
      · cases hs
        exact h.1.handleWrite h.2 (fun _ => rfl) answer
      · cases hs
  | shutdown =>
      cases hs
      rw [TcpConnection.shutdown]
      split
      · exact (h.1.setState _).shutdownInLoop h.2
      · exact h
  | shutdownStore =>
      simp only [step] at hs
      split at hs
      · cases hs
        exact ⟨h.1.setState _, h.2⟩
      · cases hs
  | shutdownInLoop =>
      cases hs
      exact h.1.shutdownInLoop h.2

theorem reachable_carried (h : Reachable start step NoFault c) : Carried c := by
  apply h.invariant (I := Carried) ?_ (fun _ _ _ => step_carried)
  rintro _ ⟨mark, high, complete, rfl⟩
  exact Carries.established mark high complete

/-- A shutdown has been called: the handler that empties the buffer shuts the write
end down, and a shutdownInLoop does it where nothing is pending. -/
structure ShutsDown (c : TcpConnection) : Prop where
  state : c.state = .kDisconnecting
  drained : ∀ answer t, step (.handleWrite answer) c = some t →
    c.outputBuffer.readableBytes ≠ 0 → t.outputBuffer.readableBytes = 0 →
    ∃ effects, t.log = c.log ++ effects ∧ .shutdownWrite ∈ effects
  idle : c.outputBuffer.readableBytes = 0 → c.shutdownInLoop.log = c.log ++ [.shutdownWrite]

theorem log_shutdownInLoop (hi : Interest c) :
    c.shutdownInLoop.log = c.log ++ if c.outputBuffer.readableBytes = 0 then [.shutdownWrite] else [] := by
  rw [TcpConnection.shutdownInLoop]
  by_cases hr : c.outputBuffer.readableBytes = 0
  · have hidle : ¬ c.channel.isWriting = true := fun hw => hi.mp hw hr
    rw [if_neg hidle, if_pos hr]
    rfl
  · have hwriting := hi.mpr hr
    rw [if_pos hwriting, if_neg hr, List.append_nil]

theorem shutsDown (hi : Interest c) (hstate : c.state = .kDisconnecting) : ShutsDown c := by
  refine ⟨hstate, fun answer t hs hr hdone => ?_, fun hr => ?_⟩
  · simp only [step] at hs
    split at hs
    · cases hs
      exact ⟨_, handleWrite_shutdown hi hstate hr hdone, by simp⟩
    · cases hs
  · rw [log_shutdownInLoop hi, if_pos hr]

theorem step_disconnecting {a : Act} (h : c.state = .kDisconnecting) (hs : step a c = some t) :
    t.state = .kDisconnecting := by
  cases a with
  | sendInLoop data answer =>
      simp only [step] at hs
      split at hs
      · exact (Grows.sendInLoop hs).state.trans h
      · cases hs
  | handleWrite answer =>
      simp only [step] at hs
      split at hs
      · cases hs
        exact (Grows.handleWrite answer c).state.trans h
      · cases hs
  | shutdown =>
      cases hs
      rw [TcpConnection.shutdown, if_neg (by rw [h]; decide)]
      exact h
  | shutdownStore =>
      simp only [step] at hs
      split at hs
      · cases hs
        rfl
      · cases hs
  | shutdownInLoop =>
      cases hs
      exact (Grows.refl c).shutdownInLoop.state.trans h

theorem shutsDown_of_reachable {u : TcpConnection} (ht : Carried t) (hstate : t.state = .kDisconnecting)
    (h : Reachable (· = t) step NoFault u) : ShutsDown u := by
  have hu : Carried u ∧ u.state = .kDisconnecting := by
    apply h.invariant (I := fun u => Carried u ∧ u.state = .kDisconnecting)
    · rintro _ rfl
      exact ⟨ht, hstate⟩
    · rintro a s t ⟨hs, hd⟩ hf hstep
      exact ⟨step_carried hs hf hstep, step_disconnecting hd hstep⟩
  exact shutsDown hu.1.2 hu.2

theorem taken_eq_accepted (log : List Effect) : log.flatMap (Effect.taken (fun _ _ _ => [])) = accepted log := by
  apply congrArg (fun f => log.flatMap f)
  funext e
  cases e <;> simp [Effect.taken, Effect.accepted]

theorem given_eq_sent (log : List Effect) : log.flatMap (Effect.given (fun _ _ _ => [])) = sent log := by
  apply congrArg (fun f => log.flatMap f)
  funext e
  cases e <;> simp [Effect.given, Effect.sent]

/-- No byte is lost, duplicated or reordered: what the kernel has taken and what
is in the buffer are the payloads in order. -/
theorem output_exact (h : Reachable start step NoFault c) :
    accepted c.log ++ c.outputBuffer.content = sent c.log := by
  have hflow := (reachable_carried h).1.flow.conserved
  rw [List.append_nil] at hflow
  rw [← taken_eq_accepted, ← given_eq_sent]
  exact hflow

def trickle : List Act :=
  [.sendInLoop ⟨[1, 2, 3], by decide⟩ (.ok 1), .sendInLoop ⟨[4], by decide⟩ (.ok 0), .shutdown,
    .handleWrite (.error .eintr), .handleWrite (.ok 2)]

def established : TcpConnection := (TcpConnection.new 64 false true).connectEstablished

theorem output_exact_trickle :
    ∃ c, Reachable start step NoFault c ∧ accepted c.log = [1, 2, 3] ∧
      accepted c.log ++ c.outputBuffer.content = sent c.log := by
  have hrun : (run (guarded step NoFault) trickle established).map (fun c => accepted c.log) =
      some [1, 2, 3] := by decide +kernel
  obtain ⟨c, hr, he⟩ := reachable_of_run start hrun ⟨64, false, true, rfl⟩
  exact ⟨c, hr, he, output_exact hr⟩

/-- Pending output keeps the channel watched for writing, the write end is shut
down only when nothing is pending, and from a call of shutdown on the handler that
empties the buffer shuts it down. -/
theorem pending_output_delays_shutdown (h : Reachable start step NoFault c) :
    (c.channel.isWriting = true ↔ c.outputBuffer.readableBytes ≠ 0) ∧
      (∀ earlier later, c.log = earlier ++ .shutdownWrite :: later → accepted earlier = sent earlier) ∧
      (c.state = .kDisconnecting → ShutsDown c) ∧
      (c.state = .kConnected →
        (∃ t, step .shutdown c = some t ∧
          t.log = c.log ++ .setState .kDisconnecting ::
            (if c.outputBuffer.readableBytes = 0 then [.shutdownWrite] else []) ∧
          ∀ u, Reachable (· = t) step NoFault u → ShutsDown u) ∧
        ∃ t, step .shutdownStore c = some t ∧ ∀ u, Reachable (· = t) step NoFault u → ShutsDown u) := by
  have hcarried := reachable_carried h
  have hi := hcarried.2
  refine ⟨hi, fun earlier later hl => ?_, shutsDown hi, fun hconnected => ⟨?_, ?_⟩⟩
  · rw [← taken_eq_accepted, ← given_eq_sent]
    exact hcarried.1.flow.barrier _ _ _ hl rfl
  · have hs : step .shutdown c = some (c.setState .kDisconnecting).shutdownInLoop := by
      rw [step, TcpConnection.shutdown, if_pos hconnected]
    have hi' : Interest (c.setState .kDisconnecting) := hi
    refine ⟨_, hs, ?_, fun u hu => shutsDown_of_reachable (step_carried (a := .shutdown) hcarried trivial hs) ?_ hu⟩
    · rw [log_shutdownInLoop hi']
      exact List.append_assoc c.log [_] _
    · exact (Grows.refl (c.setState .kDisconnecting)).shutdownInLoop.state
  · have hs : step .shutdownStore c = some (c.setState .kDisconnecting) := by
      rw [step, if_pos hconnected]
    exact ⟨_, hs, fun u hu => shutsDown_of_reachable (step_carried (a := .shutdownStore) hcarried trivial hs) rfl hu⟩

def halfSent : List Act := [.sendInLoop ⟨[1, 2, 3], by decide⟩ (.ok 1)]

theorem pending_output_delays_shutdown_trickle :
    ∃ c t u, Reachable start step NoFault c ∧ step .shutdown c = some t ∧
      t.log = c.log ++ [.setState .kDisconnecting] ∧ step (.handleWrite (.ok 1)) t = some u ∧
      u.outputBuffer.content = [3] ∧ ShutsDown u := by
  have hrun : (run (guarded step NoFault) halfSent established).map
      (fun c => (c.state, c.outputBuffer.readableBytes, ((step .shutdown c).bind (step (.handleWrite (.ok 1)))).map
        (fun u => u.outputBuffer.content))) = some (.kConnected, 2, some [3]) := by decide +kernel
  obtain ⟨c, hreach, he⟩ := reachable_of_run start hrun ⟨64, false, true, rfl⟩
  simp only [Prod.mk.injEq] at he
  obtain ⟨hconnected, hr, hnext⟩ := he
  obtain ⟨⟨t, ht, hlog, hlater⟩, -⟩ := (pending_output_delays_shutdown hreach).2.2.2 hconnected
  rw [hr, if_neg (by decide)] at hlog
  rw [ht, Option.bind_some] at hnext
  obtain ⟨u, hu, hcontent⟩ := Option.map_eq_some_iff.mp hnext
  have hlast : Reachable (· = t) step NoFault u := .next (.handleWrite (.ok 1)) (.start rfl) trivial hu
  exact ⟨c, t, u, hreach, ht, hlog, hu, hcontent, hlater u hlast⟩

end OutputStream

end LearnNote.Muduo
