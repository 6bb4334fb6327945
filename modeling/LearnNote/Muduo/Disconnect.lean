import LearnNote.Lib.Transition
import LearnNote.Muduo.LoopMoves
import LearnNote.Muduo.OutputGrowth

namespace LearnNote.Muduo

open Lib.History Lib.Transition

/-- Writing to the descriptor, filling the output buffer and enabling an event. -/
def Effect.busy : Effect → Bool
  | .write _ _ | .append _ | .enable _ => true
  | _ => false

namespace ConnectionLoop

/-- Nothing busy follows the disconnection. -/
def Quiet (log : List Effect) : Prop :=
  Throughout (fun earlier e => e.busy = true → .setState .kDisconnected ∉ earlier) log

def Disconnected (c : TcpConnection) : Prop := .setState .kDisconnected ∈ c.log

/-- The effects of c are followed by others, a disconnection not among them. -/
def GoesOn (c t : TcpConnection) : Prop := Extends (· ≠ .setState .kDisconnected) c.log t.log

variable {c d t : TcpConnection}

theorem quiet_of_connected (h : ¬ Disconnected c) : Quiet c.log := by
  intro earlier e later hl _ hm
  apply h
  rw [Disconnected, hl]
  exact List.mem_append_left _ hm

theorem GoesOn.connected (h : GoesOn c t) (hc : ¬ Disconnected c) : ¬ Disconnected t :=
  h.notMem (not_not_intro rfl) hc

theorem GoesOn.of_grows (h : Grows c t) : GoesOn c t :=
  h.log.mono (fun _ ho he => by rw [he] at ho; exact ho)

theorem goesOn_connectEstablished (c : TcpConnection) : GoesOn c c.connectEstablished :=
  ((Extends.concat (by simp) _).trans (.concat (by simp) _)).trans (.concat (by simp) _)

/-- After the disconnection the state admits no call, and the channel is not
watched for writing. -/
structure Inv (c : TcpConnection) : Prop where
  quiet : Quiet c.log
  late : Disconnected c → c.state ≠ .kConnecting ∧ c.state ≠ .kConnected ∧ c.channel.isWriting = false

theorem inv_of_connected (h : ¬ Disconnected c) : Inv c :=
  ⟨quiet_of_connected h, fun hd => absurd hd h⟩

theorem Inv.emit (h : Inv c) {e : Effect} (he : e ≠ .setState .kDisconnected) (hb : e.busy = false) :
    Inv (c.emit e) where
  quiet := throughout_concat.mpr ⟨h.quiet, fun hb' => absurd hb' (by simp [hb])⟩
  late := by
    intro hd
    rcases List.mem_append.mp hd with hd | hd
    · exact h.late hd
    · exact absurd (List.mem_singleton.mp hd).symm he

theorem Inv.queueInLoop (h : Inv c) (f : Functor) : Inv (c.queueInLoop f) := ⟨h.quiet, h.late⟩

theorem Inv.disconnecting (h : Inv c) : Inv (c.setState .kDisconnecting) :=
  Inv.emit (c := { c with state := .kDisconnecting }) ⟨h.quiet, fun hd => ⟨by simp, by simp, (h.late hd).2.2⟩⟩
    (by simp) rfl

theorem Inv.disconnect (h : Inv c) : Inv (c.setState .kDisconnected).disableAll := by
  refine ⟨?_, fun _ => ⟨by simp [TcpConnection.setState, TcpConnection.disableAll, TcpConnection.emit],
    by simp [TcpConnection.setState, TcpConnection.disableAll, TcpConnection.emit],
    by simp [TcpConnection.setState, TcpConnection.disableAll, TcpConnection.emit]⟩⟩
  exact throughout_concat.mpr ⟨throughout_concat.mpr ⟨h.quiet, by simp [Effect.busy]⟩, by simp [Effect.busy]⟩

theorem Inv.handleClose (h : Inv c) : Inv c.handleClose :=
  (h.disconnect.emit (by simp) rfl).emit (by simp) rfl

theorem Inv.connectDestroted (h : Inv c) : Inv c.connectDestroted := by
  rw [TcpConnection.connectDestroted]
  split
  · exact h.disconnect.emit (by simp) rfl
  · exact h

theorem Inv.handleRead (h : Inv c) {answer : Except Errno (List UInt8)} (hs : c.handleRead answer = some t) :
    Inv t := by
  obtain ⟨⟨n, b⟩, -, rfl⟩ := Option.map_eq_some_iff.mp hs
  have hb : Inv { c with inputBuffer := b } := ⟨h.quiet, h.late⟩
  simp only
  split
  · exact hb
  · exact hb.handleClose
  · exact hb.emit (by simp) rfl

theorem Inv.handleWrite (h : Inv c) (answer : Except Errno Nat) : Inv (c.handleWrite answer) := by
  by_cases hd : Disconnected c
  · rw [TcpConnection.handleWrite, (h.late hd).2.2]
    exact h
  · exact inv_of_connected ((GoesOn.of_grows (.handleWrite answer c)).connected hd)

theorem Inv.shutdownInLoop (h : Inv c) : Inv c.shutdownInLoop := by
  rw [TcpConnection.shutdownInLoop]
  split
  · exact h
  · exact h.emit (by simp) rfl

theorem Inv.shutdown (h : Inv c) : Inv c.shutdown := by
  rw [TcpConnection.shutdown]
  split
  · exact h.disconnecting.shutdownInLoop
  · exact h

theorem Inv.sendFileInLoop (h : Inv c) (fileDescriptor : Nat) (offset : Int) (count : Nat) (answer : Except Errno Nat) :
    Inv (c.sendFileInLoop fileDescriptor offset count answer) := by
  have hs : Inv (c.emit (.sendfile fileDescriptor offset count answer)) := h.emit (by simp) rfl
  rw [TcpConnection.sendFileInLoop]
  split
  · exact h
  · split
    · cases answer with
      | ok bytesSent =>
          simp only
          split
          · rw [TcpConnection.writeCompleted]
            split
            · exact hs.queueInLoop _
            · exact hs
          · exact hs.queueInLoop _
      | error errno =>
          simp only
          split
          · exact hs
          · exact hs.queueInLoop _
    · split
      · exact h
      · exact h.queueInLoop _

theorem not_quiet (hd : Disconnected c) {e : Effect} (hb : e.busy = true) (h : GoesOn (c.emit e) t) :
    ¬ Quiet t.log := by
  obtain ⟨es, hl, -⟩ := h
  have hlog : t.log = c.log ++ e :: es := hl.trans (List.append_assoc _ _ _)
  rw [hlog]
  exact not_throughout (fun hq => hq hb hd)

theorem Inv.sendInLoop_late (h : Inv c) (hd : Disconnected c) {data : List UInt8} {answer : Except Errno Nat}
    (hs : c.sendInLoop data answer = some t) :
    (data = [] ∧ c.outputBuffer.readableBytes ≠ 0 → Inv t) ∧
      (Quiet t.log → data = [] ∧ c.outputBuffer.readableBytes ≠ 0) := by
  have hsend : Inv (c.emit (.sendInLoop data)) := h.emit (by simp) rfl
  have hd' : Disconnected (c.emit (.sendInLoop data)) := List.mem_append_left _ hd
  by_cases hr : c.outputBuffer.readableBytes = 0
  · have hidle := And.intro (h.late hd).2.2 hr
    exact ⟨fun hn => absurd hr hn.2, fun hq => absurd hq (not_quiet hd' rfl (.of_grows (.write hidle hs)))⟩
  · rw [Grows.sendInLoop_of_busy (fun hidle => hr hidle.2)] at hs
    by_cases hnil : data = []
    · rw [TcpConnection.sendRest, if_pos hnil] at hs
      cases hs
      exact ⟨fun _ => hsend, fun _ => ⟨hnil, hr⟩⟩
    · exact ⟨fun hn => absurd hn.1 hnil, fun hq => absurd hq (not_quiet hd' rfl (.of_grows (.append hnil hs)))⟩

/-- A functor is not a sendInLoop that comes after the disconnection, unless that
one has nothing to send and finds the output buffer not empty. -/
def Timely (c : TcpConnection) : Functor → Prop
  | .sendInLoop _ len => Disconnected c → len = 0 ∧ c.outputBuffer.readableBytes ≠ 0
  | _ => True

def Live (a : Act) (s : ConnectionLoop) : Prop :=
  match a with
  | .loop (.runPending _) => ∀ f ∈ s.conn.pendingFunctors.head?, Timely s.conn f
  | _ => True

instance (c : TcpConnection) : DecidablePred (Timely c)
  | .sendInLoop _ _ => inferInstanceAs (Decidable (Effect.setState .kDisconnected ∈ c.log → _))
  | .sendFileInLoop _ _ _ | .shutdownInLoop | .connectDestroted | .writeCompleteCallback
  | .highWaterMarkCallback _ => inferInstanceAs (Decidable True)

instance (a : Act) (s : ConnectionLoop) : Decidable (Live a s) := by
  unfold Live
  split <;> infer_instance

variable {s u : ConnectionLoop}

theorem start_inv (h : start s) : Inv s.conn := by
  obtain ⟨mark, high, complete, memory, rfl⟩ := h
  exact inv_of_connected List.not_mem_nil

theorem bytes_eq_nil {memory : Nat → UInt8} {data len : Nat} : bytes memory data len = [] ↔ len = 0 := by
  rw [bytes, List.map_eq_nil_iff, List.range_eq_nil]

/-- Only a sendInLoop that is not timely breaks the invariant, and it breaks quiet. -/
theorem runs_inv {memory : Nat → UInt8} {answer : Except Errno Nat} (h : Inv c) {f : Functor}
    (hr : Runs memory answer c f t) : (Timely c f → Inv t) ∧ (Quiet t.log → Timely c f) := by
  cases hr with
  | sendInLoop data len t hle hs =>
      by_cases hd : Disconnected c
      · obtain ⟨hinv, htimely⟩ := h.sendInLoop_late hd hs
        rw [bytes_eq_nil] at hinv htimely
        exact ⟨fun hf => hinv (hf hd), fun hq _ => htimely hq⟩
      · exact ⟨fun _ => inv_of_connected ((GoesOn.of_grows (.sendInLoop hs)).connected hd), fun _ hd' => absurd hd' hd⟩
  | sendFileInLoop => exact ⟨fun _ => h.sendFileInLoop .., fun _ => trivial⟩
  | shutdownInLoop => exact ⟨fun _ => h.shutdownInLoop, fun _ => trivial⟩
  | connectDestroted => exact ⟨fun _ => h.connectDestroted, fun _ => trivial⟩
  | writeCompleteCallback => exact ⟨fun _ => h, fun _ => trivial⟩
  | highWaterMarkCallback => exact ⟨fun _ => h, fun _ => trivial⟩

theorem loopMoves_inv {a : LoopAct} (h : Inv s.conn) (hm : LoopMoves s a t) :
    (Live (.loop a) s → Inv t) ∧ (Quiet t.log → Live (.loop a) s) := by
  cases hm with
  | runPending answer f fs t hf hr =>
      have hfs : Inv { s.conn with pendingFunctors := fs } := ⟨h.quiet, h.late⟩
      have hlive : Live (.loop (.runPending answer)) s ↔ Timely s.conn f := by simp [Live, hf]
      rw [hlive]
      exact runs_inv hfs hr
  | connectEstablished hstate =>
      have hc : ¬ Disconnected s.conn := fun hd => (h.late hd).1 hstate
      exact ⟨fun _ => inv_of_connected ((goesOn_connectEstablished _).connected hc), fun _ => trivial⟩
  | connectDestroted => exact ⟨fun _ => h.connectDestroted, fun _ => trivial⟩
  | handleRead answer t hstate hs => exact ⟨fun _ => h.handleRead hs, fun _ => trivial⟩
  | handleWrite answer => exact ⟨fun _ => h.handleWrite answer, fun _ => trivial⟩
  | handleClose => exact ⟨fun _ => h.handleClose, fun _ => trivial⟩
  | send data answer t hstate hle hs =>
      have hc : ¬ Disconnected s.conn := fun hd => (h.late hd).2.1 hstate
      exact ⟨fun _ => inv_of_connected ((GoesOn.of_grows (.sendInLoop hs)).connected hc), fun _ => trivial⟩
  | sendFile => exact ⟨fun _ => h.sendFileInLoop .., fun _ => trivial⟩
  | sendOff => exact ⟨fun _ => h, fun _ => trivial⟩
  | sendFileOff => exact ⟨fun _ => h, fun _ => trivial⟩
  | shutdown => exact ⟨fun _ => h.shutdown, fun _ => trivial⟩

theorem call_inv {n : Nat} {next : Caller} (h : Inv s.conn) (hs : s.call n next = some u) : Inv u.conn := by
  rw [call] at hs
  split at hs
  · cases hs
    split <;> exact h
  · cases hs

theorem advances_inv {n : Nat} (h : Inv s.conn) (hm : Advances n s u) : Inv u.conn := by
  cases hm with
  | queueSend => exact h.queueInLoop _
  | queueSendFile => exact h.queueInLoop _
  | storeState => exact h.disconnecting
  | queueShutdown => exact h.queueInLoop _

theorem step_inv {a : Act} (h : Inv s.conn) (hs : step a s = some u) :
    (Live a s → Inv u.conn) ∧ (Quiet u.conn.log → Live a s) := by
  cases a with
  | send n data len => exact ⟨fun _ => call_inv h hs, fun _ => trivial⟩
  | sendFile n fileDescriptor offset count => exact ⟨fun _ => call_inv h hs, fun _ => trivial⟩
  | shutdown n => exact ⟨fun _ => call_inv h hs, fun _ => trivial⟩
  | advance n => exact ⟨fun _ => advances_inv h (advances_of_advance hs), fun _ => trivial⟩
  | poke x v =>
      cases hs
      exact ⟨fun _ => h, fun _ => trivial⟩
  | loop a =>
      obtain ⟨c, hc, rfl⟩ := Option.map_eq_some_iff.mp hs
      exact loopMoves_inv h (moves_of_loopStep hc)

/-- In every run whose functors are timely nothing is written, appended or enabled
after the disconnection, and a step keeps this exactly when its functor is. -/
theorem quiet_after_disconnect (h : Reachable start step Live s) :
    Quiet s.conn.log ∧ ∀ a u, step a s = some u → (Live a s ↔ Quiet u.conn.log) := by
  have hi : Inv s.conn := h.invariant (I := fun s => Inv s.conn) (fun _ => start_inv)
    (fun _ _ _ hi hl hs => (step_inv hi hs).1 hl)
  exact ⟨hi.quiet, fun a u hs => ⟨fun hl => ((step_inv hi hs).1 hl).quiet, (step_inv hi hs).2⟩⟩

def timelySend : List Act :=
  [.loop .connectEstablished, .send 1 0 2, .advance 1, .loop (.runPending (.ok 1)), .loop (.handleWrite (.ok 1)),
    .loop (.handleRead (.ok []))]

def lateSend : List Act :=
  [.loop .connectEstablished, .send 1 0 2, .advance 1, .loop (.handleRead (.ok [])), .loop (.runPending (.ok 2))]

theorem quiet_after_disconnect_timely :
    ∃ s, Reachable start step Live s ∧ s.conn.state = .kDisconnected ∧ .append [97] ∈ s.conn.log ∧
      Quiet s.conn.log := by
  have hrun : (run (guarded step Live) timelySend blank).map
      (fun s => (s.conn.state, decide (Effect.append [97] ∈ s.conn.log))) = some (.kDisconnected, true) := by
    decide +kernel
  obtain ⟨s, hr, he⟩ := reachable_of_run start hrun ⟨64, false, true, _, rfl⟩
  simp only [Prod.mk.injEq, decide_eq_true_eq] at he
  exact ⟨s, hr, he.1, he.2, (quiet_after_disconnect hr).1⟩

theorem late_send_writes : ¬ ∀ s, Reachable start step always s → Quiet s.conn.log := by
  intro h
  have hrun : (run (guarded step always) lateSend blank).map (fun s => s.conn.log) =
      some ([.setState .kConnected, .enable Channel.kReadEvent, .connectionCallback, .setState .kDisconnected,
        .disable (~~~Channel.kNoneEvent), .connectionCallback, .closeCallback, .sendInLoop [97, 97]] ++
        [.write [97, 97] (.ok 2)]) := by decide +kernel
  obtain ⟨s, hr, he⟩ := reachable_of_run start hrun ⟨64, false, true, _, rfl⟩
  exact h s hr _ _ _ he rfl (by decide)

end ConnectionLoop

end LearnNote.Muduo
