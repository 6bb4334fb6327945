import LearnNote.Lib.Transition
import LearnNote.Muduo.LoopMoves
import LearnNote.Muduo.OutputGrowth

namespace LearnNote.Muduo

open Lib.Transition

def StateE.rank : StateE → Nat
  | .kConnecting => 0
  | .kConnected => 1
  | .kDisconnecting => 2
  | .kDisconnected => 3

theorem StateE.rank_le (state : StateE) : state.rank ≤ 3 := by
  cases state <;> decide

theorem StateE.eq_of_rank {state : StateE} (h : 3 ≤ state.rank) : state = .kDisconnected := by
  cases state with
  | kDisconnected => rfl
  | kConnecting | kConnected | kDisconnecting => exact absurd h (by decide)

namespace TcpConnection

variable {c t : TcpConnection}

theorem rank_shutdown (c : TcpConnection) : c.state.rank ≤ c.shutdown.state.rank := by
  rw [shutdown]
  split
  next h =>
    rw [((Grows.refl _).shutdownInLoop).state, h]
    exact Nat.le_succ 1
  next => exact Nat.le_refl _

theorem rank_connectDestroted (c : TcpConnection) : c.state.rank ≤ c.connectDestroted.state.rank := by
  rw [connectDestroted]
  split
  · exact c.state.rank_le
  · exact Nat.le_refl _

theorem rank_handleRead {answer : Except Errno (List UInt8)} (h : c.handleRead answer = some t) :
    c.state.rank ≤ t.state.rank := by
  obtain ⟨⟨n, b⟩, -, rfl⟩ := Option.map_eq_some_iff.mp h
  simp only
  split
  · exact Nat.le_refl _
  · exact c.state.rank_le
  · exact Nat.le_refl _

end TcpConnection

namespace ConnectionLoop

open TcpConnection

variable {s u : ConnectionLoop} {c : TcpConnection}

/-- A shutdown that has found the connection connected stores kDisconnecting
before the connection is disconnected. -/
def Prompt (a : Act) (s : ConnectionLoop) : Prop :=
  match a with
  | .advance t => s.callers t = .storeState → s.conn.state ≠ .kDisconnected
  | _ => True

instance (a : Act) (s : ConnectionLoop) : Decidable (Prompt a s) := by
  unfold Prompt
  split <;> infer_instance

theorem rank_runs {memory : Nat → UInt8} {answer : Except Errno Nat} {t : TcpConnection} {f : Functor}
    (hr : Runs memory answer c f t) : c.state.rank ≤ t.state.rank := by
  cases hr with
  | sendInLoop data len t hle hs => rw [(Grows.sendInLoop hs).state]
  | sendFileInLoop => rw [Grows.state_sendFileInLoop]
  | shutdownInLoop => rw [((Grows.refl _).shutdownInLoop).state]
  | connectDestroted => exact rank_connectDestroted c
  | writeCompleteCallback => exact Nat.le_refl _
  | highWaterMarkCallback => exact Nat.le_refl _

theorem rank_loopMoves {a : LoopAct} (hm : LoopMoves s a c) : s.conn.state.rank ≤ c.state.rank := by
  cases hm with
  | runPending answer f fs t hf hr =>
      have hrank := rank_runs hr
      exact hrank
  | connectEstablished hstate =>
      rw [hstate]
      exact Nat.zero_le _
  | connectDestroted => exact rank_connectDestroted s.conn
  | handleRead answer t hstate hs => exact rank_handleRead hs
  | handleWrite => rw [(Grows.handleWrite _ _).state]
  | handleClose => exact s.conn.state.rank_le
  | send data answer t hstate hle hs => rw [(Grows.sendInLoop hs).state]
  | sendFile => rw [Grows.state_sendFileInLoop]
  | sendOff => exact Nat.le_refl _
  | sendFileOff => exact Nat.le_refl _
  | shutdown => exact rank_shutdown s.conn

theorem state_call {n : Nat} {next : Caller} (h : s.call n next = some u) : u.conn.state = s.conn.state := by
  rw [call] at h
  split at h
  · cases h
    split <;> rfl
  · cases h

/-- The store of a shutdown is the only step of another thread that changes the state. -/
theorem rank_advances {n : Nat} (hm : Advances n s u) :
    (s.callers n = .storeState → s.conn.state ≠ .kDisconnected) ↔ s.conn.state.rank ≤ u.conn.state.rank := by
  cases hm with
  | queueSend data len hn => exact iff_of_true (by simp [hn]) (Nat.le_refl _)
  | queueSendFile fileDescriptor offset count hn => exact iff_of_true (by simp [hn]) (Nat.le_refl _)
  | queueShutdown hn => exact iff_of_true (by simp [hn]) (Nat.le_refl _)
  | storeState hn =>
      rw [state_setState]
      cases hstate : s.conn.state with
      | kDisconnected => exact iff_of_false (fun hne => hne hn rfl) (by decide)
      | kConnecting | kConnected | kDisconnecting => exact iff_of_true (by simp) (by decide)

theorem rank_step {a : Act} (h : step a s = some u) : Prompt a s ↔ s.conn.state.rank ≤ u.conn.state.rank := by
  cases a with
  | send n data len => exact iff_of_true trivial (Nat.le_of_eq (congrArg _ (state_call h).symm))
  | sendFile n fileDescriptor offset count =>
      exact iff_of_true trivial (Nat.le_of_eq (congrArg _ (state_call h).symm))
  | shutdown n => exact iff_of_true trivial (Nat.le_of_eq (congrArg _ (state_call h).symm))
  | advance n => exact rank_advances (advances_of_advance h)
  | poke x v =>
      cases h
      exact iff_of_true trivial (Nat.le_refl _)
  | loop a =>
      obtain ⟨c, hc, rfl⟩ := Option.map_eq_some_iff.mp h
      exact iff_of_true trivial (rank_loopMoves (moves_of_loopStep hc))

theorem rank_run (h : Reachable (· = s) step Prompt u) : s.conn.state.rank ≤ u.conn.state.rank := by
  induction h with
  | start h => exact Nat.le_of_eq (congrArg (fun s => s.conn.state.rank) h.symm)
  | next a _ hp hs ih => exact ih.trans ((rank_step hs).mp hp)

/-- From every state the runs whose shutdowns store in time never go back, and
stay disconnected. A step goes back exactly when it is a store that comes late. -/
theorem state_moves_forward (s : ConnectionLoop) :
    (∀ u, Reachable (· = s) step Prompt u → s.conn.state.rank ≤ u.conn.state.rank ∧
      (s.conn.state = .kDisconnected → u.conn.state = .kDisconnected)) ∧
    ∀ a u, step a s = some u → (Prompt a s ↔ s.conn.state.rank ≤ u.conn.state.rank) := by
  refine ⟨fun u hu => ⟨rank_run hu, fun hs => StateE.eq_of_rank ?_⟩, fun _ _ => rank_step⟩
  have hle := rank_run hu
  rwa [hs] at hle

def connected : ConnectionLoop := ⟨(TcpConnection.new 64 false true).connectEstablished, fun _ => 0, fun _ => .idle⟩

theorem state_moves_forward_shutdown :
    ∃ u, Reachable (· = connected) step Prompt u ∧ u.conn.state = .kDisconnected ∧
      connected.conn.state.rank ≤ u.conn.state.rank := by
  have hrun : (run (guarded step Prompt) [.shutdown 1, .advance 1, .advance 1, .loop .handleClose] connected).map
      (fun s => s.conn.state) = some .kDisconnected := by decide +kernel
  obtain ⟨u, hr, hu⟩ := reachable_of_run (· = connected) hrun rfl
  exact ⟨u, hr, hu, ((state_moves_forward connected).1 u hr).1⟩

/-- The thread has loaded kConnected, the peer closes, and the store comes after. -/
theorem late_store_goes_back :
    ¬ ∀ s u, Reachable start step always s → Reachable (· = s) step always u →
      s.conn.state = .kDisconnected → u.conn.state = .kDisconnected := by
  intro h
  have hs : (run (guarded step always) [.loop .connectEstablished, .shutdown 1, .loop .handleClose] blank).map
      (fun s => (s.conn.state, (run (guarded step always) [.advance 1] s).map (fun u => u.conn.state))) =
      some (.kDisconnected, some .kDisconnecting) := by decide +kernel
  obtain ⟨s, hr, he⟩ := reachable_of_run start hs ⟨64, false, true, _, rfl⟩
  simp only [Prod.mk.injEq] at he
  obtain ⟨u, hu, he'⟩ := Option.map_eq_some_iff.mp he.2
  have hback := h s u hr (Reachable.run (.start rfl) _ hu) he.1
  rw [he'] at hback
  cases hback

end ConnectionLoop

end LearnNote.Muduo
