import Mathlib.Data.List.TakeWhile
import LearnNote.Lib.Transition

namespace LearnNote.Server

open Lib.Transition

namespace Connection

/-- Where an echo task is: in its loop of reads, about to send, about to clear the buffer. -/
inductive Task
  | reading
  | sending
  | clearing
  | done
deriving DecidableEq

end Connection

/-- The buffer that the echo tasks of a connection share, and the socket: the bytes that
have arrived and are not read, whether the peer has closed, whether an event is due. All
the bytes that have arrived and that were written, and how many at the front of the buffer
were written by a send. -/
structure Connection where
  readBuffer : List UInt8
  socket : List UInt8
  closed : Bool
  edge : Bool
  tasks : List Connection.Task
  received : List UInt8
  written : List UInt8
  sent : Nat

namespace Connection

/-- Buffer::append stops at a zero byte. -/
def append (str : List UInt8) (buf : List UInt8) : List UInt8 := buf ++ str.takeWhile (· ≠ 0)

def goTo (i : Nat) (k : Task) (s : Connection) : Connection := { s with tasks := s.tasks.set i k }

def send (s : Connection) : Connection :=
  { s with
    written := s.written ++ s.readBuffer
    sent := s.readBuffer.length }

def clear (s : Connection) : Connection :=
  { s with
    readBuffer := []
    sent := 0 }

inductive Act
  | arrive (bytes : List UInt8)
  | close
  | handleEvent
  | read (i n : Nat)
  | interrupted (i : Nat)
  | again (i : Nat)
  | endOfFile (i : Nat)
  | reset (i : Nat)
  | send (i : Nat)
  | clear (i : Nat)

/-- Bytes arrive, or the peer closes, and raise an event; each event posts a task. A read
takes up to 1024 bytes, or is interrupted, or finds nothing, or the end, or fails. -/
def step : Act → Connection → Option Connection
  | .arrive bytes, s =>
      if bytes ≠ [] ∧ s.closed = false then
        some { s with socket := s.socket ++ bytes, received := s.received ++ bytes, edge := true }
      else none
  | .close, s => if s.closed = false then some { s with closed := true, edge := true } else none
  | .handleEvent, s =>
      if s.edge = true then some { s with edge := false, tasks := s.tasks ++ [.reading] } else none
  | .read i n, s =>
      if s.tasks[i]? = some .reading ∧ 0 < n ∧ n ≤ 1024 ∧ n ≤ s.socket.length then
        some { s with readBuffer := append (s.socket.take n) s.readBuffer, socket := s.socket.drop n }
      else none
  | .interrupted i, s => if s.tasks[i]? = some .reading then some s else none
  | .again i, s =>
      if s.tasks[i]? = some .reading ∧ s.socket = [] ∧ s.closed = false then some (s.goTo i .sending) else none
  | .endOfFile i, s =>
      if s.tasks[i]? = some .reading ∧ s.socket = [] ∧ s.closed = true then some (s.goTo i .done) else none
  | .reset i, s => if s.tasks[i]? = some .reading then some (s.goTo i .done) else none
  | .send i, s => if s.tasks[i]? = some .sending then some (s.send.goTo i .clearing) else none
  | .clear i, s => if s.tasks[i]? = some .clearing then some (s.clear.goTo i .done) else none

def init : Connection where
  readBuffer := []
  socket := []
  closed := false
  edge := false
  tasks := []
  received := []
  written := []
  sent := 0

def start (s : Connection) : Prop := s = init

def NulFree : Act → Prop
  | .arrive bytes => 0 ∉ bytes
  | _ => True

instance : DecidablePred NulFree
  | .arrive _ => inferInstanceAs (Decidable (_ ∉ _))
  | .close | .handleEvent | .read _ _ | .interrupted _ | .again _ | .endOfFile _ | .reset _ | .send _ | .clear _ =>
    inferInstanceAs (Decidable True)

def unsent (s : Connection) : List UInt8 := s.readBuffer.drop s.sent

def Sends (tasks : List Task) : Prop := .reading ∈ tasks ∨ .sending ∈ tasks

instance (tasks : List Task) : Decidable (Sends tasks) := inferInstanceAs (Decidable (_ ∨ _))

/-- A send finds nothing in the buffer that another one has written already, a clear finds
nothing that was not written, and a task that leaves without a send leaves no bytes behind
that no other task is going to echo. -/
def Exclusive : Act → Connection → Prop
  | .send _, s => s.sent = 0
  | .clear _, s => s.unsent = []
  | .endOfFile i, s | .reset i, s =>
      (s.unsent ≠ [] → Sends (s.tasks.eraseIdx i)) ∧
        (s.socket ≠ [] → s.edge = true ∨ .reading ∈ s.tasks.eraseIdx i)
  | _, _ => True

instance : ∀ (a : Act) (s : Connection), Decidable (Exclusive a s)
  | .send _, _ => inferInstanceAs (Decidable (_ = _))
  | .clear _, _ => inferInstanceAs (Decidable (_ = _))
  | .endOfFile _, _ | .reset _, _ => inferInstanceAs (Decidable ((_ → _) ∧ (_ → _)))
  | .arrive _, _ | .close, _ | .handleEvent, _ | .read _ _, _ | .interrupted _, _ | .again _, _ =>
    inferInstanceAs (Decidable True)

/-- Every byte has been written once, or is going to be. -/
structure Echoes (s : Connection) : Prop where
  flow : s.received = s.written ++ s.unsent ++ s.socket
  sends : s.unsent ≠ [] → Sends s.tasks
  reads : s.socket ≠ [] → s.edge = true ∨ .reading ∈ s.tasks

structure Inv (s : Connection) : Prop where
  echoes : Echoes s
  sent : s.sent ≤ s.readBuffer.length
  nulFree : 0 ∉ s.socket

variable {s t : Connection} {i : Nat} {k x : Task} {a : Act}

theorem mem_goTo (hi : s.tasks[i]? = some x) (hk : k ≠ x) (y : Task) (h : k ∈ s.tasks) :
    k ∈ (s.goTo i y).tasks := by
  obtain ⟨j, hj⟩ := List.mem_iff_getElem?.mp h
  have hne : i ≠ j := by
    rintro rfl
    exact hk (Option.some.inj (hj.symm.trans hi))
  exact List.mem_of_getElem? ((List.getElem?_set_ne hne).trans hj)

theorem mem_goTo_done (hk : k ≠ .done) : k ∈ (s.goTo i .done).tasks ↔ k ∈ s.tasks.eraseIdx i := by
  rw [List.mem_eraseIdx_iff_getElem?, goTo, List.mem_iff_getElem?]
  constructor
  · rintro ⟨j, hj⟩
    have hne : j ≠ i := by
      rintro rfl
      rw [List.getElem?_set_self'] at hj
      obtain ⟨_, -, he⟩ := Option.map_eq_some_iff.mp hj
      exact hk he.symm
    exact ⟨j, hne, (List.getElem?_set_ne hne.symm).symm.trans hj⟩
  · rintro ⟨j, hne, hj⟩
    exact ⟨j, (List.getElem?_set_ne hne.symm).trans hj⟩

theorem append_of_nulFree {str : List UInt8} (h : 0 ∉ str) (buf : List UInt8) : append str buf = buf ++ str := by
  rw [append, List.takeWhile_eq_self_iff.mpr]
  intro b hb
  simpa using fun he : b = 0 => h (he ▸ hb)

theorem kept_step (h : Inv s) (hn : NulFree a) (hs : step a s = some t) :
    t.sent ≤ t.readBuffer.length ∧ 0 ∉ t.socket := by
  obtain ⟨-, hsent, hnul⟩ := h
  cases a with
  | arrive bytes =>
      obtain ⟨-, he⟩ := Option.ite_none_right_eq_some.mp hs
      cases he
      refine ⟨hsent, fun hin => ?_⟩
      exact (List.mem_append.mp hin).elim hnul hn
  | read i n =>
      obtain ⟨-, he⟩ := Option.ite_none_right_eq_some.mp hs
      cases he
      refine ⟨hsent.trans ?_, fun hin => hnul (List.mem_of_mem_drop hin)⟩
      rw [append, List.length_append]
      exact Nat.le_add_right _ _
  | send i =>
      obtain ⟨-, he⟩ := Option.ite_none_right_eq_some.mp hs
      cases he
      exact ⟨le_rfl, hnul⟩
  | clear i =>
      obtain ⟨-, he⟩ := Option.ite_none_right_eq_some.mp hs
      cases he
      exact ⟨le_rfl, hnul⟩
  | _ =>
      obtain ⟨-, he⟩ := Option.ite_none_right_eq_some.mp hs
      cases he
      exact ⟨hsent, hnul⟩

theorem echoes_read (h : Inv s) {n : Nat} (hi : s.tasks[i]? = some .reading) :
    Echoes { s with readBuffer := append (s.socket.take n) s.readBuffer, socket := s.socket.drop n } := by
  have hreading : .reading ∈ s.tasks := List.mem_of_getElem? hi
  refine ⟨?_, fun _ => .inl hreading, fun _ => .inr hreading⟩
  rw [unsent, append_of_nulFree (fun hin => h.nulFree (List.mem_of_mem_take hin)),
    List.drop_append_of_le_length h.sent, h.echoes.flow, unsent]
  simp

theorem echoes_goTo_done (h : Inv s) :
    (s.unsent ≠ [] → Sends (s.tasks.eraseIdx i)) ∧
      (s.socket ≠ [] → s.edge = true ∨ .reading ∈ s.tasks.eraseIdx i) ↔
      Echoes (s.goTo i .done) := by
  have hsends : Sends (s.goTo i .done).tasks ↔ Sends (s.tasks.eraseIdx i) :=
    or_congr (mem_goTo_done (by simp)) (mem_goTo_done (by simp))
  have hreading : .reading ∈ (s.goTo i .done).tasks ↔ .reading ∈ s.tasks.eraseIdx i := mem_goTo_done (by simp)
  constructor
  · rintro ⟨h1, h2⟩
    exact ⟨h.echoes.flow, fun hu => hsends.mpr (h1 hu), fun hr => (h2 hr).imp_right hreading.mpr⟩
  · rintro ⟨-, h1, h2⟩
    exact ⟨fun hu => hsends.mp (h1 hu), fun hr => (h2 hr).imp_right hreading.mp⟩

theorem echoes_send (h : Inv s) (hi : s.tasks[i]? = some .sending) :
    s.sent = 0 ↔ Echoes (s.send.goTo i .clearing) := by
  have hnil : (s.send.goTo i .clearing).unsent = [] := List.drop_length
  constructor
  · intro hzero
    refine ⟨?_, fun hu => absurd hnil hu,
      fun hr => (h.echoes.reads hr).imp_right (mem_goTo (s := s.send) hi (by simp) _)⟩
    have hflow := h.echoes.flow
    rw [unsent, hzero, List.drop_zero] at hflow
    rw [hnil, List.append_nil]
    exact hflow
  · intro ht
    have hflow := ht.flow
    rw [hnil, List.append_nil] at hflow
    have hsame := hflow.symm.trans h.echoes.flow
    have hlength := congrArg List.length (List.append_cancel_left (List.append_cancel_right hsame))
    rw [unsent, List.length_drop] at hlength
    have hsent := h.sent
    omega

theorem echoes_clear (h : Inv s) (hi : s.tasks[i]? = some .clearing) :
    s.unsent = [] ↔ Echoes (s.clear.goTo i .done) := by
  constructor
  · intro hnil
    refine ⟨?_, fun hu => absurd rfl hu,
      fun hr => (h.echoes.reads hr).imp_right (mem_goTo (s := s.clear) hi (by simp) _)⟩
    have hflow := h.echoes.flow
    rw [hnil] at hflow
    exact hflow
  · intro ht
    have hflow := ht.flow
    have hsame := hflow.symm.trans h.echoes.flow
    exact (List.append_cancel_left (List.append_cancel_right hsame)).symm

/-- Whether a step keeps every byte on its way, once. -/
theorem exclusive_iff (h : Inv s) (hs : step a s = some t) : Exclusive a s ↔ Echoes t := by
  cases a with
  | arrive bytes =>
      obtain ⟨-, he⟩ := Option.ite_none_right_eq_some.mp hs
      cases he
      refine iff_of_true trivial ⟨?_, h.echoes.sends, fun _ => .inl rfl⟩
      rw [h.echoes.flow, List.append_assoc]
      rfl
  | close =>
      obtain ⟨-, he⟩ := Option.ite_none_right_eq_some.mp hs
      cases he
      exact iff_of_true trivial ⟨h.echoes.flow, h.echoes.sends, fun _ => .inl rfl⟩
  | handleEvent =>
      obtain ⟨-, he⟩ := Option.ite_none_right_eq_some.mp hs
      cases he
      have hreading : .reading ∈ s.tasks ++ [.reading] := List.mem_append_right _ List.mem_cons_self
      exact iff_of_true trivial ⟨h.echoes.flow, fun _ => .inl hreading, fun _ => .inr hreading⟩
  | read i n =>
      obtain ⟨⟨hi, -⟩, he⟩ := Option.ite_none_right_eq_some.mp hs
      cases he
      exact iff_of_true trivial (echoes_read h hi)
  | interrupted i =>
      obtain ⟨-, he⟩ := Option.ite_none_right_eq_some.mp hs
      cases he
      exact iff_of_true trivial h.echoes
  | again i =>
      obtain ⟨⟨hi, hempty, -⟩, he⟩ := Option.ite_none_right_eq_some.mp hs
      cases he
      have hsending : .sending ∈ (s.goTo i .sending).tasks := List.mem_set (List.getElem?_eq_some_iff.mp hi).1 _
      exact iff_of_true trivial ⟨h.echoes.flow, fun _ => .inr hsending, fun hr => absurd hempty hr⟩
  | endOfFile i =>
      obtain ⟨-, he⟩ := Option.ite_none_right_eq_some.mp hs
      cases he
      exact echoes_goTo_done h
  | reset i =>
      obtain ⟨-, he⟩ := Option.ite_none_right_eq_some.mp hs
      cases he
      exact echoes_goTo_done h
  | send i =>
      obtain ⟨hi, he⟩ := Option.ite_none_right_eq_some.mp hs
      cases he
      exact echoes_send h hi
  | clear i =>
      obtain ⟨hi, he⟩ := Option.ite_none_right_eq_some.mp hs
      cases he
      exact echoes_clear h hi

/-- When all tasks have finished, what was written is what has been read, and, when no
event is due, all that has arrived, as long as the tasks keep off each other's bytes; a
step where they do not breaks the flow. -/
theorem echoed_once (s : Connection) (h : Reachable start step (fun a s => NulFree a ∧ Exclusive a s) s) :
    ((∀ k ∈ s.tasks, k = .done) → s.received = s.written ++ s.socket ∧ (s.edge = false → s.written = s.received)) ∧
      ∀ a t, step a s = some t → (Exclusive a s ↔ Echoes t) := by
  have hi : Inv s := by
    apply h.invariant (I := Inv)
    · rintro _ rfl
      exact ⟨⟨rfl, fun hu => absurd rfl hu, fun hr => absurd rfl hr⟩, le_rfl, List.not_mem_nil⟩
    · intro a s t hi hc hs
      exact ⟨(exclusive_iff hi hs).mp hc.2, (kept_step hi hc.1 hs).1, (kept_step hi hc.1 hs).2⟩
  refine ⟨fun hdone => ?_, fun a t hs => exclusive_iff hi hs⟩
  have hnot : ∀ {k : Task}, k ≠ .done → k ∉ s.tasks := fun hk hin => hk (hdone _ hin)
  have hunsent : s.unsent = [] := by
    by_contra hu
    exact (hi.echoes.sends hu).elim (hnot (by simp)) (hnot (by simp))
  have hflow := hi.echoes.flow
  rw [hunsent, List.append_nil] at hflow
  refine ⟨hflow, fun hedge => ?_⟩
  have hsocket : s.socket = [] := by
    by_contra hr
    rcases hi.echoes.reads hr with he | he
    · cases hedge.symm.trans he
    · exact hnot (by simp) he
  rw [hflow, hsocket, List.append_nil]

theorem echoed_once_two_events :
    ∃ s, Reachable start step (fun a s => NulFree a ∧ Exclusive a s) s ∧ s.received = [97, 98] ∧
      s.tasks.length = 2 ∧ s.written = s.received := by
  have hrun : (run (guarded step (fun a s => NulFree a ∧ Exclusive a s)) [.arrive [97], .handleEvent, .read 0 1,
      .again 0, .arrive [98], .handleEvent, .read 1 1, .send 0, .clear 0, .again 1, .send 1, .clear 1] init).map
      (fun s => (s.received, s.tasks, s.edge)) = some ([97, 98], [.done, .done], false) := by decide +kernel
  obtain ⟨s, hr, he⟩ := reachable_of_run start hrun rfl
  simp only [Prod.mk.injEq] at he
  obtain ⟨hreceived, htasks, hedge⟩ := he
  have hdone := (echoed_once s hr).1 (by rw [htasks]; simp)
  exact ⟨s, hr, hreceived, by rw [htasks]; rfl, hdone.2 hedge⟩

/-- The second task sends what the first one has sent and not cleared. -/
theorem two_tasks_send_twice :
    ¬ ∀ s, Reachable start step (fun a _ => NulFree a) s → (∀ k ∈ s.tasks, k = .done) → s.edge = false →
      s.written = s.received := by
  intro h
  have hrun : (run (guarded step (fun a _ => NulFree a)) [.arrive [97], .handleEvent, .read 0 1, .again 0,
      .arrive [98], .handleEvent, .read 1 1, .send 0, .again 1, .send 1, .clear 0, .clear 1] init).map
      (fun s => (s.received, s.written, s.tasks, s.edge)) =
        some ([97, 98], [97, 98, 97, 98], [.done, .done], false) := by decide +kernel
  obtain ⟨s, hr, he⟩ := reachable_of_run start hrun rfl
  simp only [Prod.mk.injEq] at he
  obtain ⟨hreceived, hwritten, htasks, hedge⟩ := he
  have hsame := h s hr (by rw [htasks]; simp) hedge
  rw [hwritten, hreceived] at hsame
  cases hsame

end Connection

end LearnNote.Server
