import LearnNote.Lib.Transition
import LearnNote.Muduo.LoopMoves

namespace LearnNote.Muduo

open Lib.Transition

def Effect.payload : Effect → Option (List UInt8)
  | .sendInLoop data => some data
  | _ => none

/-- The address and the length that a queued send is bound to. -/
def Functor.buffer : Functor → Option (Nat × Nat)
  | .sendInLoop data len => some (data, len)
  | _ => none

/-- The functors of send and shutdown are bound to this, the others to a shared pointer. -/
def Functor.shares : Functor → Bool
  | .sendInLoop _ _ | .shutdownInLoop => false
  | .sendFileInLoop _ _ _ | .connectDestroted | .writeCompleteCallback | .highWaterMarkCallback _ => true

/-- A connection with what its sends were given: the contents of the buffers, at the time of
the call, of the threads that are in a call, of the queued sends and of those that sendInLoop
was called for. There are none any more when the string has been destroyed. The owners hold a
shared pointer to the connection, and so may the functors that are queued and those that have
run in this pass of the loop. -/
structure SendCalls where
  loop : ConnectionLoop
  calling : Nat → Option (List UInt8)
  queued : List (Option (List UInt8))
  called : List (List UInt8)
  owners : List Nat
  ran : List Functor
  ruined : Bool

namespace SendCalls

def payloads (log : List Effect) : List (List UInt8) := log.filterMap Effect.payload

def buffers (fs : List Functor) : List (Nat × Nat) := fs.filterMap Functor.buffer

def Alive (s : SendCalls) : Prop :=
  s.owners ≠ [] ∨ ∃ f ∈ s.loop.conn.pendingFunctors ++ s.ran, f.shares = true

instance (s : SendCalls) : Decidable (Alive s) := inferInstanceAs (Decidable (_ ∨ _))

/-- What an action adds to the record. A functor that is bound to this uses a connection that
may be gone. -/
def note (s : SendCalls) : ConnectionLoop.Act → SendCalls
  | .send t data len =>
      { s with calling := Function.update s.calling t (some (ConnectionLoop.bytes s.loop.memory data len)) }
  | .advance t =>
      match s.loop.callers t with
      | .queueSend _ _ => { s with queued := s.queued ++ [s.calling t] }
      | _ => s
  | .loop (.send data _) => if s.loop.conn.state = .kConnected then { s with called := s.called ++ [data.bytes] } else s
  | .loop (.runPending _) =>
      match s.loop.conn.pendingFunctors.head? with
      | none => s
      | some f =>
          { s with
            queued := if f.buffer.isSome then s.queued.tail else s.queued
            called := s.called ++ (f.buffer.bind fun _ => s.queued.head?.join).toList
            ran := s.ran ++ [f]
            ruined := s.ruined || !(f.shares || decide (Alive s)) }
  | _ => s

/-- A thread calls a connection that it owns. When the connection is gone its descriptor is
closed, and there are no more events. -/
def Admits (s : SendCalls) : ConnectionLoop.Act → Prop
  | .send t _ _ | .sendFile t _ _ _ | .shutdown t => t ∈ s.owners
  | .advance _ | .poke _ _ | .loop (.runPending _) => True
  | .loop _ => Alive s

instance (s : SendCalls) : DecidablePred s.Admits
  | .send _ _ _ | .sendFile _ _ _ _ | .shutdown _ => inferInstanceAs (Decidable (_ ∈ s.owners))
  | .advance _ | .poke _ _ | .loop (.runPending _) => inferInstanceAs (Decidable True)
  | .loop .connectEstablished | .loop .connectDestroted | .loop (.handleRead _) | .loop (.handleWrite _)
  | .loop .handleClose | .loop (.send _ _) | .loop (.sendFile _ _ _ _) | .loop .shutdown =>
      inferInstanceAs (Decidable (Alive s))

def within (x : Nat) (b : Nat × Nat) : Bool := b.1 ≤ x && x < b.1 + b.2

/-- The string that has the byte at x in its buffer is destroyed. -/
def destroy (x : Nat) (s : SendCalls) : SendCalls :=
  { s with
    calling := fun t =>
      match s.loop.callers t with
      | .queueSend data len => if within x (data, len) then none else s.calling t
      | _ => s.calling t
    queued := List.zipWith (fun b q => if within x b then none else q) (buffers s.loop.conn.pendingFunctors) s.queued }

inductive Act
  | conn (a : ConnectionLoop.Act)
  | destroy (x : Nat)
  | share (t : Nat)
  | drop (t : Nat)
  | passEnds

/-- A thread copies the pointer of another one or of a functor, and keeps its own while it is in
a call. The functors of a pass are destroyed at its end. -/
def step : Act → SendCalls → Option SendCalls
  | .conn a, s =>
      if s.Admits a then (ConnectionLoop.step a s.loop).map fun l => { s.note a with loop := l } else none
  | .share t, s => if Alive s then some { s with owners := t :: s.owners } else none
  | .drop t, s =>
      if t ∈ s.owners ∧ s.loop.callers t = .idle then some { s with owners := s.owners.erase t } else none
  | .passEnds, s => some { s with ran := [] }
  | .destroy x, s => some (s.destroy x)

def start (s : SendCalls) : Prop :=
  ∃ loop, ConnectionLoop.start loop ∧ s = ⟨loop, fun _ => none, [], [], [0], [], false⟩

/-- No functor has used a connection that was gone, and what sendInLoop was given is what was in
the buffers, of strings that still exist, at the time of the calls. -/
def Same (s : SendCalls) : Prop := s.ruined = false ∧ payloads s.loop.conn.log = s.called

/-- Where the loop runs a functor, the connection is there, and the string of a queued send is
there and as it was at the call. -/
def Kept : Act → SendCalls → Prop
  | .conn (.loop (.runPending _)), s =>
      ∀ f ∈ s.loop.conn.pendingFunctors.head?, (f.shares = true ∨ Alive s) ∧
        ∀ b ∈ f.buffer, s.queued.head? = some (some (ConnectionLoop.bytes s.loop.memory b.1 b.2))
  | _, _ => True

/-- The address belongs to the buffer of a send that has been called and has not run. -/
def Borrowed (x : Nat) (s : SendCalls) : Prop :=
  (∃ n data len, s.loop.callers n = .queueSend data len ∧ within x (data, len)) ∨
    ∃ b ∈ buffers s.loop.conn.pendingFunctors, within x b

/-- No caller changes or destroys the string of its send before the loop has run it, and somebody
owns the connection then. -/
def Untouched : Act → SendCalls → Prop
  | .conn (.poke x v), s => Borrowed x s → v = s.loop.memory x
  | .destroy x, s => ¬ Borrowed x s
  | .conn (.loop (.runPending _)), s => ∀ f ∈ s.loop.conn.pendingFunctors.head?, f.shares = true ∨ Alive s
  | _, _ => True

/-- Neither another call of sendInLoop nor another queued one. -/
structure Keeps (c t : TcpConnection) : Prop where
  payloads : payloads t.log = payloads c.log
  buffers : buffers t.pendingFunctors = buffers c.pendingFunctors

namespace Keeps

variable {c d t : TcpConnection} {rest : List UInt8} {answer : Except Errno Nat}

theorem refl (c : TcpConnection) : Keeps c c := ⟨rfl, rfl⟩

theorem trans (h : Keeps c d) (h' : Keeps d t) : Keeps c t :=
  ⟨h'.payloads.trans h.payloads, h'.buffers.trans h.buffers⟩

theorem emit (h : Keeps c t) {e : Effect} (he : e.payload = none) : Keeps c (t.emit e) := by
  refine ⟨?_, h.buffers⟩
  rw [TcpConnection.emit, SendCalls.payloads, List.filterMap_append, List.filterMap_cons_none he, List.filterMap_nil,
    List.append_nil]
  exact h.payloads

theorem queueInLoop (h : Keeps c t) {f : Functor} (hf : f.buffer = none) : Keeps c (t.queueInLoop f) := by
  refine ⟨h.payloads, ?_⟩
  rw [TcpConnection.queueInLoop, SendCalls.buffers, List.filterMap_append, List.filterMap_cons_none hf,
    List.filterMap_nil, List.append_nil]
  exact h.buffers

theorem setState (h : Keeps c t) (state : StateE) : Keeps c (t.setState state) :=
  emit (t := { t with state := state }) ⟨h.payloads, h.buffers⟩ rfl

theorem disableAll (h : Keeps c t) : Keeps c t.disableAll :=
  emit (t := { t with channel := t.channel.disableAll }) ⟨h.payloads, h.buffers⟩ rfl

theorem writeCompleted (h : Keeps c t) : Keeps c t.writeCompleted := by
  rw [TcpConnection.writeCompleted]
  split
  · exact h.queueInLoop rfl
  · exact h

theorem checkHighWaterMark (h : Keeps c t) (n : Nat) : Keeps c (t.checkHighWaterMark n) := by
  rw [TcpConnection.checkHighWaterMark]
  split
  · exact h.queueInLoop rfl
  · exact h

theorem ensureWriting (h : Keeps c t) : Keeps c t.ensureWriting := by
  rw [TcpConnection.ensureWriting]
  split
  · exact h
  · exact emit (t := { t with channel := t.channel.enableWriting }) ⟨h.payloads, h.buffers⟩ rfl

theorem sendRest (h : Keeps c d) (hs : d.sendRest rest = some t) : Keeps c t := by
  rw [TcpConnection.sendRest] at hs
  split at hs
  · cases hs
    exact h
  · obtain ⟨a, ha, rfl⟩ := Option.map_eq_some_iff.mp hs
    obtain ⟨b, -, rfl⟩ := Option.map_eq_some_iff.mp ha
    have hmark := h.checkHighWaterMark rest.length
    have hbuffer : Keeps c { d.checkHighWaterMark rest.length with outputBuffer := b } :=
      ⟨hmark.payloads, hmark.buffers⟩
    exact (hbuffer.emit rfl).ensureWriting

theorem shutdownInLoop (h : Keeps c t) : Keeps c t.shutdownInLoop := by
  rw [TcpConnection.shutdownInLoop]
  split
  · exact h
  · exact h.emit rfl

theorem shutdown (c : TcpConnection) : Keeps c c.shutdown := by
  rw [TcpConnection.shutdown]
  split
  · exact ((refl c).setState _).shutdownInLoop
  · exact refl c

theorem connectEstablished (c : TcpConnection) : Keeps c c.connectEstablished := by
  have hset := (refl c).setState .kConnected
  have hreading : Keeps c (c.setState .kConnected).enableReading :=
    emit (t := { c.setState .kConnected with channel := (c.setState .kConnected).channel.enableReading })
      ⟨hset.payloads, hset.buffers⟩ rfl
  exact hreading.emit rfl

theorem connectDestroted (c : TcpConnection) : Keeps c c.connectDestroted := by
  rw [TcpConnection.connectDestroted]
  split
  · exact (((refl c).setState _).disableAll).emit rfl
  · exact refl c

theorem handleClose (c : TcpConnection) : Keeps c c.handleClose :=
  (((refl c).setState _).disableAll.emit rfl).emit rfl

theorem handleRead {answer : Except Errno (List UInt8)} (hs : c.handleRead answer = some t) : Keeps c t := by
  obtain ⟨⟨n, b⟩, -, rfl⟩ := Option.map_eq_some_iff.mp hs
  have hread : Keeps c { c with inputBuffer := b } := ⟨rfl, rfl⟩
  dsimp only
  split
  · exact hread
  · exact hread.trans (handleClose _)
  · exact hread.emit rfl

theorem outputDrained (h : Keeps c t) : Keeps c t.outputDrained := by
  have hd : Keeps c t.disableWriting :=
    emit (t := { t with channel := t.channel.disableWriting }) ⟨h.payloads, h.buffers⟩ rfl
  rw [TcpConnection.outputDrained]
  split
  · exact hd.writeCompleted.shutdownInLoop
  · exact hd.writeCompleted

theorem handleWrite (answer : Except Errno Nat) (c : TcpConnection) : Keeps c (c.handleWrite answer) := by
  have hw : Keeps c (c.writeFd answer) := (refl c).emit rfl
  have hr : Keeps c ((c.writeFd answer).retrieveOutput (written answer)) := ⟨hw.payloads, hw.buffers⟩
  rw [TcpConnection.handleWrite]
  split
  · split
    · rw [TcpConnection.checkDrained]
      split
      · exact hr.outputDrained
      · exact hr
    · exact hw
  · exact refl c

theorem sendFileInLoop (fileDescriptor : Nat) (offset : Int) (count : Nat) (answer : Except Errno Nat)
    (c : TcpConnection) :
    Keeps c (c.sendFileInLoop fileDescriptor offset count answer) := by
  have hsent : Keeps c (c.emit (.sendfile fileDescriptor offset count answer)) := (refl c).emit rfl
  rw [TcpConnection.sendFileInLoop]
  split
  · exact refl c
  · split
    · cases answer with
      | ok bytesSent =>
          dsimp only
          split
          · exact hsent.writeCompleted
          · exact hsent.queueInLoop rfl
      | error errno =>
          dsimp only
          split
          · exact hsent
          · exact hsent.queueInLoop rfl
    · split
      · exact refl c
      · exact (refl c).queueInLoop rfl

end Keeps

variable {s u : SendCalls} {c t : TcpConnection} {data : List UInt8} {answer : Except Errno Nat}

theorem payloads_emit (data : List UInt8) (c : TcpConnection) :
    payloads (c.emit (.sendInLoop data)).log = payloads c.log ++ [data] := by
  rw [payloads, TcpConnection.emit, List.filterMap_append]
  rfl

theorem sendInLoop_keeps (hs : c.sendInLoop data answer = some t) : Keeps (c.emit (.sendInLoop data)) t := by
  have hwrite : Keeps (c.emit (.sendInLoop data)) ((c.emit (.sendInLoop data)).emit (.write data answer)) :=
    (Keeps.refl _).emit rfl
  rw [TcpConnection.sendInLoop] at hs
  split at hs
  · cases answer with
    | ok nwrote =>
        dsimp only at hs
        split at hs
        · exact hwrite.writeCompleted.sendRest hs
        · exact hwrite.sendRest hs
    | error errno =>
        dsimp only at hs
        split at hs
        · cases hs
          exact hwrite
        · exact hwrite.sendRest hs
  · exact (Keeps.refl _).sendRest hs

theorem called_note_advance (s : SendCalls) (n : Nat) : (s.note (.advance n)).called = s.called := by
  unfold note
  dsimp only
  split <;> rfl

theorem ruined_note_advance (s : SendCalls) (n : Nat) : (s.note (.advance n)).ruined = s.ruined := by
  unfold note
  dsimp only
  split <;> rfl

theorem keeps_call {n : Nat} {next : Caller} {l : ConnectionLoop} (hs : s.loop.call n next = some l) :
    Keeps s.loop.conn l.conn := by
  rw [ConnectionLoop.call] at hs
  split at hs
  · cases hs
    split <;> exact .refl _
  · cases hs

theorem payloads_advances {n : Nat} {l : ConnectionLoop} (hm : ConnectionLoop.Advances n s.loop l) :
    payloads l.conn.log = payloads s.loop.conn.log := by
  cases hm with
  | queueSend | queueSendFile | queueShutdown => rfl
  | storeState => exact ((Keeps.refl _).setState _).payloads

theorem eq_of_toList {α : Type*} {o o' : Option α} (h : o.toList = o'.toList) : o = o' := by
  ext x
  rw [← Option.mem_toList, h, Option.mem_toList]

/-- What is left of a connection when the functor at the head of its queue has run. -/
theorem payloads_runs {memory : Nat → UInt8} {f : Functor} (hr : ConnectionLoop.Runs memory answer c f t) :
    payloads t.log = payloads c.log ++ (f.buffer.map fun b => ConnectionLoop.bytes memory b.1 b.2).toList := by
  have hkeeps : f.buffer = none → Keeps c t → payloads t.log =
      payloads c.log ++ (f.buffer.map fun b => ConnectionLoop.bytes memory b.1 b.2).toList := by
    intro hf hk
    rw [hf, hk.payloads]
    exact (List.append_nil _).symm
  cases hr with
  | sendInLoop data len t hle hs => exact (sendInLoop_keeps hs).payloads.trans (payloads_emit _ c)
  | sendFileInLoop fileDescriptor offset count =>
      exact hkeeps rfl (.sendFileInLoop fileDescriptor offset count answer c)
  | shutdownInLoop => exact hkeeps rfl (Keeps.refl c).shutdownInLoop
  | connectDestroted => exact hkeeps rfl (.connectDestroted c)
  | writeCompleteCallback => exact hkeeps rfl (.refl c)
  | highWaterMarkCallback => exact hkeeps rfl (.refl c)

theorem kept_runPending {f : Functor} {fs : List Functor} (hf : s.loop.conn.pendingFunctors = f :: fs) :
    Kept (.conn (.loop (.runPending answer))) s ↔ (f.shares = true ∨ Alive s) ∧
      f.buffer.map (fun b => ConnectionLoop.bytes s.loop.memory b.1 b.2) =
        f.buffer.bind fun _ => s.queued.head?.join := by
  rw [Kept, hf]
  simp only [List.head?_cons, Option.mem_def, Option.some.injEq, forall_eq']
  apply and_congr_right
  intro _
  cases f.buffer with
  | none => simp
  | some b => simp [eq_comm, Option.join_eq_some_iff]

theorem same_runPending {f : Functor} {fs : List Functor} (h : Same s) (hf : s.loop.conn.pendingFunctors = f :: fs) :
    Same { s.note (.loop (.runPending answer)) with loop := { s.loop with conn := t } } ↔
      (f.shares = true ∨ Alive s) ∧
        payloads t.log = payloads s.loop.conn.log ++ (f.buffer.bind fun _ => s.queued.head?.join).toList := by
  have hruined : (s.ruined || !(f.shares || decide (Alive s))) = false ↔ f.shares = true ∨ Alive s := by
    rw [h.1, Bool.false_or, Bool.not_eq_false', Bool.or_eq_true, decide_eq_true_eq]
  rw [note, hf, h.2]
  exact and_congr_left' hruined

theorem kept_iff_loop {a : ConnectionLoop.LoopAct} (h : Same s) (hm : ConnectionLoop.LoopMoves s.loop a t) :
    Kept (.conn (.loop a)) s ↔ Same { s.note (.loop a) with loop := { s.loop with conn := t } } := by
  have hkeeps (hk : Keeps s.loop.conn t) : Same { s with loop := { s.loop with conn := t } } :=
    ⟨h.1, hk.payloads.trans h.2⟩
  cases hm with
  | connectEstablished => exact iff_of_true trivial (hkeeps (.connectEstablished _))
  | connectDestroted => exact iff_of_true trivial (hkeeps (.connectDestroted _))
  | handleRead answer t hstate hs => exact iff_of_true trivial (hkeeps (.handleRead hs))
  | handleWrite answer => exact iff_of_true trivial (hkeeps (.handleWrite answer _))
  | handleClose => exact iff_of_true trivial (hkeeps (.handleClose _))
  | send data answer t hstate hle hs =>
      refine iff_of_true trivial ?_
      rw [note, if_pos hstate]
      refine ⟨h.1, ?_⟩
      rw [(sendInLoop_keeps hs).payloads, payloads_emit]
      exact congrArg (· ++ [data.bytes]) h.2
  | sendOff data answer hstate =>
      refine iff_of_true trivial ?_
      rw [note, if_neg hstate]
      exact h
  | sendFile fileDescriptor offset count answer =>
      exact iff_of_true trivial (hkeeps (.sendFileInLoop fileDescriptor offset count answer _))
  | sendFileOff => exact iff_of_true trivial h
  | shutdown => exact iff_of_true trivial (hkeeps (.shutdown _))
  | runPending answer f fs t hf hr =>
      rw [kept_runPending hf, same_runPending h hf, payloads_runs hr]
      exact and_congr_right fun _ => ⟨fun he => by rw [he], fun he => eq_of_toList (List.append_cancel_left he)⟩

theorem step_conn {a : ConnectionLoop.Act} (hs : step (.conn a) s = some u) :
    s.Admits a ∧ ∃ l, ConnectionLoop.step a s.loop = some l ∧ u = { s.note a with loop := l } := by
  obtain ⟨hadmits, hs⟩ := Option.ite_none_right_eq_some.mp hs
  obtain ⟨l, hl, rfl⟩ := Option.map_eq_some_iff.mp hs
  exact ⟨hadmits, l, hl, rfl⟩

theorem kept_iff_conn {a : ConnectionLoop.Act} {l : ConnectionLoop} (h : Same s)
    (hl : ConnectionLoop.step a s.loop = some l) : Kept (.conn a) s ↔ Same { s.note a with loop := l } := by
  cases a with
  | send n data len => exact iff_of_true trivial ⟨h.1, (keeps_call hl).payloads.trans h.2⟩
  | sendFile n fileDescriptor offset count => exact iff_of_true trivial ⟨h.1, (keeps_call hl).payloads.trans h.2⟩
  | shutdown n => exact iff_of_true trivial ⟨h.1, (keeps_call hl).payloads.trans h.2⟩
  | advance n =>
      refine iff_of_true trivial ?_
      rw [Same, called_note_advance, ruined_note_advance]
      exact ⟨h.1, (payloads_advances (ConnectionLoop.advances_of_advance hl)).trans h.2⟩
  | poke x v =>
      cases hl
      exact iff_of_true trivial h
  | loop a =>
      obtain ⟨c, hc, rfl⟩ := Option.map_eq_some_iff.mp hl
      exact kept_iff_loop h (ConnectionLoop.moves_of_loopStep hc)

theorem loop_owners {a : Act} (ha : ∀ b, a ≠ .conn b) (hd : ∀ x, a ≠ .destroy x) (hs : step a s = some u) :
    ∃ owners ran, u = { s with owners := owners, ran := ran } := by
  cases a with
  | conn b => exact absurd rfl (ha b)
  | destroy x => exact absurd rfl (hd x)
  | share n =>
      obtain ⟨-, he⟩ := Option.ite_none_right_eq_some.mp hs
      cases he
      exact ⟨_, _, rfl⟩
  | drop n =>
      obtain ⟨-, he⟩ := Option.ite_none_right_eq_some.mp hs
      cases he
      exact ⟨_, _, rfl⟩
  | passEnds =>
      cases hs
      exact ⟨_, _, rfl⟩

theorem kept_iff {a : Act} (h : Same s) (hs : step a s = some u) : Kept a s ↔ Same u := by
  cases a with
  | conn a =>
      obtain ⟨-, l, hl, rfl⟩ := step_conn hs
      exact kept_iff_conn h hl
  | destroy x =>
      cases hs
      exact iff_of_true trivial h
  | share | drop | passEnds =>
      obtain ⟨owners, ran, rfl⟩ := loop_owners (by simp) (by simp) hs
      exact iff_of_true trivial h

/-- The strings are there and as they were at the calls. -/
structure Fresh (s : SendCalls) : Prop where
  calling : ∀ n data len, s.loop.callers n = .queueSend data len →
    s.calling n = some (ConnectionLoop.bytes s.loop.memory data len)
  queued : s.queued =
    (buffers s.loop.conn.pendingFunctors).map fun b => some (ConnectionLoop.bytes s.loop.memory b.1 b.2)

theorem bytes_update {memory : Nat → UInt8} {x data len : Nat} {v : UInt8}
    (h : within x (data, len) → v = memory x) :
    ConnectionLoop.bytes (Function.update memory x v) data len = ConnectionLoop.bytes memory data len := by
  apply List.map_congr_left
  intro i hi
  have hlt := List.mem_range.mp hi
  by_cases hx : data + i = x
  · subst x
    rw [Function.update_self, h (by simpa [within] using hlt)]
  · exact Function.update_of_ne hx _ _

theorem Fresh.keeps (h : Fresh s) {l : ConnectionLoop} (hmemory : l.memory = s.loop.memory)
    (hcallers : l.callers = s.loop.callers) (hk : Keeps s.loop.conn l.conn) : Fresh { s with loop := l } := by
  refine ⟨?_, ?_⟩
  · rw [hcallers, hmemory]
    exact h.calling
  · rw [hk.buffers, hmemory]
    exact h.queued

theorem Fresh.call {n : Nat} {next : Caller} {v : Option (List UInt8)} {l : ConnectionLoop} (h : Fresh s)
    (hnext : ∀ data len, next = .queueSend data len → v = some (ConnectionLoop.bytes s.loop.memory data len))
    (hs : s.loop.call n next = some l) :
    Fresh { s with calling := Function.update s.calling n v, loop := l } := by
  obtain ⟨hidle, he⟩ := Option.ite_none_right_eq_some.mp hs
  cases he
  split
  · refine ⟨fun m data len hm => ?_, h.queued⟩
    dsimp only at hm ⊢
    by_cases hmn : m = n
    · subst m
      rw [Function.update_self] at hm ⊢
      exact hnext data len hm
    · rw [Function.update_of_ne hmn] at hm ⊢
      exact h.calling m data len hm
  · refine ⟨fun m data len hm => ?_, h.queued⟩
    have hmn : m ≠ n := by
      rintro rfl
      cases hidle.symm.trans hm
    exact (Function.update_of_ne hmn _ _).trans (h.calling m data len hm)

theorem Fresh.callers {n : Nat} {next : Caller} {conn : TcpConnection} (h : Fresh s)
    (hnext : ∀ data len, next ≠ .queueSend data len) (hk : Keeps s.loop.conn conn) :
    Fresh { s with loop := ⟨conn, s.loop.memory, Function.update s.loop.callers n next⟩ } := by
  refine ⟨fun m data len hm => ?_, ?_⟩
  · dsimp only at hm
    by_cases hmn : m = n
    · subst m
      rw [Function.update_self] at hm
      exact absurd hm (hnext data len)
    · rw [Function.update_of_ne hmn] at hm
      exact h.calling m data len hm
  · rw [hk.buffers]
    exact h.queued

theorem Fresh.advance {n : Nat} {l : ConnectionLoop} (h : Fresh s) (hm : ConnectionLoop.Advances n s.loop l) :
    Fresh { s.note (.advance n) with loop := l } := by
  cases hm with
  | queueSend data len hn =>
      have hcalling := h.calling n data len hn
      have hidle : Fresh { s with loop := ⟨s.loop.conn, s.loop.memory, Function.update s.loop.callers n .idle⟩ } :=
        h.callers (by simp) (Keeps.refl _)
      rw [note, hn]
      refine ⟨hidle.calling, ?_⟩
      dsimp only
      rw [TcpConnection.queueInLoop, buffers, List.filterMap_append, List.map_append, ← buffers, ← h.queued, hcalling]
      rfl
  | queueSendFile fileDescriptor offset count hn =>
      rw [note, hn]
      exact h.callers (by simp) ((Keeps.refl _).queueInLoop rfl)
  | storeState hn =>
      rw [note, hn]
      exact h.callers (by simp) ((Keeps.refl _).setState _)
  | queueShutdown hn =>
      rw [note, hn]
      exact h.callers (by simp) ((Keeps.refl _).queueInLoop rfl)

theorem buffers_runs {memory : Nat → UInt8} {f : Functor} (hr : ConnectionLoop.Runs memory answer c f t) :
    buffers t.pendingFunctors = buffers c.pendingFunctors := by
  cases hr with
  | sendInLoop data len t hle hs => exact (sendInLoop_keeps hs).buffers
  | sendFileInLoop fileDescriptor offset count =>
      exact (Keeps.sendFileInLoop fileDescriptor offset count answer c).buffers
  | shutdownInLoop => exact (Keeps.refl c).shutdownInLoop.buffers
  | connectDestroted => exact (Keeps.connectDestroted c).buffers
  | writeCompleteCallback => rfl
  | highWaterMarkCallback => rfl

theorem Fresh.loop {a : ConnectionLoop.LoopAct} (h : Fresh s) (hm : ConnectionLoop.LoopMoves s.loop a t) :
    Fresh { s.note (.loop a) with loop := { s.loop with conn := t } } := by
  have hkeeps (hk : Keeps s.loop.conn t) : Fresh { s with loop := { s.loop with conn := t } } := h.keeps rfl rfl hk
  cases hm with
  | connectEstablished => exact hkeeps (.connectEstablished _)
  | connectDestroted => exact hkeeps (.connectDestroted _)
  | handleRead answer t hstate hs => exact hkeeps (.handleRead hs)
  | handleWrite answer => exact hkeeps (.handleWrite answer _)
  | handleClose => exact hkeeps (.handleClose _)
  | send data answer t hstate hle hs =>
      rw [note, if_pos hstate]
      refine ⟨h.calling, ?_⟩
      rw [(sendInLoop_keeps hs).buffers]
      exact h.queued
  | sendOff data answer hstate =>
      rw [note, if_neg hstate]
      exact h
  | sendFile fileDescriptor offset count answer => exact hkeeps (.sendFileInLoop fileDescriptor offset count answer _)
  | sendFileOff => exact h
  | shutdown => exact hkeeps (.shutdown _)
  | runPending answer f fs t hf hr =>
      have hbuffers := buffers_runs hr
      have hqueued := h.queued
      rw [hf] at hqueued
      rw [note, hf]
      dsimp only [List.head?_cons]
      cases hb : f.buffer with
      | none =>
          rw [buffers, List.filterMap_cons_none hb] at hqueued
          exact ⟨h.calling, hqueued.trans (congrArg _ hbuffers.symm)⟩
      | some b =>
          rw [buffers, List.filterMap_cons_some hb] at hqueued
          refine ⟨h.calling, ?_⟩
          rw [hqueued, hbuffers]
          rfl

theorem Fresh.conn {a : ConnectionLoop.Act} {l : ConnectionLoop} (h : Fresh s) (hu : Untouched (.conn a) s)
    (hl : ConnectionLoop.step a s.loop = some l) : Fresh { s.note a with loop := l } := by
  cases a with
  | send n data len =>
      refine h.call (fun data' len' he => ?_) hl
      cases he
      rfl
  | sendFile n fileDescriptor offset count =>
      have hcall := h.call (v := s.calling n) (by simp) hl
      rwa [Function.update_eq_self] at hcall
  | shutdown n =>
      have hcall := h.call (v := s.calling n) (by simp) hl
      rwa [Function.update_eq_self] at hcall
  | advance n => exact h.advance (ConnectionLoop.advances_of_advance hl)
  | poke x v =>
      cases hl
      refine ⟨fun n data len hn => ?_, ?_⟩
      · exact (h.calling n data len hn).trans
          (congrArg some (bytes_update fun hx => hu (.inl ⟨n, data, len, hn, hx⟩)).symm)
      · refine h.queued.trans (List.map_congr_left fun b hb => ?_)
        exact congrArg some (bytes_update fun hx => hu (.inr ⟨b, hb, hx⟩)).symm
  | loop a =>
      obtain ⟨c, hc, rfl⟩ := Option.map_eq_some_iff.mp hl
      exact h.loop (ConnectionLoop.moves_of_loopStep hc)

theorem Fresh.destroy {x : Nat} (h : Fresh s) (hu : ¬ Borrowed x s) : Fresh (s.destroy x) := by
  refine ⟨fun n data len hn => ?_, ?_⟩
  · have hoff : ¬ within x (data, len) := fun hx => hu (.inl ⟨n, data, len, hn, hx⟩)
    have hcalling : (s.destroy x).calling n = s.calling n := by
      change s.loop.callers n = _ at hn
      rw [SendCalls.destroy]
      dsimp only
      rw [hn]
      exact if_neg hoff
    exact hcalling.trans (h.calling n data len hn)
  · rw [SendCalls.destroy]
    dsimp only
    rw [h.queued, List.zipWith_map_right, List.zipWith_self]
    exact List.map_congr_left fun b hb => if_neg fun hx => hu (.inr ⟨b, hb, hx⟩)

theorem Fresh.step {a : Act} (h : Fresh s) (hu : Untouched a s) (hs : step a s = some u) : Fresh u := by
  cases a with
  | conn a =>
      obtain ⟨-, l, hl, rfl⟩ := step_conn hs
      exact h.conn hu hl
  | destroy x =>
      cases hs
      exact h.destroy hu
  | share | drop | passEnds =>
      obtain ⟨owners, ran, rfl⟩ := loop_owners (by simp) (by simp) hs
      exact ⟨h.calling, h.queued⟩

theorem Fresh.kept {a : Act} (h : Fresh s) (hu : Untouched a s) : Kept a s := by
  cases a with
  | conn a =>
      cases a with
      | loop a =>
          cases a with
          | runPending answer =>
              intro f hf
              refine ⟨hu f hf, fun b hb => ?_⟩
              obtain ⟨fs, hfs⟩ := List.head?_eq_some_iff.mp hf
              rw [h.queued, hfs, buffers, List.filterMap_cons_some hb]
              rfl
          | connectEstablished | connectDestroted | handleRead | handleWrite | handleClose | send | sendFile
          | shutdown => exact trivial
      | send | sendFile | shutdown | advance | poke => exact trivial
  | destroy | share | drop | passEnds => exact trivial

theorem start_fresh (h : start s) : Fresh s := by
  obtain ⟨_, ⟨mark, high, complete, memory, rfl⟩, rfl⟩ := h
  refine ⟨fun n data len hn => ?_, rfl⟩
  cases hn

theorem kept_of_untouched (h : Reachable start step Untouched s) : Reachable start step Kept s := by
  have hfresh : Fresh s ∧ Reachable start step Kept s := by
    induction h with
    | start h0 => exact ⟨start_fresh h0, .start h0⟩
    | next a _ hu hs ih => exact ⟨ih.1.step hu hs, .next a ih.2 (ih.1.kept hu) hs⟩
  exact hfresh.2

theorem same_of_kept (h : Reachable start step Kept s) : Same s := by
  apply h.invariant
  · rintro _ ⟨_, ⟨mark, high, complete, memory, rfl⟩, rfl⟩
    exact ⟨rfl, rfl⟩
  · intro a s u hsame hk hs
    exact (kept_iff hsame hs).mp hk

/-- Sends are the same from all threads as long as no caller touches its string before the loop
has run the send and somebody owns the connection then. A run of the functor that finds the
string changed or destroyed, or the connection gone, breaks this. -/
theorem sends_same (s : SendCalls) :
    (Reachable start step Untouched s → Same s) ∧
      (Reachable start step Kept s → Same s ∧ ∀ a u, step a s = some u → (Kept a s ↔ Same u)) :=
  ⟨fun h => same_of_kept (kept_of_untouched h), fun h => ⟨same_of_kept h, fun _ _ hs => kept_iff (same_of_kept h) hs⟩⟩

instance (a : Act) (s : SendCalls) : Decidable (Kept a s) := by
  unfold Kept
  split <;> infer_instance

def blank : SendCalls := ⟨ConnectionLoop.blank, fun _ => none, [], [], [0], [], false⟩

theorem start_blank : start blank := ⟨_, ⟨64, false, true, _, rfl⟩, rfl⟩

def own (n : Nat) : List Act := [.conn (.loop .connectEstablished), .share n]

/-- No thread stores or destroys anything, and the connection is there whenever a functor runs. -/
def Quiet : Act → SendCalls → Prop
  | .conn (.poke _ _), _ | .destroy _, _ => False
  | .conn (.loop (.runPending _)), s => Alive s
  | _, _ => True

instance (a : Act) (s : SendCalls) : Decidable (Quiet a s) := by
  unfold Quiet
  split <;> infer_instance

theorem untouched_of_quiet (a : Act) (s : SendCalls) (h : Quiet a s) : Untouched a s := by
  cases a with
  | conn a =>
      cases a with
      | poke x v => exact h.elim
      | loop a =>
          cases a with
          | runPending answer => exact fun _ _ => .inr h
          | connectEstablished | connectDestroted | handleRead | handleWrite | handleClose | send | sendFile
          | shutdown => exact trivial
      | send | sendFile | shutdown | advance => exact trivial
  | destroy x => exact h.elim
  | share | drop | passEnds => exact trivial

/-- A send from the loop thread and one from another thread, which gives up the connection. -/
theorem sends_same_two_threads :
    ∃ s, Reachable start step Untouched s ∧ payloads s.loop.conn.log = [[5], [97, 97]] ∧ Same s := by
  have hrun : (run (guarded step Quiet) (own 1 ++ [.conn (.send 1 8 2), .conn (.advance 1), .drop 1,
      .conn (.loop (.send ⟨[5], by decide⟩ (.ok 1))), .conn (.loop (.runPending (.ok 0))),
      .conn (.loop (.runPending (.ok 0))), .passEnds]) blank).map (fun s => payloads s.loop.conn.log) =
      some [[5], [97, 97]] := by decide +kernel
  obtain ⟨s, hr, he⟩ := reachable_of_run start hrun start_blank
  have huntouched := hr.weaken untouched_of_quiet
  exact ⟨s, huntouched, he, (sends_same s).1 huntouched⟩

/-- The caller reuses its string before the loop runs the send. -/
theorem string_reused : ¬ ∀ s, Reachable start step always s → Same s := by
  intro h
  have hrun : (run (guarded step always) (own 1 ++ [.conn (.send 1 8 2), .conn (.advance 1), .conn (.poke 8 98),
      .conn (.loop (.runPending (.ok 0)))]) blank).map (fun s => (payloads s.loop.conn.log, s.called)) =
        some ([[98, 97]], [[97, 97]]) := by decide +kernel
  obtain ⟨s, hr, he⟩ := reachable_of_run start hrun start_blank
  simp only [Prod.mk.injEq] at he
  have hsame := (h s hr).2
  rw [he.1, he.2] at hsame
  revert hsame
  decide

/-- The string is left alone, but the last owner goes before the loop runs the send. -/
theorem connection_gone : ∃ s, Reachable start step always s ∧ s.ruined = true := by
  have hrun : (run (guarded step always) (own 1 ++ [.conn (.send 1 8 2), .conn (.advance 1), .drop 0, .drop 1,
      .conn (.loop (.runPending (.ok 0)))]) blank).map (fun s => s.ruined) = some true := by decide +kernel
  obtain ⟨s, hr, he⟩ := reachable_of_run start hrun start_blank
  exact ⟨s, hr, he⟩

end SendCalls

end LearnNote.Muduo
