import LearnNote.Muduo.FileStream
import LearnNote.Muduo.OutputStream

namespace LearnNote.Muduo

open Lib.History Lib.Transition

namespace FileTransfer

open FileStream (queued fileOf)

/-- What the kernel and the user do in one pass of the loop: the bytes that the socket takes
of the output buffer, the sends before and after the functor of the file, and what sendfile
returns. -/
structure Pass where
  drained : Nat
  before : List (Payload × Except Errno Nat)
  answer : Except Errno Nat
  after : List (Payload × Except Errno Nat)

/-- The socket is ready whenever the channel waits for it, and takes a byte at least. -/
def poll (drained : Nat) (c : TcpConnection) : Option TcpConnection :=
  if c.channel.isWriting then
    if 0 < drained ∧ drained ≤ c.outputBuffer.readableBytes then some (c.handleWrite (.ok drained)) else none
  else some c

def send (c : TcpConnection) (s : Payload × Except Errno Nat) : Option TcpConnection :=
  OutputStream.step (.sendInLoop s.1 s.2) c

/-- The queue is taken as a whole; what the functors queue is for the next pass. -/
def doPendingFunctors (answer : Except Errno Nat) (c : TcpConnection) : Option TcpConnection :=
  c.pendingFunctors.foldlM (ConnectionLoop.runFunctor (fun _ => 0) answer) { c with pendingFunctors := [] }

def pass (p : Pass) (c : TcpConnection) : Option TcpConnection :=
  (poll p.drained c).bind fun c => (p.before.foldlM send c).bind fun c =>
    (doPendingFunctors p.answer c).bind fun c => p.after.foldlM send c

/-- What sendfile returns for a socket that has room: some of the bytes between the offset and
the end of the file, and 0 only where there are none. A range that no off_t can hold is an error. -/
def Accepts (fileLength : Nat) (f : FileRange) (answer : Except Errno Nat) : Prop :=
  (f.offset < 0 ∨ 2 ^ 63 ≤ f.offset + f.count) ∧ answer = .error .einval ∨
    0 ≤ f.offset ∧ ∃ n, answer = .ok n ∧ n ≤ f.count ∧ (n = 0 ∨ f.offset + n ≤ fileLength) ∧
      (0 < f.count → f.offset < fileLength → 0 < n)

/-- A run of the loop in which the connection stays up and the socket accepts data. -/
structure Run (fileLength : Nat) (passes : Nat → Pass) (trace : Nat → TcpConnection) : Prop where
  length : fileLength < 2 ^ 63
  next : ∀ n, pass (passes n) (trace n) = some (trace (n + 1))
  accepts : ∀ n, ∀ f ∈ queued (trace n).pendingFunctors, Accepts fileLength f (passes n).answer
  connected : ∀ n, ∀ s ∈ (passes n).before ++ (passes n).after, ∀ errno, s.2 = .error errno → errno.fault = false

def Idle (c : TcpConnection) : Prop := c.channel.isWriting = false ∧ c.outputBuffer.readableBytes = 0

/-- When the functors of a pass run, what was sent before has been written. -/
def Clear (p : Pass) (c : TcpConnection) : Prop :=
  ∀ b, (poll p.drained c).bind (p.before.foldlM send) = some b → Idle b

def start (fileDescriptor : Nat) (offset : Int) (count : Nat) (c : TcpConnection) : Prop :=
  ∃ c₀, Reachable OutputStream.start OutputStream.step OutputStream.NoFault c₀ ∧ c₀.state = .kConnected ∧
    c = c₀.queueInLoop (.sendFileInLoop fileDescriptor offset count)

/-- The connection is up, and only the given files and calls of the user are queued. -/
structure Waiting (fs : List FileRange) (c : TcpConnection) : Prop where
  carried : OutputStream.Carried c
  state : c.state = .kConnected
  queued : queued c.pendingFunctors = fs
  known : ∀ f ∈ c.pendingFunctors, f.Notice ∨ (fileOf f).isSome

variable {fs : List FileRange} {f : FileRange} {c t : TcpConnection} {answer : Except Errno Nat} {p : Pass}
  {fileLength : Nat}

theorem Waiting.grows (h : Waiting fs c) (hg : Grows c t) (hc : OutputStream.Carried t) : Waiting fs t := by
  refine ⟨hc, hg.state.trans h.state, (FileStream.queued_extends hg.pending).trans h.queued, fun g hin => ?_⟩
  obtain ⟨es, hes, hnotice⟩ := hg.pending
  rw [hes] at hin
  rcases List.mem_append.mp hin with hin | hin
  · exact h.known g hin
  · exact .inl (hnotice g hin)

theorem Waiting.handleWrite (h : Waiting fs c) (answer : Except Errno Nat) : Waiting fs (c.handleWrite answer) :=
  h.grows (.handleWrite answer c) (h.carried.1.handleWrite h.carried.2 (fun _ => rfl) answer)

theorem Waiting.poll {drained : Nat} (h : Waiting fs c) (hs : poll drained c = some t) : Waiting fs t := by
  rw [FileTransfer.poll] at hs
  split at hs
  · obtain ⟨-, he⟩ := Option.ite_none_right_eq_some.mp hs
    cases he
    exact h.handleWrite _
  · cases hs
    exact h

theorem Waiting.send {s : Payload × Except Errno Nat} (h : Waiting fs c)
    (hf : ∀ errno, s.2 = .error errno → errno.fault = false) (hs : send c s = some t) : Waiting fs t := by
  obtain ⟨-, hs⟩ := Option.ite_none_right_eq_some.mp hs
  exact h.grows (.sendInLoop hs) (h.carried.1.sendInLoop h.carried.2 s.1 (.inr rfl) hf hs)

theorem Waiting.sends {l : List (Payload × Except Errno Nat)} (h : Waiting fs c)
    (hf : ∀ s ∈ l, ∀ errno, s.2 = .error errno → errno.fault = false) (hs : l.foldlM FileTransfer.send c = some t) :
    Waiting fs t := by
  induction l generalizing c with
  | nil =>
      cases hs
      exact h
  | cons s l ih =>
      obtain ⟨d, hd, hs⟩ := Option.bind_eq_some_iff.mp hs
      have hsend := h.send (hf s List.mem_cons_self) hd
      exact ih hsend (fun s hin => hf s (List.mem_cons_of_mem _ hin)) hs

theorem run_notices {l : List Functor} (hl : ∀ g ∈ l, g.Notice) (c : TcpConnection) :
    l.foldlM (ConnectionLoop.runFunctor (fun _ => 0) answer) c = some c := by
  induction l with
  | nil => rfl
  | cons g l ih =>
      have hrun : ConnectionLoop.runFunctor (fun _ => 0) answer c g = some c := by
        have hg := hl g List.mem_cons_self
        cases g <;> first | rfl | cases hg
      rw [List.foldlM_cons, hrun]
      exact ih (fun g hin => hl g (List.mem_cons_of_mem _ hin))

theorem notices_of_queued_nil {l : List Functor} (hq : queued l = [])
    (hk : ∀ g ∈ l, g.Notice ∨ (fileOf g).isSome) : ∀ g ∈ l, g.Notice := by
  intro g hin
  refine (hk g hin).resolve_right (fun hsome => ?_)
  rw [List.filterMap_eq_nil_iff.mp hq g hin] at hsome
  cases hsome

theorem split_of_queued {l : List Functor} (hq : queued l = [f]) (hk : ∀ g ∈ l, g.Notice ∨ (fileOf g).isSome) :
    ∃ pre post, l = pre ++ .sendFileInLoop f.fileDescriptor f.offset f.count :: post ∧
      (∀ g ∈ pre, g.Notice) ∧ ∀ g ∈ post, g.Notice := by
  obtain ⟨pre, g, post, rfl, hpre, hg, hpost⟩ := List.filterMap_eq_cons_iff.mp hq
  refine ⟨pre, post, ?_, ?_, ?_⟩
  · cases g with
    | sendFileInLoop fileDescriptor offset count =>
        cases hg
        rfl
    | sendInLoop | shutdownInLoop | connectDestroted | writeCompleteCallback | highWaterMarkCallback => cases hg
  · exact notices_of_queued_nil (List.filterMap_eq_nil_iff.mpr hpre)
      (fun g hin => hk g (List.mem_append_left _ hin))
  · exact notices_of_queued_nil hpost (fun g hin => hk g (List.mem_append_right _ (List.mem_cons_of_mem _ hin)))

theorem doPendingFunctors_nil (h : Waiting [] c) (hs : doPendingFunctors answer c = some t) : Waiting [] t := by
  rw [doPendingFunctors, run_notices (notices_of_queued_nil h.queued h.known)] at hs
  cases hs
  exact ⟨⟨⟨h.carried.1.wf, h.carried.1.flow⟩, h.carried.2⟩, h.state, rfl, by simp⟩

theorem doPendingFunctors_file (h : Waiting [f] c) (hs : doPendingFunctors answer c = some t) :
    t = { c with pendingFunctors := [] }.sendFileInLoop f.fileDescriptor f.offset f.count answer := by
  obtain ⟨pre, post, hl, hpre, hpost⟩ := split_of_queued h.queued h.known
  rw [doPendingFunctors, hl, List.foldlM_append, run_notices hpre] at hs
  obtain ⟨e, he, hs⟩ := Option.bind_eq_some_iff.mp hs
  obtain ⟨d, hd, hs⟩ := Option.bind_eq_some_iff.mp hs
  cases he
  obtain ⟨hle, he⟩ := Option.ite_none_right_eq_some.mp hd
  cases he
  exact (Option.some.inj ((run_notices hpost _).symm.trans hs)).symm

def moved (answer : Except Errno Nat) (c : TcpConnection) : Nat :=
  if c.channel.isWriting = false ∧ c.outputBuffer.readableBytes = 0 then written answer else 0

theorem moved_of_idle (h : Idle c) (answer : Except Errno Nat) : moved answer c = written answer := if_pos h

theorem outputBuffer_writeCompleted (c : TcpConnection) : c.writeCompleted.outputBuffer = c.outputBuffer := by
  rw [TcpConnection.writeCompleted]
  split <;> rfl

theorem outputBuffer_sendFileInLoop (fileDescriptor : Nat) (offset : Int) (count : Nat) (answer : Except Errno Nat)
    (c : TcpConnection) : (c.sendFileInLoop fileDescriptor offset count answer).outputBuffer = c.outputBuffer := by
  rw [TcpConnection.sendFileInLoop]
  split
  · rfl
  · split
    · cases answer with
      | ok n =>
          dsimp only
          split
          · exact outputBuffer_writeCompleted _
          · rfl
      | error errno =>
          dsimp only
          split <;> rfl
    · split <;> rfl

theorem Waiting.requeue (h : Waiting [] c) (f : FileRange) :
    Waiting [f] (c.queueInLoop (.sendFileInLoop f.fileDescriptor f.offset f.count)) := by
  refine ⟨⟨⟨h.carried.1.wf, h.carried.1.flow⟩, h.carried.2⟩, h.state, ?_, fun g hg => ?_⟩
  · rw [TcpConnection.queueInLoop, FileStream.queued, List.filterMap_append]
    exact congrArg (· ++ [f]) h.queued
  · rcases List.mem_append.mp hg with hg | hg
    · exact h.known g hg
    · rw [List.mem_singleton.mp hg]
      exact .inr rfl

theorem Waiting.sendfile (h : Waiting [] c) (f : FileRange) (answer : Except Errno Nat) :
    Waiting [] (c.emit (.sendfile f.fileDescriptor f.offset f.count answer)) := by
  refine ⟨⟨h.carried.1.emit_other (by simp) ?_ rfl, h.carried.2⟩, h.state, h.queued, h.known⟩
  exact List.take_nil

theorem Waiting.sendFileInLoop (h : Waiting [] c) (hf : ∀ errno, answer = .error errno → errno.fault = false)
    (f : FileRange) :
    Waiting (f.rest (moved answer c)) (c.sendFileInLoop f.fileDescriptor f.offset f.count answer) := by
  have hconnected : c.state ≠ .kDisconnecting := by
    rw [h.state]
    simp
  have hsent := h.sendfile f answer
  rw [TcpConnection.sendFileInLoop, if_neg hconnected, moved]
  split
  · cases answer with
    | ok n =>
        dsimp only [written]
        split
        · rw [FileRange.rest_of_le (Nat.le_of_sub_eq_zero ‹_›)]
          exact hsent.grows (Grows.refl _).writeCompleted
            ⟨hsent.carried.1.writeCompleted, hsent.carried.2.writeCompleted⟩
        · rw [FileRange.rest_of_not_le (fun hle => ‹¬ _› (Nat.sub_eq_zero_of_le hle))]
          exact hsent.requeue ⟨f.fileDescriptor, f.offset + n, f.count - n⟩
    | error errno =>
        simp only [hf errno rfl, Bool.false_eq_true, false_or, written]
        split
        · rw [FileRange.rest_of_le (Nat.le_of_eq ‹_›)]
          exact hsent
        · rw [FileRange.rest_zero (Nat.pos_of_ne_zero ‹_›)]
          exact hsent.requeue f
  · split
    · rw [FileRange.rest_of_le (Nat.le_of_eq ‹_›)]
      exact h
    · rw [FileRange.rest_zero (Nat.pos_of_ne_zero ‹_›)]
      exact h.requeue f

theorem Waiting.pending (h : Waiting fs c) : Waiting [] { c with pendingFunctors := [] } :=
  ⟨⟨⟨h.carried.1.wf, h.carried.1.flow⟩, h.carried.2⟩, h.state, rfl, by simp⟩

/-- The parts of a pass. -/
theorem pass_cases (hs : pass p c = some t) :
    ∃ a b d, poll p.drained c = some a ∧ p.before.foldlM send a = some b ∧ doPendingFunctors p.answer b = some d ∧
      p.after.foldlM send d = some t := by
  obtain ⟨a, ha, hs⟩ := Option.bind_eq_some_iff.mp hs
  obtain ⟨b, hb, hs⟩ := Option.bind_eq_some_iff.mp hs
  obtain ⟨d, hd, hs⟩ := Option.bind_eq_some_iff.mp hs
  exact ⟨a, b, d, ha, hb, hd, hs⟩

theorem Waiting.pass (h : Waiting [f] c) (hok : ∀ errno, p.answer = .error errno → errno.fault = false)
    (hf : ∀ s ∈ p.before ++ p.after, ∀ errno, s.2 = .error errno → errno.fault = false)
    (hs : FileTransfer.pass p c = some t) :
    ∃ b, (Clear p c → Idle b) ∧ Waiting (f.rest (moved p.answer b)) t := by
  obtain ⟨a, b, d, ha, hb, hd, hs⟩ := pass_cases hs
  have hwb := (h.poll ha).sends (fun s hin => hf s (List.mem_append_left _ hin)) hb
  have hd := doPendingFunctors_file hwb hd
  have hwd := hwb.pending.sendFileInLoop hok f
  rw [← hd] at hwd
  refine ⟨_, fun hclear => ?_, hwd.sends (fun s hin => hf s (List.mem_append_right _ hin)) hs⟩
  exact hclear b (by rw [ha]; exact hb)

theorem Waiting.pass_nil (h : Waiting [] c)
    (hf : ∀ s ∈ p.before ++ p.after, ∀ errno, s.2 = .error errno → errno.fault = false)
    (hs : FileTransfer.pass p c = some t) : Waiting [] t := by
  obtain ⟨a, b, d, ha, hb, hd, hs⟩ := pass_cases hs
  have hwb := (h.poll ha).sends (fun s hin => hf s (List.mem_append_left _ hin)) hb
  exact (doPendingFunctors_nil hwb hd).sends (fun s hin => hf s (List.mem_append_right _ hin)) hs

theorem readableBytes_outputDrained (c : TcpConnection) :
    c.outputDrained.outputBuffer = c.outputBuffer := by
  have hbuffer : c.disableWriting.writeCompleted.outputBuffer = c.outputBuffer := outputBuffer_writeCompleted _
  rw [TcpConnection.outputDrained]
  split
  · rw [TcpConnection.shutdownInLoop]
    split <;> exact hbuffer
  · exact hbuffer

theorem readableBytes_poll {drained : Nat} (h : Waiting fs c) (hs : poll drained c = some t) :
    t.outputBuffer.readableBytes < c.outputBuffer.readableBytes ∨
      t = c ∧ c.channel.isWriting = false ∧ c.outputBuffer.readableBytes = 0 := by
  rw [poll] at hs
  split at hs
  next hwriting =>
    obtain ⟨hle, he⟩ := Option.ite_none_right_eq_some.mp hs
    obtain ⟨hpos, hle⟩ := hle
    have hwritten : written (.ok drained) > 0 := hpos
    left
    have hbuffer : t.outputBuffer = c.outputBuffer.retrieve drained := by
      rw [← Option.some.inj he, TcpConnection.handleWrite, if_pos hwriting, if_pos hwritten,
        TcpConnection.checkDrained]
      split
      · exact readableBytes_outputDrained _
      · rfl
    obtain ⟨hw, hc⟩ := Buffer.retrieve_wf h.carried.1.wf drained
    rw [hbuffer, ← hw.length_content, hc, List.length_drop, h.carried.1.wf.length_content]
    omega
  next hwriting =>
    cases hs
    have hidle : c.channel.isWriting = false := (Bool.not_eq_true _).mp hwriting
    refine .inr ⟨rfl, hidle, ?_⟩
    by_contra hne
    exact absurd (h.carried.2.mpr hne) (by simp [hidle])

theorem Accepts.ok (h : Accepts fileLength f answer) (errno : Errno) (he : answer = .error errno) :
    errno.fault = false := by
  rcases h with ⟨-, hinvalid⟩ | ⟨-, n, hn, -⟩
  · cases he.symm.trans hinvalid
    rfl
  · cases he.symm.trans hn

/-- A pass without sends finds the output buffer empty, or leaves less in it. -/
theorem clear_or_less (h : Waiting fs c) (hone : fs = [] ∨ ∃ f, fs = [f]) (hquiet : p.before = [] ∧ p.after = [])
    (hs : pass p c = some t) : Clear p c ∨ t.outputBuffer.readableBytes < c.outputBuffer.readableBytes := by
  obtain ⟨a, b, d, hpoll, hb, hd, hs⟩ := pass_cases hs
  rw [hquiet.1] at hb
  rw [hquiet.2] at hs
  cases hb
  cases hs
  rcases readableBytes_poll h hpoll with hlt | ⟨rfl, hidle⟩
  · right
    have hwa := h.poll hpoll
    rcases hone with rfl | ⟨f, rfl⟩
    · rw [doPendingFunctors, run_notices (notices_of_queued_nil hwa.queued hwa.known)] at hd
      cases hd
      exact hlt
    · rw [doPendingFunctors_file hwa hd, outputBuffer_sendFileInLoop]
      exact hlt
  · left
    intro b hb
    rw [hpoll, hquiet.1] at hb
    cases hb
    exact hidle

theorem start_waiting {fileDescriptor : Nat} {offset : Int} {count : Nat} (h : start fileDescriptor offset count c) :
    Waiting [⟨fileDescriptor, offset, count⟩] c := by
  obtain ⟨c₀, hr, hstate, rfl⟩ := h
  have hnotice : ∀ g ∈ c₀.pendingFunctors, g.Notice := by
    clear hstate
    apply hr.invariant (I := fun c => ∀ g ∈ c.pendingFunctors, g.Notice)
    · rintro _ ⟨mark, high, complete, rfl⟩ g hg
      cases hg
    · intro a c t hc _ hs
      have hg : Extends Functor.Notice c.pendingFunctors t.pendingFunctors := by
        cases a with
        | sendInLoop data answer => exact (Grows.sendInLoop (Option.ite_none_right_eq_some.mp hs).2).pending
        | handleWrite answer =>
            obtain ⟨-, he⟩ := Option.ite_none_right_eq_some.mp hs
            cases he
            exact (Grows.handleWrite answer c).pending
        | shutdown =>
            cases hs
            rw [TcpConnection.shutdown]
            split
            · exact ((Grows.refl (c.setState .kDisconnecting)).shutdownInLoop).pending
            · exact .refl _
        | shutdownStore =>
            obtain ⟨-, he⟩ := Option.ite_none_right_eq_some.mp hs
            cases he
            exact .refl _
        | shutdownInLoop =>
            cases hs
            exact ((Grows.refl c).shutdownInLoop).pending
      obtain ⟨es, hes, hes'⟩ := hg
      intro g hg
      rw [hes] at hg
      rcases List.mem_append.mp hg with hg | hg
      · exact hc g hg
      · exact hes' g hg
  have hnil : queued c₀.pendingFunctors = [] := by
    refine List.filterMap_eq_nil_iff.mpr (fun g hg => ?_)
    have hn := hnotice g hg
    cases g <;> first | rfl | cases hn
  exact Waiting.requeue ⟨OutputStream.reachable_carried hr, hstate, hnil, fun g hg => .inl (hnotice g hg)⟩
    ⟨fileDescriptor, offset, count⟩

variable {passes : Nat → Pass} {trace : Nat → TcpConnection} {fileDescriptor count n : Nat} {offset : Int}

/-- What is left ends where the file that was to be sent ends, and does not begin before it. -/
structure Left (first last : Int) (f : FileRange) : Prop where
  pos : 0 < f.count
  first : first ≤ f.offset
  last : f.offset + f.count = last

variable {first last : Int}

theorem Left.rest {g : FileRange} (h : Left first last f) (hg : g ∈ f.rest n) : Left first last g := by
  obtain ⟨hpos, hfirst, hlast⟩ := h
  refine ⟨FileRange.pos_of_mem_rest hg, ?_, ?_⟩
  all_goals
    rw [FileRange.rest] at hg
    split at hg
    · cases hg
    · rw [List.mem_singleton.mp hg]
      dsimp only
      omega

theorem moved_le (ha : Accepts fileLength f answer) (c : TcpConnection) :
    moved answer c = 0 ∨ 0 ≤ f.offset ∧ f.offset + moved answer c ≤ fileLength := by
  rw [moved]
  split
  · rcases ha with ⟨-, rfl⟩ | ⟨hoffset, n, rfl, -, hlength, -⟩
    · exact .inl rfl
    · exact hlength.imp_right fun hle => ⟨hoffset, hle⟩
  · exact .inl rfl

theorem rest_eq (f : FileRange) (n : Nat) : f.rest n = [] ∨ ∃ g, f.rest n = [g] := by
  rw [FileRange.rest]
  split
  · exact .inl rfl
  · exact .inr ⟨_, rfl⟩

theorem count_of_rest {g : FileRange} (h : g ∈ f.rest n) : g.count = f.count - n := by
  rw [FileRange.rest] at h
  split at h
  · cases h
  · rw [List.mem_singleton.mp h]

theorem accepts_of_waiting (hrun : Run fileLength passes trace) (hf : Waiting [f] (trace n)) :
    Accepts fileLength f (passes n).answer :=
  hrun.accepts n f (by rw [hf.queued]; exact List.mem_singleton.mpr rfl)

theorem run_pass (hrun : Run fileLength passes trace) (hleft : Left first last f) (hf : Waiting [f] (trace n)) :
    Waiting [] (trace (n + 1)) ∨ ∃ g, Left first last g ∧ Waiting [g] (trace (n + 1)) ∧ g.count ≤ f.count ∧
      (Clear (passes n) (trace n) → 0 ≤ first → last ≤ fileLength → g.count < f.count) := by
  have ha := accepts_of_waiting hrun hf
  obtain ⟨b, hclear, hb⟩ := hf.pass ha.ok (hrun.connected n) (hrun.next n)
  rcases rest_eq f (moved (passes n).answer b) with hr | ⟨g, hr⟩
  · rw [hr] at hb
    exact .inl hb
  · have hg : g ∈ f.rest (moved (passes n).answer b) := by
      rw [hr]
      exact List.mem_singleton.mpr rfl
    have hcount := count_of_rest hg
    rw [hr] at hb
    refine .inr ⟨g, hleft.rest hg, hb, by omega, fun hc hfirst hlast => ?_⟩
    obtain ⟨hfpos, hbegin, hend⟩ := hleft
    have hlength := hrun.length
    obtain ⟨-, m, hm, -, -, hpos⟩ := ha.resolve_left (fun hinvalid => by omega)
    rw [moved_of_idle (hclear hc), hm, written] at hcount
    have hmpos := hpos hfpos (by omega)
    omega

theorem run_waiting (hrun : Run fileLength passes trace)
    (hstart : start fileDescriptor offset count (trace 0)) (hpos : 0 < count) (n : Nat) :
    Waiting [] (trace n) ∨ ∃ f, Left offset (offset + count) f ∧ Waiting [f] (trace n) := by
  induction n with
  | zero =>
      exact .inr ⟨⟨fileDescriptor, offset, count⟩, ⟨hpos, Int.le_refl _, rfl⟩, start_waiting hstart⟩
  | succ n ih =>
      rcases ih with hnil | ⟨f, hleft, hf⟩
      · exact .inl (hnil.pass_nil (hrun.connected n) (hrun.next n))
      · rcases run_pass hrun hleft hf with hnil | ⟨g, hg, hwg, -⟩
        · exact .inl hnil
        · exact .inr ⟨g, hg, hwg⟩

/-- Before the beginning of the file nothing is sent, and past its end something is always left. -/
theorem run_never (hrun : Run fileLength passes trace) (hstart : start fileDescriptor offset count (trace 0))
    (hpos : 0 < count) (hout : offset < 0 ∨ fileLength < offset + count) (n : Nat) :
    ∃ f, Left offset (offset + count) f ∧ (f.offset < 0 ∨ fileLength < offset + count) ∧ Waiting [f] (trace n) := by
  induction n with
  | zero => exact ⟨⟨fileDescriptor, offset, count⟩, ⟨hpos, Int.le_refl _, rfl⟩, hout, start_waiting hstart⟩
  | succ n ih =>
      obtain ⟨f, hleft, hout, hf⟩ := ih
      have ha := accepts_of_waiting hrun hf
      obtain ⟨b, -, hb⟩ := hf.pass ha.ok (hrun.connected n) (hrun.next n)
      have hmoved := moved_le ha b
      have hmore : ¬ f.count ≤ moved (passes n).answer b := by
        obtain ⟨hfpos, hfirst, hend⟩ := hleft
        omega
      have hg := hleft.rest (by rw [FileRange.rest_of_not_le hmore]; exact List.mem_singleton.mpr rfl)
      rw [FileRange.rest_of_not_le hmore] at hb
      refine ⟨_, hg, ?_, hb⟩
      dsimp only
      omega

theorem run_stays (hrun : Run fileLength passes trace) {m : Nat} (h : Waiting [] (trace n)) (hnm : n ≤ m) :
    Waiting [] (trace m) :=
  propagate (P := fun n => Waiting [] (trace n))
    (fun n hn => hn.pass_nil (hrun.connected n) (hrun.next n)) hnm h

theorem run_empty (hrun : Run fileLength passes trace) (hstart : start fileDescriptor offset 0 (trace 0)) :
    Waiting [] (trace 1) := by
  have hf := start_waiting hstart
  obtain ⟨b, -, hb⟩ := hf.pass (accepts_of_waiting hrun hf).ok (hrun.connected 0) (hrun.next 0)
  rwa [FileRange.rest_of_le (Nat.zero_le _)] at hb

def remaining (c : TcpConnection) : Nat := ((queued c.pendingFunctors).map FileRange.count).sum

theorem run_finishes (hrun : Run fileLength passes trace) (hstart : start fileDescriptor offset count (trace 0))
    (hpos : 0 < count) (hfirst : 0 ≤ offset) (hlast : offset + count ≤ fileLength)
    (hclear : ∀ N, ∃ n, N ≤ n ∧ (queued (trace n).pendingFunctors = [] ∨ Clear (passes n) (trace n))) :
    ∃ n, Waiting [] (trace n) := by
  have hremaining {n : Nat} {g : FileRange} (hg : Waiting [g] (trace n)) : remaining (trace n) = g.count := by
    rw [remaining, hg.queued]
    exact Nat.add_zero _
  have hnone {n : Nat} (hn : Waiting [] (trace n)) : remaining (trace n) = 0 := by
    rw [remaining, hn.queued]
    rfl
  apply reached_of_often (fun n => remaining (trace n))
  · intro n
    rcases run_waiting hrun hstart hpos n with hnil | ⟨f, hleft, hf⟩
    · exact .inl hnil
    · right
      rw [hremaining hf]
      rcases run_pass hrun hleft hf with hnil | ⟨g, -, hg, hle, -⟩
      · rw [hnone hnil]
        exact Nat.zero_le _
      · rw [hremaining hg]
        exact hle
  · intro N
    obtain ⟨n, hn, hclear⟩ := hclear N
    refine ⟨n, hn, ?_⟩
    rcases run_waiting hrun hstart hpos n with hnil | ⟨f, hleft, hf⟩
    · exact .inl hnil
    · right
      have hclear := hclear.resolve_left (by rw [hf.queued]; simp)
      rw [hremaining hf]
      rcases run_pass hrun hleft hf with hnil | ⟨g, -, hg, -, hlt⟩
      · rw [hnone hnil]
        exact hleft.pos
      · rw [hremaining hg]
        exact hlt hclear hfirst hlast

theorem run_clear (hrun : Run fileLength passes trace) (hstart : start fileDescriptor offset count (trace 0))
    (hpos : 0 < count) (hquiet : ∃ N, ∀ n, N ≤ n → (passes n).before = [] ∧ (passes n).after = []) (N : Nat) :
    ∃ n, N ≤ n ∧ (queued (trace n).pendingFunctors = [] ∨ Clear (passes n) (trace n)) := by
  obtain ⟨N₀, hquiet⟩ := hquiet
  obtain ⟨n, hn, hclear⟩ := reached_of_measure (P := fun n => Clear (passes n) (trace n))
    (fun n => (trace n).outputBuffer.readableBytes) (N + N₀) (fun n hn => by
      rcases run_waiting hrun hstart hpos n with hnil | ⟨f, -, hf⟩
      · exact clear_or_less hnil (.inl rfl) (hquiet n (by omega)) (hrun.next n)
      · exact clear_or_less hf (.inr ⟨f, rfl⟩) (hquiet n (by omega)) (hrun.next n))
  exact ⟨n, by omega, .inr hclear⟩

/-- The functor of the file stops queueing itself if and only if the range that is to be sent
lies in the file and the output in front of it does not stay for ever; without new sends it
does not. -/
theorem sendFile_stops_iff (hrun : Run fileLength passes trace)
    (hstart : start fileDescriptor offset count (trace 0)) :
    ((∃ n, ∀ m, n ≤ m → queued (trace m).pendingFunctors = []) ↔
      count = 0 ∨ (0 ≤ offset ∧ offset + count ≤ fileLength) ∧
        ∀ N, ∃ n, N ≤ n ∧ (queued (trace n).pendingFunctors = [] ∨ Clear (passes n) (trace n))) ∧
    ((∃ N, ∀ n, N ≤ n → (passes n).before = [] ∧ (passes n).after = []) →
      ((∃ n, ∀ m, n ≤ m → queued (trace m).pendingFunctors = []) ↔
        count = 0 ∨ 0 ≤ offset ∧ offset + count ≤ fileLength)) := by
  have hiff : (∃ n, ∀ m, n ≤ m → queued (trace m).pendingFunctors = []) ↔
      count = 0 ∨ (0 ≤ offset ∧ offset + count ≤ fileLength) ∧
        ∀ N, ∃ n, N ≤ n ∧ (queued (trace n).pendingFunctors = [] ∨ Clear (passes n) (trace n)) := by
    rcases Nat.eq_zero_or_pos count with rfl | hpos
    · exact iff_of_true ⟨1, fun m hm => (run_stays hrun (run_empty hrun hstart) hm).queued⟩ (.inl rfl)
    rw [or_iff_right (Nat.ne_of_gt hpos)]
    constructor
    · rintro ⟨n, hn⟩
      refine ⟨?_, fun N => ⟨n + N, Nat.le_add_left _ _, .inl (hn _ (Nat.le_add_right _ _))⟩⟩
      by_contra hmore
      obtain ⟨f, -, -, hf⟩ := run_never hrun hstart hpos (by omega) n
      cases hf.queued.symm.trans (hn n (Nat.le_refl n))
    · rintro ⟨⟨hfirst, hlast⟩, hclear⟩
      obtain ⟨n, hn⟩ := run_finishes hrun hstart hpos hfirst hlast hclear
      exact ⟨n, fun m hnm => (run_stays hrun hn hnm).queued⟩
  refine ⟨hiff, fun hquiet => hiff.trans ?_⟩
  rcases Nat.eq_zero_or_pos count with rfl | hpos
  · exact iff_of_true (.inl rfl) (.inl rfl)
  · rw [and_iff_left (run_clear hrun hstart hpos hquiet)]

def established : TcpConnection := (TcpConnection.new 64 false false).connectEstablished

theorem start_established (fileDescriptor : Nat) (offset : Int) (count : Nat) :
    start fileDescriptor offset count (established.queueInLoop (.sendFileInLoop fileDescriptor offset count)) :=
  ⟨established, .start ⟨64, false, false, rfl⟩, rfl, rfl⟩

theorem established_idle : established.channel.isWriting = false ∧ established.outputBuffer.readableBytes = 0 := by
  decide

theorem pass_idle (hidle : c.channel.isWriting = false) (answer : Except Errno Nat) :
    pass ⟨0, [], answer, []⟩ c = doPendingFunctors answer c := by
  simp [pass, poll, hidle]

def threeBytes : Nat → TcpConnection
  | 0 => established.queueInLoop (.sendFileInLoop 5 0 3)
  | 1 => (established.emit (.sendfile 5 0 3 (.ok 2))).queueInLoop (.sendFileInLoop 5 2 1)
  | _ + 2 => (established.emit (.sendfile 5 0 3 (.ok 2))).emit (.sendfile 5 2 1 (.ok 1))

theorem threeBytes_run : Run 3 (fun n => ⟨0, [], .ok (2 - n), []⟩) threeBytes := by
  refine ⟨by decide, fun n => ?_, fun n f hf => ?_, by simp⟩
  · match n with
    | 0 => rfl
    | 1 => rfl
    | n + 2 => exact pass_idle (c := threeBytes (n + 2)) established_idle.1 _
  · match n with
    | 0 =>
        cases List.mem_singleton.mp hf
        exact .inr ⟨by decide, 2, rfl, by decide, by decide, by decide⟩
    | 1 =>
        cases List.mem_singleton.mp hf
        exact .inr ⟨by decide, 1, rfl, by decide, by decide, by decide⟩
    | _ + 2 => cases hf

theorem sendFile_stops_two_calls : ∃ n, ∀ m, n ≤ m → queued (threeBytes m).pendingFunctors = [] :=
  ((sendFile_stops_iff threeBytes_run (start_established 5 0 3)).2 ⟨0, fun _ _ => ⟨rfl, rfl⟩⟩).mpr (.inr (by decide))

def endless (n : Nat) : TcpConnection :=
  { established with
    pendingFunctors := [.sendFileInLoop 5 0 1]
    log := established.log ++ List.replicate n (.sendfile 5 0 1 (.ok 0)) }

theorem endless_run : Run 0 (fun _ => ⟨0, [], .ok 0, []⟩) endless := by
  refine ⟨by decide, fun n => ?_, fun n f hf => ?_, by simp⟩
  · have hidle : (endless n).channel.isWriting = false ∧ (endless n).outputBuffer.readableBytes = 0 :=
      established_idle
    have hstate : (endless n).state ≠ .kDisconnecting := by
      intro h
      cases h
    have hrun : doPendingFunctors (.ok 0) (endless n) =
        some ({ endless n with pendingFunctors := [] }.sendFileInLoop 5 0 1 (.ok 0)) := rfl
    rw [pass_idle hidle.1, hrun, TcpConnection.sendFileInLoop, if_neg hstate, if_pos hidle, endless, endless,
      List.replicate_succ', ← List.append_assoc]
    rfl
  · cases List.mem_singleton.mp hf
    exact .inr ⟨by decide, 0, rfl, by decide, by decide, by decide⟩

/-- The file ends at the offset: sendfile returns 0 and the functor is queued for ever. -/
theorem end_of_file_queues_for_ever :
    ¬ ∀ fileLength fileDescriptor offset count passes trace, Run fileLength passes trace →
      start fileDescriptor offset count (trace 0) →
      ∃ n, ∀ m, n ≤ m → queued (trace m).pendingFunctors = [] := by
  intro h
  have hstart : start 5 0 1 (endless 0) := start_established 5 0 1
  obtain ⟨n, hn⟩ := h 0 5 0 1 _ endless endless_run hstart
  cases hn n (Nat.le_refl n)

end FileTransfer

end LearnNote.Muduo
