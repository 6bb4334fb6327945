import LearnNote.Lib.Transition
import LearnNote.Muduo.LoopMoves
import LearnNote.Muduo.OutputFlow

namespace LearnNote.Muduo

open Lib.History Lib.Transition

/-- A part of a file that is still to be sent. -/
structure FileRange where
  fileDescriptor : Nat
  offset : Int
  count : Nat
deriving DecidableEq

namespace FileRange

def rest (n : Nat) (f : FileRange) : List FileRange :=
  if f.count ≤ n then [] else [⟨f.fileDescriptor, f.offset + n, f.count - n⟩]

theorem rest_of_le {n : Nat} {f : FileRange} (h : f.count ≤ n) : f.rest n = [] := if_pos h

theorem rest_of_not_le {n : Nat} {f : FileRange} (h : ¬ f.count ≤ n) :
    f.rest n = [⟨f.fileDescriptor, f.offset + n, f.count - n⟩] := if_neg h

theorem rest_zero {f : FileRange} (h : 0 < f.count) : f.rest 0 = [f] := by
  rw [rest_of_not_le (Nat.not_le_of_lt h)]
  simp

theorem pos_of_mem_rest {n : Nat} {f g : FileRange} (h : g ∈ f.rest n) : 0 < g.count := by
  rw [rest] at h
  split at h
  · cases h
  next hn =>
    rw [List.mem_singleton.mp h]
    exact Nat.sub_pos_of_lt (Nat.lt_of_not_le hn)

end FileRange

namespace FileStream

/-- The bytes of a file from an offset on. Those at a negative offset are never sent. -/
def range (files : Nat → Int → UInt8) (fileDescriptor : Nat) (offset : Int) (count : Nat) : List UInt8 :=
  (List.range count).map (fun i : Nat => files fileDescriptor (offset + i))

def bytes (files : Nat → Int → UInt8) (fs : List FileRange) : List UInt8 :=
  fs.flatMap (fun f => range files f.fileDescriptor f.offset f.count)

/-- The files that the history has left unfinished, in the order of the calls, if
each transfer was one of the first of them. -/
def track (fs : List FileRange) : Effect → List FileRange
  | .sendFile fileDescriptor offset count => fs ++ FileRange.rest 0 ⟨fileDescriptor, offset, count⟩
  | .sendfile _ _ _ answer =>
      match fs with
      | [] => []
      | f :: fs => f.rest (written answer) ++ fs
  | _ => fs

def unfinished (log : List Effect) : List FileRange := log.foldl track []

def fileOf : Functor → Option FileRange
  | .sendFileInLoop fileDescriptor offset count => some ⟨fileDescriptor, offset, count⟩
  | _ => none

def queued (fs : List Functor) : List FileRange := fs.filterMap fileOf

variable {files : Nat → Int → UInt8} {c d t : TcpConnection} {f : FileRange} {fs : List FileRange}

theorem range_split (fileDescriptor : Nat) (offset : Int) (count n : Nat) :
    (range files fileDescriptor offset count).take n ++
      bytes files (FileRange.rest n ⟨fileDescriptor, offset, count⟩) = range files fileDescriptor offset count := by
  rw [FileRange.rest]
  split
  next h =>
    rw [List.take_of_length_le (by simpa [range] using h)]
    exact List.append_nil _
  next h =>
    have hn : n + (count - n) = count := Nat.add_sub_of_le (Nat.le_of_not_le h)
    rw [bytes, List.flatMap_singleton]
    simp only [range, ← List.map_take, List.take_range, Nat.min_eq_left (Nat.le_of_not_le h)]
    conv_rhs => rw [← hn, List.range_add, List.map_append, List.map_map]
    simp [Int.add_assoc, Function.comp_def]

theorem bytes_append (fs gs : List FileRange) : bytes files (fs ++ gs) = bytes files fs ++ bytes files gs :=
  List.flatMap_append

theorem unfinished_concat (log : List Effect) (e : Effect) : unfinished (log ++ [e]) = track (unfinished log) e := by
  simp [unfinished]

theorem track_output {e : Effect} (h : e.Output) (fs : List FileRange) : track fs e = fs := by
  cases e <;> first | rfl | cases h

theorem unfinished_extends {log log' : List Effect} (h : Extends Effect.Output log log') :
    unfinished log' = unfinished log := by
  obtain ⟨es, rfl, hes⟩ := h
  induction es generalizing log with
  | nil => rw [List.append_nil]
  | cons e es ih =>
      rw [List.append_cons, ih (fun x hx => hes x (List.mem_cons_of_mem e hx)), unfinished_concat,
        track_output (hes e List.mem_cons_self)]

theorem queued_extends {fs fs' : List Functor} (h : Extends Functor.Notice fs fs') : queued fs' = queued fs := by
  obtain ⟨es, rfl, hes⟩ := h
  have hnil : es.filterMap fileOf = [] := by
    refine List.filterMap_eq_nil_iff.mpr (fun f hf => ?_)
    have hnotice := hes f hf
    cases f <;> first | rfl | cases hnotice
  rw [queued, List.filterMap_append, hnil, List.append_nil, queued]

/-- The bytes of the unfinished files follow the output buffer. The files are in
the queue, but for those in hand. -/
structure Held (files : Nat → Int → UInt8) (hand : List FileRange) (c : TcpConnection) : Prop where
  carries : Carries (range files) (bytes files (unfinished c.log)) c
  interest : Interest c
  queue : (hand ++ queued c.pendingFunctors).Perm (unfinished c.log)
  known : ∀ f ∈ c.pendingFunctors, f.Notice ∨ (fileOf f).isSome
  positive : ∀ f ∈ unfinished c.log, 0 < f.count
  state : c.state = .kConnected ∨ c.state = .kDisconnecting ∧ unfinished c.log = []

namespace Held

variable {hand : List FileRange} {answer : Except Errno Nat}

theorem nothing_left (h : Held files hand c) (hstate : c.state = .kDisconnecting) : unfinished c.log = [] := by
  rcases h.state with hs | ⟨-, hnil⟩
  · rw [hstate] at hs
    cases hs
  · exact hnil

theorem grows (h : Held files hand c) (hg : Grows c t) (hc : Carries (range files) (bytes files (unfinished c.log)) t)
    (hi : Interest t) : Held files hand t := by
  have hu := unfinished_extends hg.log
  refine ⟨hu.symm ▸ hc, hi, ?_, ?_, hu.symm ▸ h.positive, ?_⟩
  · rw [queued_extends hg.pending, hu]
    exact h.queue
  · obtain ⟨es, hes, hnotice⟩ := hg.pending
    rw [hes]
    intro f hf
    rcases List.mem_append.mp hf with hf | hf
    · exact h.known f hf
    · exact .inl (hnotice f hf)
  · rw [hg.state, hu]
    exact h.state

theorem handleWrite (h : Held files hand c) (answer : Except Errno Nat) : Held files hand (c.handleWrite answer) := by
  have hrest : c.state = .kDisconnecting → bytes files (unfinished c.log) = [] := fun hs => by
    rw [h.nothing_left hs]
    rfl
  obtain ⟨hc, hi⟩ := h.carries.handleWrite h.interest hrest answer
  exact h.grows (.handleWrite answer c) hc hi

theorem send (h : Held files hand c) (data : Payload) (horder : data.bytes = [] ∨ unfinished c.log = [])
    (hf : ∀ errno, answer = .error errno → errno.fault = false) (hs : c.sendInLoop data.bytes answer = some t) :
    Held files hand t := by
  have horder' : data.bytes = [] ∨ bytes files (unfinished c.log) = [] := horder.imp_right (fun hu => by
    rw [hu]
    rfl)
  obtain ⟨hc, hi⟩ := h.carries.sendInLoop h.interest data horder' hf hs
  exact h.grows (.sendInLoop hs) hc hi

theorem shutdown (h : Held files hand c) (hnil : c.state = .kConnected → unfinished c.log = []) :
    Held files hand c.shutdown := by
  rw [TcpConnection.shutdown]
  split
  next hstate =>
    have hu := hnil hstate
    have hlog : unfinished (c.setState .kDisconnecting).log = [] := (unfinished_concat c.log _).trans hu
    have hset : Held files hand (c.setState .kDisconnecting) := by
      refine ⟨?_, h.interest, ?_, h.known, ?_, .inr ⟨rfl, hlog⟩⟩
      · have hc := h.carries.setState .kDisconnecting
        rwa [hu, ← hlog] at hc
      · rw [hlog, ← hu]
        exact h.queue
      · rw [hlog]
        nofun
    have hc := hset.carries
    rw [hlog] at hc
    obtain ⟨hc', hi⟩ := hc.shutdownInLoop hset.interest
    refine hset.grows (.shutdownInLoop (.refl _)) ?_ hi
    rw [hlog]
    exact hc'
  next => exact h

theorem call (h : Held files [] c) (hstate : c.state = .kConnected) (f : FileRange) :
    Held files (f.rest 0) (c.emit (.sendFile f.fileDescriptor f.offset f.count)) := by
  have hu : unfinished (c.emit (.sendFile f.fileDescriptor f.offset f.count)).log = unfinished c.log ++ f.rest 0 :=
    unfinished_concat c.log _
  have hsplit := @range_split files f.fileDescriptor f.offset f.count 0
  refine ⟨?_, h.interest, ?_, h.known, ?_, .inl hstate⟩
  · refine h.carries.emit nofun ?_
    rw [hu, bytes_append]
    simpa [Effect.given, Effect.taken] using hsplit.symm
  · rw [hu]
    exact (h.queue.append_left (f.rest 0)).trans List.perm_append_comm
  · rw [hu]
    intro g hg
    rcases List.mem_append.mp hg with hg | hg
    · exact h.positive g hg
    · exact FileRange.pos_of_mem_rest hg

theorem sendfile (h : Held files (f.rest 0) c) (hidle : c.outputBuffer.readableBytes = 0)
    (hfirst : written answer = 0 ∨ (unfinished c.log).head? = some f) :
    Held files (f.rest (written answer)) (c.emit (.sendfile f.fileDescriptor f.offset f.count answer)) := by
  have hcontent : c.outputBuffer.content = [] := h.carries.content_eq_nil.mpr hidle
  have hstep : ∀ fs, unfinished (c.emit (.sendfile f.fileDescriptor f.offset f.count answer)).log = fs →
      bytes files (unfinished c.log) = (range files f.fileDescriptor f.offset f.count).take (written answer) ++
        bytes files fs → (f.rest (written answer) ++ queued c.pendingFunctors).Perm fs →
      (∀ g ∈ fs, 0 < g.count) → (unfinished c.log = [] → fs = []) →
      Held files (f.rest (written answer)) (c.emit (.sendfile f.fileDescriptor f.offset f.count answer)) := by
    rintro fs rfl hb hp hpos hnil
    refine ⟨h.carries.emit (by simp) ?_, h.interest, hp, h.known, hpos, h.state.imp_right (fun hs => ⟨hs.1, hnil hs.2⟩)⟩
    simpa [Effect.given, Effect.taken, hcontent] using hb
  have hlog := unfinished_concat c.log (.sendfile f.fileDescriptor f.offset f.count answer)
  cases hu : unfinished c.log with
  | nil =>
      rw [hu] at hlog hfirst
      obtain hz := hfirst.resolve_right (by simp)
      refine hstep [] hlog ?_ ?_ (by simp) (fun _ => rfl)
      · rw [hu, hz]
        rfl
      · rw [hz, ← hu]
        exact h.queue
  | cons g gs =>
      have hpos : ∀ x ∈ g :: gs, 0 < x.count := hu ▸ h.positive
      rw [hu] at hlog hfirst
      rcases hfirst with hz | hg
      · have hg : g.rest 0 = [g] := FileRange.rest_zero (hpos g List.mem_cons_self)
        refine hstep (g :: gs) ?_ ?_ ?_ hpos (fun hn => ?_)
        · rw [TcpConnection.emit, hlog, track, hz, hg]
          rfl
        · rw [hu, hz, List.take_zero, List.nil_append]
        · rw [hz, ← hu]
          exact h.queue
        · rw [hu] at hn
          cases hn
      · obtain rfl : g = f := Option.some.inj hg
        have hone : g.rest 0 = [g] := FileRange.rest_zero (hpos g List.mem_cons_self)
        refine hstep (g.rest (written answer) ++ gs) hlog ?_ ?_ ?_ (fun hn => ?_)
        · rw [hu, bytes_append, ← List.append_assoc, range_split]
          rfl
        · apply List.Perm.append_left
          have hq := h.queue
          rw [hone, hu] at hq
          exact hq.cons_inv
        · intro x hx
          rcases List.mem_append.mp hx with hx | hx
          · exact FileRange.pos_of_mem_rest hx
          · exact hpos x (List.mem_cons_of_mem g hx)
        · rw [hu] at hn
          cases hn

theorem requeue (h : Held files [f] c) :
    Held files [] (c.queueInLoop (.sendFileInLoop f.fileDescriptor f.offset f.count)) := by
  refine ⟨⟨h.carries.wf, h.carries.flow⟩, h.interest, ?_, ?_, h.positive, h.state⟩
  · have hq : queued (c.pendingFunctors ++ [.sendFileInLoop f.fileDescriptor f.offset f.count]) =
        queued c.pendingFunctors ++ [f] := by
      rw [queued, List.filterMap_append]
      rfl
    rw [TcpConnection.queueInLoop, hq, List.nil_append]
    exact List.perm_append_comm.trans h.queue
  · intro g hg
    rcases List.mem_append.mp hg with hg | hg
    · exact h.known g hg
    · rw [List.mem_singleton.mp hg]
      exact .inr rfl

theorem finish (h : Held files (f.rest 0) c) (hz : f.count = 0) : Held files [] c := by
  rwa [FileRange.rest_of_le (Nat.le_of_eq hz)] at h

theorem keep (h : Held files (f.rest 0) c) (hne : f.count ≠ 0) :
    Held files [] (c.queueInLoop (.sendFileInLoop f.fileDescriptor f.offset f.count)) := by
  rw [FileRange.rest_zero (Nat.pos_of_ne_zero hne)] at h
  exact h.requeue

theorem sendFileInLoop (h : Held files (f.rest 0) c) (hf : ∀ errno, answer = .error errno → errno.fault = false)
    (hstate : c.state = .kConnected)
    (hfirst : c.channel.isWriting = false ∧ c.outputBuffer.readableBytes = 0 →
      written answer = 0 ∨ (unfinished c.log).head? = some f) :
    Held files [] (c.sendFileInLoop f.fileDescriptor f.offset f.count answer) := by
  have hconnected : c.state ≠ .kDisconnecting := by
    rw [hstate]
    nofun
  rw [TcpConnection.sendFileInLoop, if_neg hconnected]
  split
  next hidle =>
    have hsent := h.sendfile hidle.2 (hfirst hidle)
    cases answer with
    | ok bytesSent =>
        simp only
        split
        next hz =>
          have hrest : f.rest (written (.ok bytesSent)) = [] := FileRange.rest_of_le (Nat.le_of_sub_eq_zero hz)
          rw [hrest] at hsent
          obtain ⟨hc, hi⟩ := And.intro hsent.carries.writeCompleted hsent.interest.writeCompleted
          exact hsent.grows (Grows.refl _).writeCompleted hc hi
        next hne =>
          have hrest : f.rest (written (.ok bytesSent)) =
              [⟨f.fileDescriptor, f.offset + bytesSent, f.count - bytesSent⟩] :=
            FileRange.rest_of_not_le (fun hle => hne (Nat.sub_eq_zero_of_le hle))
          rw [hrest] at hsent
          exact hsent.requeue
    | error errno =>
        simp only [hf errno rfl, Bool.false_eq_true, false_or]
        split
        next hz => exact hsent.finish hz
        next hne => exact hsent.keep hne
  next =>
    split
    next hz => exact h.finish hz
    next hne => exact h.keep hne

end Held

inductive Act
  | send (data : Payload) (answer : Except Errno Nat)
  | sendFile (fileDescriptor : Nat) (offset : Int) (count : Nat) (answer : Except Errno Nat)
  | shutdown
  | handleWrite (answer : Except Errno Nat)
  | runPending (answer : Except Errno Nat)

/-- The user's calls in the loop thread, and what the loop thread does besides.
The kernel takes no more than it is offered. -/
def step : Act → TcpConnection → Option TcpConnection
  | .send data answer, c =>
      if c.state ≠ .kConnected then some c
      else if written answer ≤ data.bytes.length then c.sendInLoop data.bytes answer else none
  | .sendFile fileDescriptor offset count answer, c =>
      if Sends offset count answer then some (c.sendFile fileDescriptor offset count answer) else none
  | .shutdown, c => some c.shutdown
  | .handleWrite answer, c =>
      if written answer ≤ c.outputBuffer.readableBytes then some (c.handleWrite answer) else none
  | .runPending answer, c =>
      match c.pendingFunctors with
      | [] => none
      | f :: fs => ConnectionLoop.runFunctor (fun _ => 0) answer { c with pendingFunctors := fs } f

def start (c : TcpConnection) : Prop :=
  ∃ mark high complete, c = (TcpConnection.new mark high complete).connectEstablished

def NoFault : Act → TcpConnection → Prop
  | .send _ answer, _ | .sendFile _ _ _ answer, _ | .handleWrite answer, _ | .runPending answer, _ =>
      ∀ errno, answer = .error errno → errno.fault = false
  | .shutdown, _ => True

/-- A transfer that moves bytes moves those of the oldest unfinished file. -/
def Oldest (f : FileRange) (answer : Except Errno Nat) (fs : List FileRange) (c : TcpConnection) : Prop :=
  c.channel.isWriting = false ∧ c.outputBuffer.readableBytes = 0 → written answer = 0 ∨ fs.head? = some f

/-- Nothing is sent and the connection is not shut down while a file is
unfinished, and the unfinished files are sent in the order of their calls. -/
def InOrder : Act → TcpConnection → Prop
  | .send data _, c => c.state = .kConnected → data.bytes = [] ∨ unfinished c.log = []
  | .sendFile fileDescriptor offset count answer, c =>
      c.state = .kConnected → Oldest ⟨fileDescriptor, offset, count⟩ answer
        (unfinished c.log ++ [⟨fileDescriptor, offset, count⟩]) c
  | .shutdown, c => c.state = .kConnected → unfinished c.log = []
  | .handleWrite _, _ => True
  | .runPending answer, c =>
      match c.pendingFunctors.head?.bind fileOf with
      | some f => Oldest f answer (unfinished c.log) c
      | none => True

instance decidableNoFault : ∀ (a : Act) (c : TcpConnection), Decidable (NoFault a c)
  | .send _ (.ok _), _ | .sendFile _ _ _ (.ok _), _ | .handleWrite (.ok _), _ | .runPending (.ok _), _ => .isTrue nofun
  | .send _ (.error errno), _ | .sendFile _ _ _ (.error errno), _ | .handleWrite (.error errno), _
  | .runPending (.error errno), _ =>
      decidable_of_iff (errno.fault = false) ⟨fun h _ he => Except.error.inj he ▸ h, fun h => h errno rfl⟩
  | .shutdown, _ => .isTrue trivial

instance (f : FileRange) (answer : Except Errno Nat) (fs : List FileRange) (c : TcpConnection) :
    Decidable (Oldest f answer fs c) := by
  unfold Oldest
  infer_instance

instance (a : Act) (c : TcpConnection) : Decidable (InOrder a c) := by
  unfold InOrder
  split
  case h_5 => split <;> infer_instance
  all_goals infer_instance

theorem start_held (h : start c) : Held files [] c := by
  obtain ⟨mark, high, complete, rfl⟩ := h
  obtain ⟨hc, hi⟩ : Carries (range files) [] _ ∧ Interest _ := Carries.established mark high complete
  exact ⟨hc, hi, .nil, nofun, nofun, .inl rfl⟩

theorem Held.sendFile (h : Held files [] c) {fileDescriptor : Nat} {offset : Int} {count : Nat}
    {answer : Except Errno Nat}
    (hf : ∀ errno, answer = .error errno → errno.fault = false) (hle : Sends offset count answer)
    (ho : c.state = .kConnected → Oldest ⟨fileDescriptor, offset, count⟩ answer
      (unfinished c.log ++ [⟨fileDescriptor, offset, count⟩]) c) :
    Held files [] (c.sendFile fileDescriptor offset count answer) := by
  rw [TcpConnection.sendFile]
  split
  next hstate =>
    refine (h.call hstate ⟨fileDescriptor, offset, count⟩).sendFileInLoop hf hstate (fun hidle => ?_)
    by_cases hz : count = 0
    · exact .inl (Nat.eq_zero_of_le_zero (hz ▸ hle.1))
    · have hlog : unfinished (c.emit (.sendFile fileDescriptor offset count)).log =
          unfinished c.log ++ [⟨fileDescriptor, offset, count⟩] := by
        rw [TcpConnection.emit, unfinished_concat, track, FileRange.rest_zero (Nat.pos_of_ne_zero hz)]
      rw [hlog]
      exact ho hstate hidle
  next => exact h

theorem Held.pop (h : Held files [] c) {g : Functor} {gs : List Functor} (hp : c.pendingFunctors = g :: gs) :
    Held files (queued [g]) { c with pendingFunctors := gs } := by
  have hq : queued c.pendingFunctors = queued [g] ++ queued gs := by
    rw [hp, ← List.singleton_append, queued, List.filterMap_append]
    rfl
  refine ⟨⟨h.carries.wf, h.carries.flow⟩, h.interest, ?_, fun x hx => h.known x ?_, h.positive, h.state⟩
  · have hperm := h.queue
    rwa [List.nil_append, hq] at hperm
  · rw [hp]
    exact List.mem_cons_of_mem g hx

theorem Held.runPending (h : Held files [] c) {g : Functor} {gs : List Functor} {answer : Except Errno Nat}
    (hp : c.pendingFunctors = g :: gs) (hf : ∀ errno, answer = .error errno → errno.fault = false)
    (ho : ∀ f, fileOf g = some f → Oldest f answer (unfinished c.log) c)
    (hr : ConnectionLoop.Runs (fun _ => 0) answer { c with pendingFunctors := gs } g t) : Held files [] t := by
  have hpop := h.pop hp
  have hknown := h.known g (hp ▸ List.mem_cons_self)
  cases hr with
  | sendFileInLoop fileDescriptor offset count =>
      have hmem : (⟨fileDescriptor, offset, count⟩ : FileRange) ∈ unfinished c.log :=
        hpop.queue.subset (List.mem_append_left _ (List.mem_singleton.mpr rfl))
      have hpos := h.positive _ hmem
      have hconnected : c.state = .kConnected := by
        rcases h.state with hstate | ⟨-, hnil⟩
        · exact hstate
        · rw [hnil] at hmem
          cases hmem
      have hone : queued [.sendFileInLoop fileDescriptor offset count] =
          FileRange.rest 0 ⟨fileDescriptor, offset, count⟩ := (FileRange.rest_zero hpos).symm
      rw [hone] at hpop
      exact hpop.sendFileInLoop hf hconnected (ho _ rfl)
  | writeCompleteCallback => exact hpop
  | highWaterMarkCallback => exact hpop
  | sendInLoop => rcases hknown with hn | hn <;> cases hn
  | shutdownInLoop => rcases hknown with hn | hn <;> cases hn
  | connectDestroted => rcases hknown with hn | hn <;> cases hn

theorem step_held {a : Act} (h : Held files [] c) (hf : NoFault a c) (ho : InOrder a c) (hs : step a c = some t) :
    Held files [] t := by
  cases a with
  | send data answer =>
      simp only [step] at hs
      split at hs
      · cases hs
        exact h
      next hstate =>
        split at hs
        · exact h.send data (ho (not_not.mp hstate)) hf hs
        · cases hs
  | sendFile fileDescriptor offset count answer =>
      simp only [step] at hs
      split at hs
      next hle =>
        cases hs
        exact h.sendFile hf hle ho
      next => cases hs
  | shutdown =>
      cases hs
      exact h.shutdown ho
  | handleWrite answer =>
      simp only [step] at hs
      split at hs
      · cases hs
        exact h.handleWrite answer
      · cases hs
  | runPending answer =>
      simp only [step] at hs
      split at hs
      · cases hs
      next hp =>
        refine h.runPending hp hf (fun f hg => ?_) (ConnectionLoop.runs_of_runFunctor hs)
        simp only [InOrder, hp, List.head?_cons, Option.bind_some, hg] at ho
        exact ho

/-- Bytes are taken in the order of the calls, and the write end is shut down
only when all are: what is not taken yet is the output buffer and behind it the
unfinished files, all of which are queued. -/
theorem file_stream_in_order (files : Nat → Int → UInt8) (c : TcpConnection)
    (h : Reachable start step (fun a c => NoFault a c ∧ InOrder a c) c) :
    c.log.flatMap (Effect.taken (range files)) <+: c.log.flatMap (Effect.given (range files)) ∧
      c.log.flatMap (Effect.taken (range files)) ++ (c.outputBuffer.content ++ bytes files (unfinished c.log)) =
        c.log.flatMap (Effect.given (range files)) ∧
      (queued c.pendingFunctors).Perm (unfinished c.log) ∧
      ∀ earlier later, c.log = earlier ++ .shutdownWrite :: later →
        earlier.flatMap (Effect.taken (range files)) = earlier.flatMap (Effect.given (range files)) := by
  have hheld : Held files [] c :=
    h.invariant (I := Held files []) (fun _ => start_held) (fun _ _ _ h hc hs => step_held h hc.1 hc.2 hs)
  exact ⟨hheld.carries.flow.isPrefix, hheld.carries.flow.conserved, hheld.queue,
    fun earlier later hl => hheld.carries.flow.barrier _ _ _ hl rfl⟩

def fileThenSend : List Act :=
  [.sendFile 5 0 3 (.ok 1), .runPending (.ok 2), .send ⟨[9], by decide⟩ (.ok 1), .shutdown]

def established : TcpConnection := (TcpConnection.new 64 false false).connectEstablished

theorem file_stream_in_order_shutdown :
    ∃ c, Reachable start step (fun a c => NoFault a c ∧ InOrder a c) c ∧ c.state = .kDisconnecting ∧
      c.log.flatMap (Effect.taken (range (fun _ i => UInt8.ofNat i.toNat))) <+:
        c.log.flatMap (Effect.given (range (fun _ i => UInt8.ofNat i.toNat))) := by
  have hrun : (run (guarded step (fun a c => NoFault a c ∧ InOrder a c)) fileThenSend established).map
      (fun c => c.state) = some .kDisconnecting := by decide +kernel
  obtain ⟨c, hr, hc⟩ := reachable_of_run start hrun ⟨64, false, false, rfl⟩
  exact ⟨c, hr, hc, (file_stream_in_order _ c hr).1⟩

theorem send_inside_file :
    ¬ ∀ files c, Reachable start step NoFault c →
      c.log.flatMap (Effect.taken (range files)) <+: c.log.flatMap (Effect.given (range files)) := by
  intro h
  have hrun : (run (guarded step NoFault) [.sendFile 5 0 2 (.ok 1), .send ⟨[9], by decide⟩ (.ok 1)] established).map
      (fun c => (c.log.flatMap (Effect.taken (range (fun _ _ => 0))),
        c.log.flatMap (Effect.given (range (fun _ _ => 0))))) = some ([0, 9], [0, 0, 9]) := by decide +kernel
  obtain ⟨c, hr, hc⟩ := reachable_of_run start hrun ⟨64, false, false, rfl⟩
  have hprefix := h (fun _ _ => 0) c hr
  simp only [Prod.mk.injEq] at hc
  rw [hc.1, hc.2] at hprefix
  revert hprefix
  decide

/-- A shutdown while a file is unfinished closes the write end before its last byte. -/
theorem shutdown_inside_file :
    ∃ c, Reachable start step NoFault c ∧ .shutdownWrite ∈ c.log ∧
      (c.log.flatMap (Effect.taken (range (fun _ _ => 0)))).length <
        (c.log.flatMap (Effect.given (range (fun _ _ => 0)))).length := by
  have hrun : (run (guarded step NoFault) [.sendFile 5 0 2 (.ok 1), .shutdown] established).map
      (fun c => (decide (Effect.shutdownWrite ∈ c.log), (c.log.flatMap (Effect.taken (range (fun _ _ => 0)))).length,
        (c.log.flatMap (Effect.given (range (fun _ _ => 0)))).length)) = some (true, 1, 2) := by decide +kernel
  obtain ⟨c, hs, hc⟩ := Option.map_eq_some_iff.mp hrun
  simp only [Prod.mk.injEq, decide_eq_true_eq] at hc
  exact ⟨c, Reachable.run (.start ⟨64, false, false, rfl⟩) _ hs, hc.1, by rw [hc.2.1, hc.2.2]; decide⟩

end FileStream

end LearnNote.Muduo
