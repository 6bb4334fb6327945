import LearnNote.Lib.Transition
import LearnNote.Muduo.Buffer

namespace LearnNote.Muduo

open Lib.Transition

namespace BufferQueue

inductive Op
  | append (data : Payload)
  | ensureWritableBytes (len : UInt64)
  | retrieve (len : UInt64)
  | retrieveAll
  | retrieveAsString (len : UInt64)
  | retrieveAllAsString
  | readFd (answer : Except Errno (List UInt8))

inductive Result
  | void
  | string (s : List UInt8)
  | count (n : Except Errno Nat)
deriving DecidableEq

/-- A call on the buffer. One that throws or fails its assertion does not return. -/
def Op.call : Op → Buffer → Option (Result × Buffer)
  | .append data, b => (b.append data.bytes).map (.void, ·)
  | .ensureWritableBytes len, b => (b.ensureWritableBytes len.toNat).map (.void, ·)
  | .retrieve len, b => some (.void, b.retrieve len.toNat)
  | .retrieveAll, b => some (.void, b.retrieveAll)
  | .retrieveAsString len, b => (b.retrieveAsString len.toNat).map (fun r => (.string r.1, r.2))
  | .retrieveAllAsString, b => b.retrieveAllAsString.map (fun r => (.string r.1, r.2))
  | .readFd answer, b => (b.readFd answer).map (fun r => (.count r.1, r.2))

def Op.spec : Op → List UInt8 → Result × List UInt8
  | .append data, q => (.void, q ++ data.bytes)
  | .ensureWritableBytes _, q => (.void, q)
  | .retrieve len, q => (.void, q.drop len.toNat)
  | .retrieveAll, _ => (.void, [])
  | .retrieveAsString len, q => (.string (q.take len.toNat), q.drop len.toNat)
  | .retrieveAllAsString, q => (.string q, [])
  | .readFd (.error e), q => (.count (.error e), q)
  | .readFd (.ok data), q => (.count (.ok data.length), q ++ data)

/-- The buffer and the queue side by side, with the result of the last call on each. -/
structure Run where
  buffer : Buffer
  queue : List UInt8
  result : Result
  due : Result

def step (op : Op) (s : Run) : Option Run :=
  (op.call s.buffer).map (fun r => ⟨r.2, (op.spec s.queue).2, r.1, (op.spec s.queue).1⟩)

/-- A buffer is constructed with a size that does not wrap around. -/
def start (s : Run) : Prop :=
  ∃ n : UInt64, Buffer.kCheapPrepend + n.toNat < 2 ^ 64 ∧
    (Buffer.ofSize n.toNat).map (⟨·, [], .void, .void⟩) = some s

/-- The room that is asked for does not wrap around behind the writer index. -/
def Fits : Op → Run → Prop
  | .ensureWritableBytes len, s => s.buffer.writerIndex + len.toNat < 2 ^ 64
  | _, _ => True

instance : ∀ (op : Op) (s : Run), Decidable (Fits op s)
  | .ensureWritableBytes _, _ => inferInstanceAs (Decidable (_ < _))
  | .append _, _ | .retrieve _, _ | .retrieveAll, _ | .retrieveAsString _, _ | .retrieveAllAsString, _
  | .readFd _, _ => inferInstanceAs (Decidable True)

structure Refines (s : Run) : Prop where
  wf : s.buffer.WF
  content : s.buffer.content = s.queue
  result : s.result = s.due

def Room : Op → Run → Prop
  | .ensureWritableBytes len, s => len.toNat ≤ s.buffer.writableBytes
  | _, _ => True

theorem start_refines {s : Run} (h : start s) : Refines s := by
  obtain ⟨n, hn, hs⟩ := h
  obtain ⟨b, hb, rfl⟩ := Option.map_eq_some_iff.mp hs
  obtain ⟨hw, hc⟩ := Buffer.ofSize_wf hb hn
  exact ⟨hw, hc, rfl⟩

theorem readFd_spec (answer : Except Errno (List UInt8)) (q : List UInt8) :
    (Op.readFd answer).spec q = (.count (answer.map List.length), q ++ Buffer.received answer) := by
  cases answer with
  | error e => exact congrArg _ (List.append_nil q).symm
  | ok data => rfl

theorem step_refines {op : Op} {s t : Run} (h : Refines s) (hf : Fits op s) (hs : step op s = some t) :
    Refines t ∧ Room op t := by
  obtain ⟨⟨r, b⟩, hr, rfl⟩ := Option.map_eq_some_iff.mp hs
  obtain ⟨hw, hc, -⟩ := h
  cases op with
  | append data =>
      obtain ⟨a, ha, he⟩ := Option.map_eq_some_iff.mp hr
      cases he
      obtain ⟨hw', hc'⟩ := Buffer.append_payload_wf hw data ha
      exact ⟨⟨hw', hc'.trans (congrArg (· ++ data.bytes) hc), rfl⟩, trivial⟩
  | ensureWritableBytes len =>
      obtain ⟨a, ha, he⟩ := Option.map_eq_some_iff.mp hr
      cases he
      obtain ⟨hw', hc', hroom⟩ := Buffer.ensureWritableBytes_wf hw hf ha
      exact ⟨⟨hw', hc'.trans hc, rfl⟩, hroom⟩
  | retrieve len =>
      cases hr
      obtain ⟨hw', hc'⟩ := Buffer.retrieve_wf hw len.toNat
      exact ⟨⟨hw', hc'.trans (congrArg _ hc), rfl⟩, trivial⟩
  | retrieveAll =>
      cases hr
      obtain ⟨hw', hc'⟩ := Buffer.retrieveAll_wf hw
      exact ⟨⟨hw', hc', rfl⟩, trivial⟩
  | retrieveAsString len =>
      obtain ⟨⟨x, a⟩, ha, he⟩ := Option.map_eq_some_iff.mp hr
      cases he
      obtain ⟨hw', rfl, hc'⟩ := Buffer.retrieveAsString_wf hw ha
      exact ⟨⟨hw', hc'.trans (congrArg _ hc), congrArg (fun q => Result.string (q.take len.toNat)) hc⟩, trivial⟩
  | retrieveAllAsString =>
      obtain ⟨⟨x, a⟩, ha, he⟩ := Option.map_eq_some_iff.mp hr
      cases he
      obtain ⟨hw', rfl, hc'⟩ := Buffer.retrieveAllAsString_wf hw ha
      exact ⟨⟨hw', hc', congrArg Result.string hc⟩, trivial⟩
  | readFd answer =>
      obtain ⟨⟨n, a⟩, ha, he⟩ := Option.map_eq_some_iff.mp hr
      cases he
      obtain ⟨hw', hc', hn⟩ := Buffer.readFd_wf hw ha
      rw [readFd_spec]
      exact ⟨⟨hw', hc'.trans (congrArg (· ++ Buffer.received answer) hc), congrArg Result.count hn⟩, trivial⟩

theorem fits_of_room {op : Op} {s t : Run} (h : Refines s) (ht : Refines t) (hr : Room op t) : Fits op s := by
  cases op with
  | ensureWritableBytes len =>
      have hlen : len.toNat < 2 ^ 63 := Nat.lt_of_le_of_lt hr ht.wf.writableBytes_lt
      have hi := h.wf.inside
      have hl := h.wf.lt
      show s.buffer.writerIndex + len.toNat < 2 ^ 64
      omega
  | _ => trivial

/-- Over every run of calls that fit, the readable bytes are the queue of what was
appended or read and not retrieved, and every call returns what it returns on the
queue. A call keeps this and gives the room it promises exactly when it fits. -/
theorem buffer_refines_queue {s : Run} (h : Reachable start step Fits s) :
    Refines s ∧ ∀ op t, step op s = some t → (Fits op s ↔ Refines t ∧ Room op t) := by
  have hi : Refines s :=
    h.invariant (fun _ => start_refines) (fun _ _ _ hi hf hs => (step_refines hi hf hs).1)
  exact ⟨hi, fun op t hs => ⟨fun hf => step_refines hi hf hs, fun ht => fits_of_room hi ht.1 ht.2⟩⟩

def runEmpty (cond : Op → Run → Prop) [∀ op s, Decidable (cond op s)] (ops : List Op) : Option Run :=
  (Buffer.ofSize 0).bind (fun b => run (guarded step cond) ops ⟨b, [], .void, .void⟩)

theorem runEmpty_reachable {cond : Op → Run → Prop} [∀ op s, Decidable (cond op s)] {ops : List Op} {s : Run}
    (h : runEmpty cond ops = some s) : Reachable start step cond s := by
  obtain ⟨b, hb, hs⟩ := Option.bind_eq_some_iff.mp h
  exact Reachable.run (.start ⟨0, by decide, Option.map_eq_some_iff.mpr ⟨b, hb, rfl⟩⟩) ops hs

def mixed : List Op :=
  [.append ⟨[97, 98, 99], by decide⟩, .retrieve 2, .ensureWritableBytes 2, .readFd (.ok [100, 101, 102]),
    .retrieveAsString 3]

theorem buffer_refines_queue_mixed :
    ∃ s, Reachable start step Fits s ∧ s.queue = [102] ∧ s.due = .string [99, 100, 101] ∧ Refines s := by
  have hrun : (runEmpty Fits mixed).map (fun s => (s.queue, s.due)) = some ([102], .string [99, 100, 101]) := by
    decide +kernel
  obtain ⟨s, hs, he⟩ := Option.map_eq_some_iff.mp hrun
  have hr : Reachable start step Fits s := runEmpty_reachable hs
  exact ⟨s, hr, congrArg Prod.fst he, congrArg Prod.snd he, (buffer_refines_queue hr).1⟩

/-- The sum of the writer index and the length asked for wraps to 0, and the
vector is shrunk to nothing. -/
theorem wrapped_length_loses_bytes : ¬ ∀ s, Reachable start step always s → Refines s := by
  intro h
  have hrun : (runEmpty always [.append ⟨[97], by decide⟩, .ensureWritableBytes 0xfffffffffffffff7]).map
      (fun s => (s.buffer.content, s.queue)) = some ([], [97]) := by decide +kernel
  obtain ⟨s, hs, he⟩ := Option.map_eq_some_iff.mp hrun
  have hc := (h s (runEmpty_reachable hs)).content
  simp only [Prod.mk.injEq] at he
  rw [he.1, he.2] at hc
  cases hc

end BufferQueue

end LearnNote.Muduo
