import LearnNote.Lib.Segments
import LearnNote.Lib.Unsigned

namespace LearnNote.Muduo

open Lib.Segments

/-- The values of errno that the code tells apart. -/
inductive Errno
  | eintr
  | ewouldblock
  | epipe
  | econnreset
  | other (code : Nat)
deriving DecidableEq

def Errno.einval : Errno := .other 22

/-- The bytes of an object in memory; no object has 2 ^ 63 bytes. -/
structure Payload where
  bytes : List UInt8
  small : bytes.length < 2 ^ 63

structure Buffer where
  buffer : List UInt8
  readerIndex : Nat
  writerIndex : Nat
deriving DecidableEq

namespace Buffer

def kCheapPrepend : Nat := 8
def kInitialSize : Nat := 1024

/-- The max_size of a vector of char, beyond which it throws. -/
def maxSize : Nat := 2 ^ 63 - 1

def ofSize (initialSize : Nat) : Option Buffer :=
  let size := sizeT (kCheapPrepend + initialSize)
  if size ≤ maxSize then some ⟨List.replicate size 0, kCheapPrepend, kCheapPrepend⟩ else none

def initial : Buffer := ⟨List.replicate (kCheapPrepend + kInitialSize) 0, kCheapPrepend, kCheapPrepend⟩

def readableBytes (b : Buffer) : Nat := sizeT (b.writerIndex + (2 ^ 64 - b.readerIndex))

def writableBytes (b : Buffer) : Nat := sizeT (b.buffer.length + (2 ^ 64 - b.writerIndex))

def prependableBytes (b : Buffer) : Nat := b.readerIndex

def peek (b : Buffer) (len : Nat) : List UInt8 := segment b.buffer b.readerIndex len

def retrieveAll (b : Buffer) : Buffer :=
  { b with readerIndex := kCheapPrepend, writerIndex := kCheapPrepend }

def retrieve (len : Nat) (b : Buffer) : Buffer :=
  if len < b.readableBytes then { b with readerIndex := sizeT (b.readerIndex + len) } else b.retrieveAll

def retrieveAsString (len : Nat) (b : Buffer) : Option (List UInt8 × Buffer) :=
  if len ≤ b.readableBytes then some (b.peek len, b.retrieve len) else none

def retrieveAllAsString (b : Buffer) : Option (List UInt8 × Buffer) :=
  b.retrieveAsString b.readableBytes

def resize (n : Nat) (b : Buffer) : Option Buffer :=
  if n ≤ maxSize then some { b with buffer := Lib.Segments.resize b.buffer n 0 } else none

def makeSpace (len : Nat) (b : Buffer) : Option Buffer :=
  if sizeT (b.writableBytes + b.prependableBytes) < sizeT (len + kCheapPrepend) then
    b.resize (sizeT (b.writerIndex + len))
  else
    let readable := b.readableBytes
    some {
      buffer := copyForward b.buffer b.readerIndex kCheapPrepend (b.writerIndex - b.readerIndex)
      readerIndex := kCheapPrepend
      writerIndex := sizeT (kCheapPrepend + readable) }

def ensureWritableBytes (len : Nat) (b : Buffer) : Option Buffer :=
  if b.writableBytes < len then b.makeSpace len else some b

/-- Bytes copied to beginWrite, and the writer index moved past them. -/
def put (data : List UInt8) (b : Buffer) : Buffer :=
  { b with
    buffer := store b.buffer b.writerIndex data
    writerIndex := sizeT (b.writerIndex + data.length) }

def append (data : List UInt8) (b : Buffer) : Option Buffer :=
  (b.ensureWritableBytes data.length).map (put data)

def extrabufSize : Nat := 65536

def iovLength (b : Buffer) : Nat :=
  if b.writableBytes < extrabufSize then b.writableBytes + extrabufSize else b.writableBytes

/-- The kernel reports an error, or bytes that it has put into the iovecs in order. -/
def readFd (answer : Except Errno (List UInt8)) (b : Buffer) : Option (Except Errno Nat × Buffer) :=
  match answer with
  | .error e => some (.error e, b)
  | .ok data =>
      let writable := b.writableBytes
      let filled := store b.buffer b.writerIndex (data.take writable)
      if data.length > b.iovLength then none
      else if data.length ≤ writable then
        some (.ok data.length, ⟨filled, b.readerIndex, sizeT (b.writerIndex + data.length)⟩)
      else
        (append (data.drop writable) ⟨filled, b.readerIndex, b.buffer.length⟩).map (.ok data.length, ·)

/-- The indices delimit the readable bytes within the vector. -/
structure WF (b : Buffer) : Prop where
  prepend : kCheapPrepend ≤ b.readerIndex
  ordered : b.readerIndex ≤ b.writerIndex
  inside : b.writerIndex ≤ b.buffer.length
  size : b.buffer.length ≤ maxSize

def content (b : Buffer) : List UInt8 := b.peek b.readableBytes

variable {b b' : Buffer}

theorem WF.lt (h : b.WF) : b.buffer.length < 2 ^ 63 := Nat.lt_of_le_of_lt h.size (by decide)

theorem WF.readableBytes (h : b.WF) : b.readableBytes = b.writerIndex - b.readerIndex := by
  have := h.inside
  have := h.lt
  exact sizeT_sub h.ordered (by omega)

theorem WF.writableBytes (h : b.WF) : b.writableBytes = b.buffer.length - b.writerIndex := by
  have := h.lt
  exact sizeT_sub h.inside (by omega)

theorem WF.content (h : b.WF) : b.content = segment b.buffer b.readerIndex (b.writerIndex - b.readerIndex) := by
  rw [Buffer.content, peek, h.readableBytes]

theorem WF.length_content (h : b.WF) : b.content.length = b.readableBytes := by
  have := h.ordered
  have := h.inside
  rw [h.content, h.readableBytes]
  exact length_segment (by omega)

theorem content_nil (h : b.WF) (hi : b.readerIndex = b.writerIndex) : b.content = [] := by
  rw [h.content, hi, Nat.sub_self, segment_zero]

theorem ofSize_wf {n : Nat} (h : ofSize n = some b) (hn : kCheapPrepend + n < 2 ^ 64) :
    b.WF ∧ b.content = [] := by
  simp only [ofSize, sizeT_of_lt hn] at h
  split at h
  · cases h
    have hw : WF ⟨List.replicate (kCheapPrepend + n) 0, kCheapPrepend, kCheapPrepend⟩ :=
      ⟨Nat.le_refl _, Nat.le_refl _, by simp, by simpa⟩
    exact ⟨hw, content_nil hw rfl⟩
  · cases h

theorem ofSize_kInitialSize : ofSize kInitialSize = some initial := rfl

theorem initial_wf : initial.WF ∧ initial.content = [] := ofSize_wf ofSize_kInitialSize (by decide)

theorem retrieveAll_wf (h : b.WF) : b.retrieveAll.WF ∧ b.retrieveAll.content = [] := by
  have hw : b.retrieveAll.WF :=
    ⟨Nat.le_refl _, Nat.le_refl _, h.prepend.trans (h.ordered.trans h.inside), h.size⟩
  exact ⟨hw, content_nil hw rfl⟩

theorem retrieve_wf (h : b.WF) (len : Nat) :
    (b.retrieve len).WF ∧ (b.retrieve len).content = b.content.drop len := by
  have hp := h.prepend
  have hi := h.inside
  have hl := h.lt
  rw [retrieve]
  by_cases hlen : len < b.readableBytes
  · have hr := h.readableBytes
    have hs : sizeT (b.readerIndex + len) = b.readerIndex + len := sizeT_of_lt (by omega)
    rw [if_pos hlen, hs]
    have hw : WF { b with readerIndex := b.readerIndex + len } :=
      ⟨Nat.le_add_right_of_le hp, show b.readerIndex + len ≤ b.writerIndex by omega, hi, h.size⟩
    refine ⟨hw, ?_⟩
    have hn : b.writerIndex - b.readerIndex = len + (b.writerIndex - (b.readerIndex + len)) := by omega
    rw [hw.content, h.content, hn, drop_segment]
  · rw [if_neg hlen]
    refine ⟨(retrieveAll_wf h).1, ?_⟩
    rw [(retrieveAll_wf h).2, List.drop_eq_nil_of_le (by rw [h.length_content]; omega)]

theorem retrieveAsString_wf (h : b.WF) {len : Nat} {s : List UInt8}
    (hr : b.retrieveAsString len = some (s, b')) :
    b'.WF ∧ s = b.content.take len ∧ b'.content = b.content.drop len := by
  rw [retrieveAsString] at hr
  split at hr
  next hlen =>
    cases hr
    obtain ⟨n, hn⟩ := Nat.exists_eq_add_of_le hlen
    refine ⟨(retrieve_wf h len).1, ?_, (retrieve_wf h len).2⟩
    rw [Buffer.content, peek, peek, hn, take_segment]
  next => cases hr

theorem retrieveAllAsString_wf (h : b.WF) {s : List UInt8} (hr : b.retrieveAllAsString = some (s, b')) :
    b'.WF ∧ s = b.content ∧ b'.content = [] := by
  obtain ⟨hw, hs, hc⟩ := retrieveAsString_wf h hr
  rw [← h.length_content] at hs hc
  exact ⟨hw, hs.trans List.take_length, hc.trans List.drop_length⟩

theorem resize_wf (h : b.WF) {n : Nat} (hn : b.writerIndex ≤ n) (hr : b.resize n = some b') :
    b'.WF ∧ b'.content = b.content ∧ b'.buffer.length = n ∧ b'.writerIndex = b.writerIndex := by
  have ho := h.ordered
  have hi := h.inside
  rw [resize] at hr
  split at hr
  next hmax =>
    cases hr
    have hw : WF { b with buffer := Lib.Segments.resize b.buffer n 0 } :=
      ⟨h.prepend, ho, by simpa using hn, by simpa using hmax⟩
    have hc : segment (Lib.Segments.resize b.buffer n 0) b.readerIndex (b.writerIndex - b.readerIndex) =
        segment b.buffer b.readerIndex (b.writerIndex - b.readerIndex) :=
      segment_resize _ _ (by omega) (by omega)
    exact ⟨hw, (hw.content.trans hc).trans h.content.symm, length_resize _ _ _, rfl⟩
  next => cases hr

theorem slide_wf (h : b.WF) {s : Buffer}
    (hs : s = ⟨copyForward b.buffer b.readerIndex kCheapPrepend (b.writerIndex - b.readerIndex),
      kCheapPrepend, kCheapPrepend + (b.writerIndex - b.readerIndex)⟩) :
    s.WF ∧ s.content = b.content ∧ s.buffer.length = b.buffer.length := by
  have hp := h.prepend
  have ho := h.ordered
  have hi := h.inside
  have hlen := length_copyForward b.buffer b.readerIndex kCheapPrepend (b.writerIndex - b.readerIndex)
  subst hs
  have hw : WF ⟨copyForward b.buffer b.readerIndex kCheapPrepend (b.writerIndex - b.readerIndex),
      kCheapPrepend, kCheapPrepend + (b.writerIndex - b.readerIndex)⟩ :=
    ⟨Nat.le_refl _, Nat.le_add_right _ _, by simp only [hlen]; omega, by simpa only [hlen] using h.size⟩
  refine ⟨hw, ?_, hlen⟩
  rw [hw.content, h.content, Nat.add_sub_cancel_left]
  exact segment_copyForward _ hp (by omega)

theorem makeSpace_wf (h : b.WF) {len : Nat} (hlen : b.writerIndex + len < 2 ^ 64)
    (hm : b.makeSpace len = some b') :
    b'.WF ∧ b'.content = b.content ∧ len ≤ b'.writableBytes := by
  have hp := h.prepend
  have ho := h.ordered
  have hi := h.inside
  have hl := h.lt
  have h8 : kCheapPrepend = 8 := rfl
  have hwr := h.writableBytes
  have hk : sizeT (kCheapPrepend + (b.writerIndex - b.readerIndex)) =
      kCheapPrepend + (b.writerIndex - b.readerIndex) := sizeT_of_lt (by omega)
  rw [makeSpace, prependableBytes, h.readableBytes, hwr, sizeT_of_lt (by omega), sizeT_of_lt (by omega),
    sizeT_of_lt hlen] at hm
  simp only [hk] at hm
  split at hm
  next =>
    obtain ⟨hw, hc, hn, hx⟩ := resize_wf h (Nat.le_add_right _ _) hm
    refine ⟨hw, hc, ?_⟩
    rw [hw.writableBytes, hn, hx, Nat.add_sub_cancel_left]
  next =>
    obtain ⟨hw, hc, hn⟩ := slide_wf h (Option.some.inj hm).symm
    refine ⟨hw, hc, ?_⟩
    rw [hw.writableBytes, hn, ← Option.some.inj hm]
    simp only
    omega

theorem ensureWritableBytes_wf (h : b.WF) {len : Nat} (hlen : b.writerIndex + len < 2 ^ 64)
    (he : b.ensureWritableBytes len = some b') :
    b'.WF ∧ b'.content = b.content ∧ len ≤ b'.writableBytes := by
  rw [ensureWritableBytes] at he
  split at he
  next => exact makeSpace_wf h hlen he
  next hw =>
    cases he
    exact ⟨h, rfl, Nat.le_of_not_lt hw⟩

theorem WF.writableBytes_lt (h : b.WF) : b.writableBytes < 2 ^ 63 := by
  rw [h.writableBytes]
  exact Nat.lt_of_le_of_lt (Nat.sub_le _ _) h.lt

theorem put_wf (h : b.WF) {data : List UInt8} (hroom : data.length ≤ b.writableBytes) :
    (b.put data).WF ∧ (b.put data).content = b.content ++ data := by
  have ho := h.ordered
  have hl := h.lt
  rw [h.writableBytes] at hroom
  have hi := h.inside
  have hs : sizeT (b.writerIndex + data.length) = b.writerIndex + data.length := sizeT_of_lt (by omega)
  rw [put, hs]
  have hw : WF ⟨store b.buffer b.writerIndex data, b.readerIndex, b.writerIndex + data.length⟩ :=
    ⟨h.prepend, Nat.le_add_right_of_le ho, by simp only [length_store]; omega, by simpa using h.size⟩
  have hn : b.writerIndex + data.length - b.readerIndex = (b.writerIndex - b.readerIndex) + data.length := by
    omega
  have hc := hw.content
  simp only [hn, segment_add, Nat.add_sub_cancel' ho] at hc
  refine ⟨hw, ?_⟩
  rw [hc, h.content, segment_store_of_le _ _ (by omega), segment_store _ _ _ (by omega)]

theorem append_wf (h : b.WF) {data : List UInt8} (hlen : b.writerIndex + data.length < 2 ^ 64)
    (ha : b.append data = some b') : b'.WF ∧ b'.content = b.content ++ data := by
  obtain ⟨e, he, rfl⟩ := Option.map_eq_some_iff.mp ha
  obtain ⟨hw, hc, hroom⟩ := ensureWritableBytes_wf h hlen he
  rw [← hc]
  exact put_wf hw hroom

theorem append_payload_wf (h : b.WF) (data : Payload) (ha : b.append data.bytes = some b') :
    b'.WF ∧ b'.content = b.content ++ data.bytes := by
  have hi := h.inside
  have hl := h.lt
  have hd := data.small
  exact append_wf h (by omega) ha

def received : Except Errno (List UInt8) → List UInt8
  | .error _ => []
  | .ok data => data

theorem readFd_result {answer : Except Errno (List UInt8)} {n : Except Errno Nat}
    (hr : b.readFd answer = some (n, b')) : n = answer.map List.length := by
  cases answer with
  | error e =>
      cases hr
      rfl
  | ok data =>
      simp only [readFd] at hr
      split at hr
      · cases hr
      · split at hr
        · cases hr
          rfl
        · obtain ⟨a, -, he⟩ := Option.map_eq_some_iff.mp hr
          cases he
          rfl

theorem readFd_wf (h : b.WF) {answer : Except Errno (List UInt8)} {n : Except Errno Nat}
    (hr : b.readFd answer = some (n, b')) :
    b'.WF ∧ b'.content = b.content ++ received answer ∧ n = answer.map List.length := by
  have hi := h.inside
  have hl := h.lt
  have hwr := h.writableBytes
  cases answer with
  | error e =>
      cases hr
      exact ⟨h, (List.append_nil _).symm, rfl⟩
  | ok data =>
      simp only [readFd] at hr
      split at hr
      next => cases hr
      next hiov =>
        split at hr
        next hle =>
          cases hr
          rw [List.take_of_length_le hle]
          exact ⟨(put_wf h hle).1, (put_wf h hle).2, rfl⟩
        next hgt =>
          obtain ⟨a, ha, he⟩ := Option.map_eq_some_iff.mp hr
          cases he
          have hb : data.length ≤ b.writableBytes + extrabufSize := by
            rw [iovLength] at hiov
            split at hiov <;> omega
          have hx : extrabufSize = 65536 := rfl
          have htake : (data.take b.writableBytes).length = b.writableBytes := List.length_take_of_le (by omega)
          have hfull : b.put (data.take b.writableBytes) =
              ⟨store b.buffer b.writerIndex (data.take b.writableBytes), b.readerIndex, b.buffer.length⟩ := by
            rw [put, htake, sizeT_of_lt (by omega), hwr, Nat.add_sub_cancel' hi]
          obtain ⟨hw, hc⟩ := put_wf h (Nat.le_of_eq htake)
          rw [hfull] at hw hc
          obtain ⟨hw', hc'⟩ := append_wf hw
            (by simp only [List.length_drop]; omega) ha
          refine ⟨hw', ?_, rfl⟩
          rw [hc', hc, List.append_assoc, List.take_append_drop]
          rfl

end Buffer

end LearnNote.Muduo
