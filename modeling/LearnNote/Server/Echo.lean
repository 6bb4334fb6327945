import LearnNote.Server.Connection
import LearnNote.Server.SendLoop

namespace LearnNote.Server

namespace Echo

open Connection (append append_of_nulFree)
open SendLoop (copied region strcpy)

inductive ReadResult
  | bytes (buf : List UInt8)
  | endOfFile
  | error (errno : Errno)
deriving DecidableEq

/-- The loop of a send on a socket that answers the k-th write by its number and length. No
result is out of fuel. -/
def sendLoop (socket : Nat → Nat → WriteResult) : Nat → Nat → SendLoop → Option SendLoop
  | 0, _, _ => none
  | fuel + 1, k, s =>
      if s.running then (SendLoop.step (socket k s.dataLeft.toNat) s).bind (sendLoop socket fuel (k + 1)) else some s

/-- The array has as many bytes as the buffer, and behind it lie the spare ones that nothing else
uses. A copy that goes further has no result. -/
def send (socket : Nat → Nat → WriteResult) (stack : Int → UInt8) (spare fuel : Nat) (readBuffer : List UInt8) :
    Option (List UInt8) :=
  if copied readBuffer ≤ readBuffer.length + spare then
    (sendLoop socket fuel 0 (SendLoop.begin stack readBuffer)).map SendLoop.written
  else none

/-- One execution of echo on what the reads return: the bytes written, and what is left in the
buffer. A read that has not returned gives no result either. -/
def echo (socket : Nat → Nat → WriteResult) (stack : Int → UInt8) (spare fuel : Nat) :
    List ReadResult → List UInt8 → Option (List UInt8 × List UInt8)
  | [], _ => none
  | .bytes buf :: reads, readBuffer => echo socket stack spare fuel reads (append buf readBuffer)
  | .error .EINTR :: reads, readBuffer => echo socket stack spare fuel reads readBuffer
  | .error .EAGAIN :: _, readBuffer => (send socket stack spare fuel readBuffer).map fun written => (written, [])
  | .endOfFile :: _, readBuffer => some ([], readBuffer)
  | .error (.other _) :: _, readBuffer => some ([], readBuffer)

def Accepts (socket : Nat → Nat → WriteResult) : Prop :=
  ∀ k length, 0 < length → ∃ n, socket k length = .count n ∧ 1 ≤ n ∧ n ≤ length

def received (reads : List ReadResult) : List UInt8 :=
  reads.flatMap fun
    | .bytes buf => buf
    | _ => []

/-- The read returned bytes or was interrupted. -/
def goesOn : ReadResult → Bool
  | .bytes _ | .error .EINTR => true
  | _ => false

variable {socket : Nat → Nat → WriteResult} {stack : Int → UInt8} {spare fuel : Nat} {message readBuffer : List UInt8}
  {buf : Int → UInt8} {offset : Int} {s t : SendLoop} {reads : List ReadResult}

theorem region_zero (buf : Int → UInt8) (offset : Int) : region buf offset 0 = [] := rfl

theorem region_add (buf : Int → UInt8) (offset : Int) (m n : Nat) :
    region buf offset (m + n) = region buf offset m ++ region buf (offset + m) n := by
  rw [region, List.range_add, List.map_append, List.map_map]
  congr 1
  apply List.map_congr_left
  intro k _
  simp only [Function.comp_apply, Int.natCast_add, Int.add_assoc]

theorem region_strcpy (hnul : 0 ∉ message) (stack : Int → UInt8) {n : Nat} (hn : n ≤ message.length) :
    region (strcpy message stack) 0 n = message.take n := by
  have hwhole : message.takeWhile (· ≠ 0) = message := by
    have happend := append_of_nulFree hnul []
    rwa [append, List.nil_append, List.nil_append] at happend
  apply List.ext_getElem
  · simp [region, hn]
  · intro k hk hk'
    have hlt : k < message.length := by
      rw [List.length_take] at hk'
      omega
    simp only [region, strcpy, List.getElem_map, List.getElem_range, List.getElem_take]
    rw [if_pos (by omega), hwhole]
    simp [List.getElem?_append_left hlt, List.getElem?_eq_getElem hlt]

theorem step_accepts (hs : s.running) {n : Nat} (hn : 1 ≤ n) (hle : n ≤ s.dataLeft) :
    SendLoop.step (.count n) s = some { s with
      dataLeft := int32 (s.dataLeft - n)
      written := s.written ++ region s.buf (s.dataSize - s.dataLeft) n } := by
  rw [SendLoop.step, if_pos hs]
  exact if_pos ⟨hn, hle⟩

theorem sendLoop_accepts (hsocket : Accepts socket) {left : Nat} (hleft : s.dataLeft = left) (hsmall : left < 2 ^ 31)
    (hrunning : s.broken = false) (hfuel : left < fuel) (k : Nat) :
    ∃ t, sendLoop socket fuel k s = some t ∧
      t.written = s.written ++ region s.buf (s.dataSize - s.dataLeft) left := by
  induction fuel generalizing s left k with
  | zero => exact absurd hfuel (Nat.not_lt_zero _)
  | succ fuel ih =>
      rw [sendLoop]
      rcases Nat.eq_zero_or_pos left with rfl | hpos
      · have hstop : ¬ s.running := fun h => by
          have hlt := h.1
          omega
        rw [if_neg hstop]
        exact ⟨s, rfl, by rw [region_zero, List.append_nil]⟩
      · have hrun : s.running := ⟨by omega, hrunning⟩
        have htoNat : s.dataLeft.toNat = left := by omega
        obtain ⟨n, hcount, hn, hle⟩ := hsocket k left hpos
        rw [if_pos hrun, htoNat, hcount, step_accepts hrun hn (by omega), Option.bind_some]
        have hrest : int32 (s.dataLeft - n) = ((left - n : Nat) : Int) := by
          rw [int32_of_mem (by omega) (by omega)]
          omega
        obtain ⟨t, ht, hwritten⟩ := ih (s := { s with
          dataLeft := int32 (s.dataLeft - n)
          written := s.written ++ region s.buf (s.dataSize - s.dataLeft) n }) hrest (by omega)
            hrunning (by omega) (k + 1)
        refine ⟨t, ht, ?_⟩
        have hsplit := region_add s.buf (s.dataSize - s.dataLeft) n (left - n)
        rw [Nat.add_sub_cancel' hle] at hsplit
        have hoffset : s.dataSize - int32 (s.dataLeft - n) = s.dataSize - s.dataLeft + n := by omega
        simp only [hoffset] at hwritten
        rw [hwritten, hsplit, List.append_assoc]

theorem copied_of_nulFree (hnul : 0 ∉ message) : copied message = message.length + 1 := by
  have happend := append_of_nulFree hnul []
  rw [append, List.nil_append, List.nil_append] at happend
  rw [copied, happend]

/-- The array has no room for the zero byte of its string. -/
theorem send_none (hnul : 0 ∉ message) : send socket stack 0 fuel message = none := by
  rw [send, copied_of_nulFree hnul]
  exact if_neg (Nat.not_succ_le_self _)

/-- A send writes as many bytes as the length is as an int, and none when that is negative. -/
theorem send_accepts (hsocket : Accepts socket) (stack : Int → UInt8) (hspare : 0 < spare) (hnul : 0 ∉ message)
    (hfuel : message.length < fuel) :
    send socket stack spare fuel message = some (message.take (int32 message.length).toNat) := by
  have hle := int32_le message.length
  have hlt := (int32_lt message.length).2
  rw [send, copied_of_nulFree hnul, if_pos (Nat.add_le_add_left hspare _)]
  rcases lt_or_ge (int32 message.length) 0 with hneg | hpos
  · obtain ⟨fuel, rfl⟩ : ∃ f, fuel = f + 1 := ⟨fuel - 1, by omega⟩
    have hstop : ¬ (SendLoop.begin stack message).running := fun h => by
      have hgt := h.1
      rw [SendLoop.begin_dataLeft] at hgt
      omega
    rw [sendLoop, if_neg hstop, Int.toNat_of_nonpos hneg.le, List.take_zero, Option.map_some,
      SendLoop.begin_written]
  · have hleft : (SendLoop.begin stack message).dataLeft = ((int32 message.length).toNat : Nat) := by
      rw [SendLoop.begin_dataLeft]
      omega
    have hfew : (int32 message.length).toNat < fuel := by omega
    obtain ⟨t, ht, hwritten⟩ := sendLoop_accepts hsocket hleft (by omega) (SendLoop.begin_broken _ _) hfew 0
    rw [SendLoop.begin_dataSize, SendLoop.begin_dataLeft, Int.sub_self] at hwritten
    rw [ht, Option.map_some, hwritten, ← region_strcpy hnul stack (by omega)]
    rw [SendLoop.begin_written, SendLoop.begin_buf, List.nil_append]

def kept (reads : List ReadResult) : List UInt8 :=
  reads.flatMap fun
    | .bytes buf => buf.takeWhile (· ≠ 0)
    | _ => []

theorem echo_reads (hreads : ∀ r ∈ reads, goesOn r = true) (last : ReadResult) :
    echo socket stack spare fuel (reads ++ [last]) readBuffer =
      echo socket stack spare fuel [last] (readBuffer ++ kept reads) := by
  induction reads generalizing readBuffer with
  | nil => rw [kept, List.flatMap_nil, List.append_nil, List.nil_append]
  | cons r reads ih =>
      have hr := hreads r List.mem_cons_self
      have hrest (b : List UInt8) := @ih b (fun r' hr' => hreads r' (List.mem_cons_of_mem _ hr'))
      rw [List.cons_append, kept, List.flatMap_cons]
      cases r with
      | bytes buf =>
          rw [echo, hrest, append, List.append_assoc]
          rfl
      | endOfFile => cases hr
      | error errno =>
          cases errno with
          | EINTR =>
              rw [echo, hrest]
              rfl
          | EAGAIN | other code => cases hr

theorem kept_nulFree (reads : List ReadResult) : 0 ∉ kept reads := by
  intro hin
  obtain ⟨r, -, hr⟩ := List.mem_flatMap.mp hin
  cases r with
  | bytes buf => simpa using List.mem_takeWhile_imp hr
  | endOfFile | error errno => cases hr

theorem kept_eq (h : 0 ∉ received reads) : kept reads = received reads := by
  rw [kept, received, List.flatMap_def, List.flatMap_def]
  congr 1
  apply List.map_congr_left
  intro r hr
  cases r with
  | bytes buf =>
      have hnul : 0 ∉ buf := fun hin => h (List.mem_flatMap.mpr ⟨_, hr, hin⟩)
      have happend := append_of_nulFree hnul []
      rwa [append, List.nil_append, List.nil_append] at happend
  | endOfFile | error errno => rfl

/-- With an empty buffer and a socket that accepts everything what is received is written back
if the byte behind the array is spare, there is no zero byte in it and its length is an int. -/
theorem echoes_iff (hsocket : Accepts socket) (stack : Int → UInt8) (spare : Nat)
    (hreads : ∀ r ∈ reads, goesOn r = true) :
    ∃ N written, (∀ fuel, N ≤ fuel →
        echo socket stack spare fuel (reads ++ [.error .EAGAIN]) [] = written.map fun bytes => (bytes, [])) ∧
      (written = some (received reads) ↔
        0 < spare ∧ 0 ∉ received reads ∧ (received reads).length < 2 ^ 31) := by
  rcases Nat.eq_zero_or_pos spare with rfl | hspare
  · refine ⟨0, none, fun fuel _ => ?_, by simp⟩
    rw [echo_reads hreads, List.nil_append, echo, send_none (kept_nulFree reads)]
  refine ⟨(kept reads).length + 1, some ((kept reads).take (int32 (kept reads).length).toNat), fun fuel hfuel => ?_, ?_⟩
  · rw [echo_reads hreads, List.nil_append, echo, send_accepts hsocket stack hspare (kept_nulFree reads) hfuel]
  · rw [Option.some.injEq, and_iff_right hspare]
    constructor
    · intro hsame
      have hnul : 0 ∉ received reads := by
        rw [← hsame]
        exact fun hin => kept_nulFree reads (List.mem_of_mem_take hin)
      refine ⟨hnul, ?_⟩
      have hlength := congrArg List.length hsame
      rw [List.length_take] at hlength
      have hlt := (int32_lt (kept reads).length).2
      omega
    · rintro ⟨hnul, hlength⟩
      rw [kept_eq hnul, int32_of_mem (by omega) (by omega)]
      simp

/-- The socket takes one byte at a time, and the second read is interrupted. -/
theorem echoes_iff_bytewise :
    ∃ N, ∀ fuel, N ≤ fuel → echo (fun _ _ => .count 1) (fun _ => 0) 1 fuel
      [.bytes [97, 98], .error .EINTR, .bytes [99], .error .EAGAIN] [] = some ([97, 98, 99], []) := by
  have hsocket : Accepts (fun _ _ => .count 1) := fun _ _ hpos => ⟨1, rfl, le_rfl, hpos⟩
  obtain ⟨N, written, hecho, hiff⟩ :=
    @echoes_iff _ [.bytes [97, 98], .error .EINTR, .bytes [99]] hsocket (fun _ => 0) 1 (by simp [goesOn])
  obtain rfl := hiff.mpr ⟨by decide, by decide, by decide⟩
  exact ⟨N, hecho⟩

/-- What follows a zero byte in a read is lost, and the zero byte itself. -/
theorem zero_byte_ends_chunk :
    ¬ ∀ (socket : Nat → Nat → WriteResult) (stack : Int → UInt8) (spare : Nat) (reads : List ReadResult),
      Accepts socket → (∀ r ∈ reads, goesOn r = true) → ∃ N, ∀ fuel, N ≤ fuel →
        echo socket stack spare fuel (reads ++ [.error .EAGAIN]) [] = some (received reads, []) := by
  intro h
  have hsocket : Accepts (fun _ length => .count length) := fun _ length hpos => ⟨length, rfl, hpos, le_rfl⟩
  obtain ⟨N, hN⟩ := h _ (fun _ => 0) 1 [.bytes [97, 0, 98]] hsocket (by simp [goesOn])
  have hecho := hN (N + 2) (by omega)
  have hcut : echo (fun _ length => .count length) (fun _ => 0) 1 (N + 2) [.bytes [97, 0, 98], .error .EAGAIN] [] =
      some ([97], []) := rfl
  cases hecho.symm.trans hcut

end Echo

end LearnNote.Server
