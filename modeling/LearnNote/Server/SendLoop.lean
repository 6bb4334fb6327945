import Mathlib.Data.Int.Order.Basic
import Mathlib.Data.List.TakeWhile
import LearnNote.Lib.Transition
import LearnNote.Lib.Unsigned

namespace LearnNote.Server

open Lib.Transition

/-- EWOULDBLOCK is EAGAIN. -/
inductive Errno
  | EAGAIN
  | EINTR
  | other (code : Nat)
deriving DecidableEq

inductive WriteResult
  | count (n : Nat)
  | error (errno : Errno)
deriving DecidableEq

/-- The write loop of a send: what lies at buf and around it, by the distance from buf, the
two counters, whether it has left by the break, and the bytes that were written. -/
structure SendLoop where
  buf : Int → UInt8
  dataSize : Int
  dataLeft : Int
  broken : Bool
  written : List UInt8

namespace SendLoop

def region (buf : Int → UInt8) (offset : Int) (n : Nat) : List UInt8 :=
  (List.range n).map fun k => buf (offset + (k : Nat))

/-- The copy ends with the first zero byte; the one behind the string goes past the array. -/
def strcpy (src : List UInt8) (stack : Int → UInt8) (i : Int) : UInt8 :=
  if 0 ≤ i then (src.takeWhile (· ≠ 0) ++ [0])[i.toNat]?.getD (stack i) else stack i

/-- The bytes that the copy stores, the zero byte among them. -/
def copied (src : List UInt8) : Nat := (src.takeWhile (· ≠ 0)).length + 1

def begin (stack : Int → UInt8) (message : List UInt8) : SendLoop where
  buf := strcpy message stack
  dataSize := int32 message.length
  dataLeft := int32 message.length
  broken := false
  written := []

def running (s : SendLoop) : Prop := 0 < s.dataLeft ∧ s.broken = false

instance (s : SendLoop) : Decidable s.running := inferInstanceAs (Decidable (_ ∧ _))

/-- One round. A write takes at least one of the bytes it is offered, or fails. -/
def step (r : WriteResult) (s : SendLoop) : Option SendLoop :=
  if s.running then
    match r with
    | .count n =>
        if 1 ≤ n ∧ n ≤ s.dataLeft then
          some { s with
            dataLeft := int32 (s.dataLeft - n)
            written := s.written ++ region s.buf (s.dataSize - s.dataLeft) n }
        else none
    | .error .EAGAIN => some { s with broken := true }
    | .error _ => some { s with dataLeft := int32 (s.dataLeft - -1) }
  else none

def start (stack : Int → UInt8) (message : List UInt8) (s : SendLoop) : Prop := s = begin stack message

/-- A write that fails does so with EAGAIN. -/
def Plain : WriteResult → SendLoop → Prop
  | .count _, _ => True
  | .error errno, _ => errno = .EAGAIN

instance : ∀ (r : WriteResult) (s : SendLoop), Decidable (Plain r s)
  | .count _, _ => inferInstanceAs (Decidable True)
  | .error _, _ => inferInstanceAs (Decidable (_ = _))

def Inside (message : List UInt8) (s : SendLoop) : Prop :=
  s.running → 0 ≤ s.dataSize - s.dataLeft ∧ s.dataSize - s.dataLeft + s.dataLeft ≤ message.length

structure Inv (message : List UInt8) (s : SendLoop) : Prop where
  size : s.dataSize = int32 message.length
  le : s.dataLeft ≤ s.dataSize

variable {message : List UInt8} {stack : Int → UInt8} {s t : SendLoop} {r : WriteResult}

@[simp]
theorem begin_dataSize (stack : Int → UInt8) (message : List UInt8) :
    (begin stack message).dataSize = int32 message.length := by rw [begin]

@[simp]
theorem begin_dataLeft (stack : Int → UInt8) (message : List UInt8) :
    (begin stack message).dataLeft = int32 message.length := by rw [begin]

@[simp]
theorem begin_written (stack : Int → UInt8) (message : List UInt8) : (begin stack message).written = [] := by
  rw [begin]

@[simp]
theorem begin_buf (stack : Int → UInt8) (message : List UInt8) : (begin stack message).buf = strcpy message stack := by
  rw [begin]

theorem begin_broken (stack : Int → UInt8) (message : List UInt8) : (begin stack message).broken = false := by
  rw [begin]

/-- What a round does to the number of bytes that are left. -/
theorem step_cases (hs : step r s = some t) :
    s.running ∧ t.dataSize = s.dataSize ∧
      ((∃ n : Nat, r = .count n ∧ 1 ≤ n ∧ n ≤ s.dataLeft ∧ t.dataLeft = int32 (s.dataLeft - n)) ∨
        r = .error .EAGAIN ∧ t.dataLeft = s.dataLeft ∨
        ∃ errno, r = .error errno ∧ errno ≠ .EAGAIN ∧ t.dataLeft = int32 (s.dataLeft + 1)) := by
  obtain ⟨hrunning, hs⟩ := Option.ite_none_right_eq_some.mp hs
  refine ⟨hrunning, ?_⟩
  cases r with
  | count n =>
      obtain ⟨hn, he⟩ := Option.ite_none_right_eq_some.mp hs
      cases he
      exact ⟨rfl, .inl ⟨n, rfl, hn.1, hn.2, rfl⟩⟩
  | error errno =>
      cases errno with
      | EAGAIN =>
          cases hs
          exact ⟨rfl, .inr (.inl ⟨rfl, rfl⟩)⟩
      | EINTR | other code =>
          cases hs
          exact ⟨rfl, .inr (.inr ⟨_, rfl, by simp, rfl⟩)⟩

/-- A round takes no more than is left, and gives nothing back, exactly when it is plain. -/
theorem plain_iff (h : Inv message s) (hs : step r s = some t) :
    0 ≤ t.dataLeft ∧ t.dataLeft ≤ s.dataLeft ↔ Plain r s := by
  obtain ⟨hrunning, -, hcases⟩ := step_cases hs
  have hpos : 0 < s.dataLeft := hrunning.1
  have hlt := (int32_lt message.length).2
  have hsize := h.size
  have hle := h.le
  rcases hcases with ⟨n, rfl, hn, hnl, ht⟩ | ⟨rfl, ht⟩ | ⟨errno, rfl, hne, ht⟩
  · rw [int32_of_mem (by omega) (by omega)] at ht
    exact iff_of_true ⟨by omega, by omega⟩ trivial
  · exact iff_of_true ⟨by omega, by omega⟩ rfl
  · refine iff_of_false (fun hin => ?_) hne
    rw [int32, Int.bmod_def] at ht
    omega

theorem step_inv (h : Inv message s) (hp : Plain r s) (hs : step r s = some t) : Inv message t := by
  obtain ⟨-, hsize, -⟩ := step_cases hs
  have hleft := ((plain_iff h hs).mpr hp).2
  exact ⟨hsize.trans h.size, by rw [hsize]; exact hleft.trans h.le⟩

theorem Inv.inside (h : Inv message s) : Inside message s := by
  intro hrunning
  have hle := int32_le message.length
  have hsize := h.size
  have hleft := h.le
  omega

/-- As long as no write fails with another error than EAGAIN the loop stays inside the message;
a round with such an error puts the counter above where it was, or below zero. -/
theorem stays_inside (stack : Int → UInt8) (message : List UInt8) {s : SendLoop}
    (h : Reachable (start stack message) step Plain s) :
    Inside message s ∧ ∀ r t, step r s = some t → (0 ≤ t.dataLeft ∧ t.dataLeft ≤ s.dataLeft ↔ Plain r s) := by
  have hinv : Inv message s := by
    apply h.invariant (I := Inv message)
    · rintro s rfl
      exact ⟨begin_dataSize stack message, by rw [begin_dataSize, begin_dataLeft]⟩
    · intro r s t h hp hs
      exact step_inv h hp hs
  exact ⟨hinv.inside, fun r t hs => plain_iff hinv hs⟩

theorem stays_inside_partial :
    ∃ s, Reachable (start (fun _ => 0) [97, 98, 99]) step Plain s ∧ s.written = [97, 98] ∧ s.dataLeft = 1 ∧
      Inside [97, 98, 99] s := by
  have hrun : (run (guarded step Plain) [.count 1, .count 1] (begin (fun _ => 0) [97, 98, 99])).map
      (fun s => (s.written, s.dataLeft)) = some ([97, 98], 1) := by decide +kernel
  obtain ⟨s, hr, he⟩ := reachable_of_run (start (fun _ => 0) [97, 98, 99]) hrun rfl
  obtain ⟨hwritten, hleft⟩ := Prod.mk.inj he
  exact ⟨s, hr, hwritten, hleft, (stays_inside _ _ hr).1⟩

/-- After a write that was interrupted the loop offers the byte in front of the message. -/
theorem interrupted_write_leaves :
    ∃ s, Reachable (start (fun _ => 0) [97]) step always s ∧ s.running ∧ s.dataSize - s.dataLeft = -1 ∧
      ¬ Inside [97] s := by
  have hrun : (run (guarded step always) [.error .EINTR] (begin (fun _ => 0) [97])).map
      (fun s => (s.dataSize, s.dataLeft, s.broken)) = some (1, 2, false) := by decide +kernel
  obtain ⟨s, hr, he⟩ := reachable_of_run (start (fun _ => 0) [97]) hrun rfl
  simp only [Prod.mk.injEq] at he
  obtain ⟨hsize, hleft, hbroken⟩ := he
  have hrunning : s.running := ⟨by omega, hbroken⟩
  refine ⟨s, hr, hrunning, by omega, fun hinside => ?_⟩
  have hoffset := (hinside hrunning).1
  omega

end SendLoop

end LearnNote.Server
