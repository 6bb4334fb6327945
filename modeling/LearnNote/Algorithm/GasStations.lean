import LearnNote.Lib.CheckedInt
import LearnNote.Lib.Circuits
import LearnNote.Lib.Table
import LearnNote.Lib.Unsigned

namespace LearnNote.Algorithm.GasStations

open Lib Finset

variable {len : Nat}

structure Vars where
  sum : Int
  minSum : Int
  start : Int

/-- The body of the loop. No result, here and below, is an access outside a vector, an overflow or a
remainder by 0. -/
def body (gas cost : Fin len → Int) (s : Vars) (i : Int) : Option Vars :=
  (elementAt gas i).bind fun x => (elementAt cost i).bind fun y => (checkedInt (x - y)).bind fun change =>
    (checkedInt (s.sum + change)).map fun sum =>
      if sum < s.minSum then ⟨sum, sum, i + 1⟩ else ⟨sum, s.minSum, s.start⟩

def canCompleteCircuit (gas cost : Fin len → Int) : Option Int :=
  let n := int32 len
  ((Int.range 0 n).foldlM (body gas cost) ⟨0, 0, 0⟩).bind fun s =>
    if s.sum < 0 then some (-1) else if n = 0 then none else some (s.start.tmod n)

variable [NeZero len]

def gain (gas cost : Fin len → Int) (i : Nat) : Int := gas (Fin.ofNat len i) - cost (Fin.ofNat len i)

def Circuit (gas cost : Fin len → Int) (p : Fin len) : Prop := Circuits.Circuit (gain gas cost) len p

structure InRange (gas cost : Fin len → Int) : Prop where
  change : ∀ i, intMin ≤ gas i - cost i ∧ gas i - cost i ≤ intMax
  sum : ∀ k ≤ len, intMin ≤ ∑ i ∈ range k, gain gas cost i ∧ ∑ i ∈ range k, gain gas cost i ≤ intMax

/-- The call returns a station from which there is a circuit, or -1 if there is none. -/
def Answers (gas cost : Fin len → Int) : Prop :=
  ∃ r, canCompleteCircuit gas cost = some r ∧ (r = -1 ↔ ∀ p, ¬ Circuit gas cost p) ∧
    (r ≠ -1 → ∃ p : Fin len, r = p.val ∧ Circuit gas cost p)

structure Scanned (gas cost : Fin len → Int) (k : Nat) (s : Vars) : Prop where
  sum : s.sum = ∑ i ∈ range k, gain gas cost i
  lowest : ∃ p ≤ k, s.start = p ∧ s.minSum = ∑ i ∈ range p, gain gas cost i ∧
    ∀ q ≤ k, ∑ i ∈ range p, gain gas cost i ≤ ∑ i ∈ range q, gain gas cost i

variable {gas cost : Fin len → Int} {s : Vars} {k : Nat}

theorem gain_periodic : Function.Periodic (gain gas cost) len := by
  intro i
  have hround : Fin.ofNat len (i + len) = Fin.ofNat len i := Fin.ext (Nat.add_mod_right i len)
  rw [gain, hround, gain]

theorem Scanned.body (hs : Scanned gas cost k s) (hrange : InRange gas cost) (hk : k < len) :
    ∃ t, body gas cost s k = some t ∧ Scanned gas cost (k + 1) t := by
  have hval : (Fin.ofNat len k).val = (k : Int) := congrArg _ (Nat.mod_eq_of_lt hk)
  have hsucc := sum_range_succ (gain gas cost) k
  have hchange := hrange.change (Fin.ofNat len k)
  have hsum := hrange.sum (k + 1) hk
  have hnext : s.sum + (gas (Fin.ofNat len k) - cost (Fin.ofNat len k)) = ∑ i ∈ range (k + 1), gain gas cost i := by
    rw [hsucc, hs.sum, gain]
  obtain ⟨p, hp, hstart, hmin, hlow⟩ := hs.lowest
  rw [GasStations.body, elementAt_of_mem _ hval, Option.bind_some, elementAt_of_mem _ hval, Option.bind_some,
    checkedInt_of_mem hchange.1 hchange.2, Option.bind_some, hnext, checkedInt_of_mem hsum.1 hsum.2, Option.map_some]
  refine ⟨_, rfl, ?_⟩
  by_cases hlt : ∑ i ∈ range (k + 1), gain gas cost i < s.minSum
  · rw [if_pos hlt]
    rw [hmin] at hlt
    refine ⟨rfl, k + 1, le_rfl, by simp, rfl, fun q hq => ?_⟩
    rcases Nat.le_succ_iff.mp hq with hq | rfl
    · exact hlt.le.trans (hlow q hq)
    · exact le_rfl
  · rw [if_neg hlt]
    rw [hmin] at hlt
    refine ⟨rfl, p, hp.trans k.le_succ, hstart, hmin, fun q hq => ?_⟩
    rcases Nat.le_succ_iff.mp hq with hq | rfl
    · exact hlow q hq
    · exact not_lt.mp hlt

theorem scanned_start : Scanned gas cost 0 ⟨0, 0, 0⟩ :=
  ⟨rfl, 0, le_rfl, rfl, rfl, fun q hq => by rw [Nat.le_zero.mp hq]⟩

theorem Scanned.start_circuit (hs : Scanned gas cost len s) (htotal : 0 ≤ s.sum) :
    ∃ p : Fin len, s.start.tmod len = p.val ∧ Circuit gas cost p := by
  rw [hs.sum] at htotal
  obtain ⟨p, hp, hstart, -, hlow⟩ := hs.lowest
  refine ⟨Fin.ofNat len p, ?_,
    (Circuits.circuit_mod gain_periodic).mpr (Circuits.circuit_of_lowest gain_periodic htotal hp hlow)⟩
  rw [hstart]
  exact (Int.ofNat_tmod p len).symm

theorem Scanned.nonneg_iff (hs : Scanned gas cost len s) : 0 ≤ s.sum ↔ ∃ p, Circuit gas cost p := by
  constructor
  · intro htotal
    obtain ⟨p, -, hcircuit⟩ := hs.start_circuit htotal
    exact ⟨p, hcircuit⟩
  · rintro ⟨p, hp⟩
    rw [hs.sum]
    exact hp.sum_nonneg gain_periodic

theorem answers_of_inRange (hlen : (len : Int) ≤ intMax) (hrange : InRange gas cost) : Answers gas cost := by
  have hmax : intMax = 2147483647 := rfl
  have hpos := NeZero.pos len
  have hn : int32 len = len := int32_of_mem (by omega) (by omega)
  obtain ⟨s, hloop, hs⟩ := Loops.forNat_spec (I := Scanned gas cost) (Nat.zero_le len) scanned_start
    fun k _ hk _ hs => hs.body hrange hk
  rw [Nat.cast_zero] at hloop
  have hreturn : canCompleteCircuit gas cost = some (if s.sum < 0 then -1 else s.start.tmod len) := by
    rw [canCompleteCircuit, hn, hloop, Option.bind_some]
    split_ifs with hneg hzero
    · rfl
    · omega
    · rfl
  refine ⟨_, hreturn, ?_⟩
  by_cases hneg : s.sum < 0
  · rw [if_pos hneg]
    refine ⟨iff_of_true rfl fun p hp => ?_, fun hne => absurd rfl hne⟩
    exact absurd (hs.nonneg_iff.mpr ⟨p, hp⟩) hneg.not_ge
  · rw [if_neg hneg]
    obtain ⟨p, hp, hcircuit⟩ := hs.start_circuit (not_lt.mp hneg)
    exact ⟨iff_of_false (by omega) fun hall => hall p hcircuit, fun _ => ⟨p, hp, hcircuit⟩⟩

theorem answers_of_inRange_two : Answers (fun p : Fin 2 => (p.val : Int)) fun _ => 0 :=
  answers_of_inRange (by decide) ⟨by decide, by decide⟩

/-- 2 ^ 32 stations. As an int their number is 0. -/
theorem many_stations_no_answer : ¬ ∀ (n : Nat) [NeZero n] (gas cost : Fin n → Int), InRange gas cost →
    Answers gas cost := by
  intro hall
  have hrange : InRange (fun _ : Fin (2 ^ 32) => 0) fun _ => 0 :=
    ⟨fun _ => by decide, fun k _ => by simp [gain, intMin, intMax]⟩
  obtain ⟨r, hcall, -⟩ := hall (2 ^ 32) _ _ hrange
  have hn : int32 (2 ^ 32 : Nat) = 0 := by decide
  rw [canCompleteCircuit, hn] at hcall
  cases hcall

end LearnNote.Algorithm.GasStations
