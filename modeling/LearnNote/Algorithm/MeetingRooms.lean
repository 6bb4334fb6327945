import Mathlib.Data.List.Sort
import LearnNote.Lib.CheckedInt
import LearnNote.Lib.Loops
import LearnNote.Lib.Sweep
import LearnNote.Lib.Unsigned

namespace LearnNote.Algorithm.MeetingRooms

open Lib Sweep

def sort (times : List Int) : List Int := times.mergeSort fun a b => decide (a ≤ b)

/-- No result, here and below, is an access outside a vector, an overflow, a negative size or out of fuel. -/
def whileBoth (n : Nat) (starts ends : List Int) : Nat → Nat → Nat → Int → Int → Option Int
  | 0, _, _, _, _ => none
  | fuel + 1, i, j, cnt, res =>
      if i < n ∧ j < n then
        starts[i]?.bind fun start => ends[j]?.bind fun finish =>
          if start < finish then
            (checkedInt (cnt + 1)).bind fun cnt => whileBoth n starts ends fuel (i + 1) j cnt (max res cnt)
          else (checkedInt (cnt - 1)).bind fun cnt => whileBoth n starts ends fuel i (j + 1) cnt (max res cnt)
      else some res

/-- The times of the first n meetings are copied, where n is the size as an int. -/
def minMeetingRooms (fuel : Nat) (meetings : List (Int × Int)) : Option Int :=
  let n := int32 meetings.length
  if n < 0 then none
  else
    let starts := sort ((meetings.take n.toNat).map Prod.fst)
    let ends := sort ((meetings.take n.toNat).map Prod.snd)
    whileBoth n.toNat starts ends fuel 0 0 0 0

def inProgress (meetings : List (Int × Int)) (t : Int) : Nat := meetings.countP fun m => m.1 ≤ t ∧ t < m.2

def Answers (meetings : List (Int × Int)) : Prop :=
  ∃ N r, (∀ fuel, N ≤ fuel → minMeetingRooms fuel meetings = some r) ∧
    IsGreatest {k : Int | ∃ t, k = inProgress meetings t} r

variable {n i j d : Nat} {starts ends times : List Int} {res : Int} {meetings : List (Int × Int)} {t : Int}

theorem sort_sorted (times : List Int) : (sort times).Pairwise (· ≤ ·) := List.pairwise_mergeSort' (· ≤ ·) times

theorem sort_perm (times : List Int) : (sort times).Perm times := List.mergeSort_perm times _

theorem sort_length (times : List Int) : (sort times).length = times.length := (sort_perm times).length_eq

theorem whileBoth_returns (hn : (n : Int) ≤ intMax) (hstarts : starts.Pairwise (· ≤ ·)) (hends : ends.Pairwise (· ≤ ·))
    (hsl : starts.length = n) (hel : ends.length = n) (hd : n - i + (n - j) = d) (h : Swept starts ends i j res) :
    ∃ i' j' r, (∀ fuel, d < fuel → whileBoth n starts ends fuel i j (i - j) res = some r) ∧
      Swept starts ends i' j' r ∧ (n ≤ i' ∨ n ≤ j') := by
  have hmin : intMin = -2147483648 := rfl
  have hmax : intMax = 2147483647 := rfl
  induction d generalizing i j res with
  | zero =>
      refine ⟨i, j, res, Loops.returns_last fun fuel => ?_, h, by omega⟩
      rw [whileBoth, if_neg (by omega)]
  | succ d ih =>
      by_cases hin : i < n ∧ j < n
      · have hi : i < starts.length := by omega
        have hj : j < ends.length := by omega
        by_cases hlt : starts[i] < ends[j]
        · have hcnt : (i : Int) - j + 1 = (i + 1 : Nat) - j := by omega
          obtain ⟨i', j', r, hloop, hswept⟩ := ih (by omega) (h.begin hstarts hends hi hj hlt)
          refine ⟨i', j', r, Loops.returns_succ (fun fuel => ?_) hloop, hswept⟩
          rw [whileBoth, if_pos hin, List.getElem?_eq_getElem hi, Option.bind_some, List.getElem?_eq_getElem hj,
            Option.bind_some, if_pos hlt, hcnt, checkedInt_of_mem (by omega) (by omega), Option.bind_some]
        · have hcnt : (i : Int) - j - 1 = i - (j + 1 : Nat) := by omega
          obtain ⟨i', j', r, hloop, hswept⟩ := ih (by omega) (h.finish hstarts hends hi hj (not_lt.mp hlt))
          refine ⟨i', j', r, Loops.returns_succ (fun fuel => ?_) hloop, hswept⟩
          rw [whileBoth, if_pos hin, List.getElem?_eq_getElem hi, Option.bind_some, List.getElem?_eq_getElem hj,
            Option.bind_some, if_neg hlt, hcnt, checkedInt_of_mem (by omega) (by omega), Option.bind_some]
      · refine ⟨i, j, res, Loops.returns_last fun fuel => ?_, h, by omega⟩
        rw [whileBoth, if_neg hin]

theorem overlap_sort (hproper : ∀ m ∈ meetings, m.1 ≤ m.2) (t : Int) :
    overlap (sort (meetings.map Prod.fst)) (sort (meetings.map Prod.snd)) t = inProgress meetings t := by
  have hcount := countP_add_upTo hproper t
  rw [overlap, upTo_perm (sort_perm _), upTo_perm (sort_perm _), inProgress]
  omega

theorem minMeetingRooms_answers (meetings : List (Int × Int)) (hlen : (meetings.length : Int) ≤ intMax)
    (hproper : ∀ m ∈ meetings, m.1 ≤ m.2) : Answers meetings := by
  have hmax : intMax = 2147483647 := rfl
  have hn : int32 meetings.length = meetings.length := int32_of_mem (by omega) (by omega)
  have hsl := (sort_length (meetings.map Prod.fst)).trans (List.length_map Prod.fst)
  have hel := (sort_length (meetings.map Prod.snd)).trans (List.length_map Prod.snd)
  obtain ⟨i, j, r, hloop, hswept, hdone⟩ :=
    whileBoth_returns hlen (sort_sorted _) (sort_sorted _) hsl hel rfl swept_start
  have hle : ∀ t, (inProgress meetings t : Int) ≤ r := by
    intro t
    rw [← overlap_sort hproper]
    exact hswept.overlap_le (hsl.trans hel.symm) (by omega) t
  refine ⟨2 * meetings.length + 1, r, fun fuel hfuel => ?_, ?_, ?_⟩
  · rw [minMeetingRooms, hn, if_neg (by omega), Int.toNat_natCast, List.take_length]
    exact hloop fuel (by omega)
  · rcases hswept.attained with hzero | ⟨t, ht⟩
    · have hbound := hle 0
      exact ⟨0, by omega⟩
    · rw [overlap_sort hproper] at ht
      exact ⟨t, le_antisymm ht (hle t)⟩
  · rintro k ⟨t, rfl⟩
    exact hle t

theorem minMeetingRooms_answers_three : Answers [(0, 2), (1, 3), (2, 2)] :=
  minMeetingRooms_answers [(0, 2), (1, 3), (2, 2)] (by decide) (by decide)

/-- 2 ^ 32 meetings at one time. As an int their number is 0. -/
theorem many_meetings_none_counted :
    ¬ ∀ meetings : List (Int × Int), (∀ m ∈ meetings, m.1 ≤ m.2) → Answers meetings := by
  intro hall
  have hproper : ∀ m ∈ List.replicate (2 ^ 32) ((0 : Int), (1 : Int)), m.1 ≤ m.2 := by
    intro m hm
    rw [List.eq_of_mem_replicate hm]
    decide
  obtain ⟨N, r, hcall, hgreatest⟩ := hall _ hproper
  have hn : int32 (List.replicate (2 ^ 32) ((0 : Int), (1 : Int))).length = 0 := by
    rw [List.length_replicate]
    decide
  have hreturn := hcall (N + 1) N.le_succ
  rw [minMeetingRooms, hn, if_neg (by decide), whileBoth, if_neg (by decide), Option.some_inj] at hreturn
  have hcount : inProgress (List.replicate (2 ^ 32) ((0 : Int), (1 : Int))) 0 = 2 ^ 32 := by
    rw [inProgress, List.countP_replicate, if_pos (by decide)]
  have hle := hgreatest.2 ⟨0, rfl⟩
  rw [hcount] at hle
  omega

end LearnNote.Algorithm.MeetingRooms
