import Mathlib.Data.List.GetD
import Mathlib.Data.Multiset.Sort
import LearnNote.Lib.Arrangements
import LearnNote.Lib.Flags
import LearnNote.Lib.Loops
import LearnNote.Lib.SortedChoices

namespace LearnNote.Algorithm.BackTrack

open Lib Lib.Flags Lib.Arrangements

/-- What outlives a call of the two solvers. -/
structure Globals where
  res : List (List Int)
  track : List Int
  used : List Bool

/-- No result, here and below, is an access outside a vector, a pop from an empty list, or a
recursion deeper than the fuel. -/
def popBack (track : List Int) : Option (List Int) := if track = [] then none else some track.dropLast

theorem popBack_concat (track : List Int) (num : Int) : popBack (track ++ [num]) = some track := by
  rw [popBack, if_neg (List.append_ne_nil_of_right_ne_nil _ (List.cons_ne_nil _ _)), List.dropLast_concat]

namespace Permutate

def choose (nums : List Int) (backtrack : Globals → Option Globals) (g : Globals) (i : Nat) : Option Globals :=
  g.used[i]?.bind fun used =>
    if used then some g
    else nums[i]?.bind fun num =>
      (backtrack { g with used := g.used.set i true, track := g.track ++ [num] }).bind fun g =>
        (popBack g.track).map fun track => { g with used := g.used.set i false, track := track }

def backtrack (nums : List Int) : Nat → Globals → Option Globals
  | 0, _ => none
  | fuel + 1, g =>
      if g.track.length = nums.length then some { g with res := g.res ++ [g.track] }
      else (List.range nums.length).foldlM (choose nums (backtrack nums fuel)) g

/-- Every call that goes on makes the track longer, so the recursion is never deeper than the
vector is long and one. -/
def permutate (nums : List Int) (g : Globals) : Option (Globals × List (List Int)) :=
  (backtrack nums (nums.length + 1) { g with used := List.replicate nums.length false }).map fun g => (g, g.res)

def pick (nums : List Int) (places : List Nat) : List Int := places.map (nums.getD · 0)

variable {nums t : List Int} {num : Int} {k fuel i : Nat} {g : Globals}

def found (nums : List Int) (track : List Int) (places : List (List Nat)) : List (List Int) :=
  places.map fun t => track ++ pick nums t

theorem found_cons (hi : nums[i]? = some num) (track : List Int) (places : List (List Nat)) :
    found nums (track ++ [num]) places = found nums track (places.map (i :: ·)) := by
  simp [found, pick, hi]

/-- A call on a state in which k places are not used. -/
def Backtracks (nums : List Int) (k fuel : Nat) : Prop :=
  ∀ g : Globals, g.used.length = nums.length → (unmarked g.used).length = k → g.track.length + k = nums.length →
    backtrack nums fuel g = some { g with res := g.res ++ found nums g.track (arrangements k (unmarked g.used)) }

def branch (k : Nat) (used : List Bool) (i : Nat) : List (List Nat) :=
  if used[i]? = some false then (arrangements k ((unmarked used).erase i)).map (i :: ·) else []

theorem flatMap_branch (k : Nat) (used : List Bool) :
    (List.range used.length).flatMap (branch k used) = arrangements (k + 1) (unmarked used) := by
  have hfilter : ∀ l : List Nat, l.flatMap (branch k used) =
      (l.filter fun i => used[i]? = some false).flatMap fun i =>
        (arrangements k ((unmarked used).erase i)).map (i :: ·) := by
    intro l
    induction l with
    | nil => rfl
    | cons i l ih => by_cases h : used[i]? = some false <;> simp [branch, h, ih]
  exact hfilter _

theorem found_append (track : List Int) (l m : List (List Nat)) :
    found nums track (l ++ m) = found nums track l ++ found nums track m := List.map_append

theorem choose_spec (hrec : Backtracks nums k fuel) (hused : g.used.length = nums.length)
    (hk : (unmarked g.used).length = k + 1) (htrack : g.track.length + (k + 1) = nums.length)
    (hi : i < nums.length) (res : List (List Int)) :
    choose nums (backtrack nums fuel) { g with res := res } i =
      some { g with res := res ++ found nums g.track (branch k g.used i) } := by
  rcases Flags.value g.used (hused ▸ hi) with hvalue | hvalue
  · simp [choose, branch, hvalue, found]
  · have hnum := List.getElem?_eq_getElem hi
    have hlength := length_unmarked_set hvalue
    have hcall := hrec { res := res, track := g.track ++ [nums[i]], used := g.used.set i true }
      (by rw [List.length_set, hused]) (by simp only; omega)
      (by rw [List.length_append, List.length_singleton]; omega)
    rw [choose, hvalue, Option.bind_some, if_neg Bool.false_ne_true, hnum, Option.bind_some, hcall, Option.bind_some,
      popBack_concat, Option.map_some, branch, if_pos hvalue, set_set_false hvalue, found_cons hnum,
      unmarked_set hvalue]

theorem backtracks (nums : List Int) : ∀ k fuel, k < fuel → Backtracks nums k fuel := by
  intro k
  induction k with
  | zero =>
      intro fuel hfuel g _ _ htrack
      obtain ⟨fuel, rfl⟩ : ∃ m, fuel = m + 1 := ⟨fuel - 1, by omega⟩
      rw [backtrack, if_pos (by omega)]
      simp [found, arrangements, pick]
  | succ k ih =>
      intro fuel hfuel g hused hk htrack
      obtain ⟨fuel, rfl⟩ : ∃ m, fuel = m + 1 := ⟨fuel - 1, by omega⟩
      rw [backtrack, if_neg (by omega)]
      have hround : ∀ done i rest g', List.range nums.length = done ++ i :: rest →
          g' = { g with res := g.res ++ found nums g.track (done.flatMap (branch k g.used)) } →
          ∃ g'', choose nums (backtrack nums fuel) g' i = some g'' ∧
            g'' = { g with res := g.res ++ found nums g.track ((done ++ [i]).flatMap (branch k g.used)) } := by
        rintro done i rest _ hl rfl
        have hi : i < nums.length := List.mem_range.mp (hl ▸ List.mem_append_right _ List.mem_cons_self)
        refine ⟨_, choose_spec (ih fuel (by omega)) hused hk htrack hi _, ?_⟩
        rw [List.flatMap_append, List.flatMap_singleton, found_append, List.append_assoc]
      obtain ⟨g', hg', rfl⟩ := Loops.foldlM_spec (b := g) (by simp [found]) hround
      rw [hg', ← hused, flatMap_branch]

theorem permutate_eq (nums : List Int) (htrack : g.track = []) :
    permutate nums g = some ({ g with
      res := g.res ++ (arrangements nums.length (List.range nums.length)).map (pick nums),
      used := List.replicate nums.length false },
      g.res ++ (arrangements nums.length (List.range nums.length)).map (pick nums)) := by
  have hcall := backtracks nums nums.length (nums.length + 1) (Nat.lt_succ_self _)
    { g with used := List.replicate nums.length false } List.length_replicate
    (by simp only [unmarked_replicate, List.length_range]) (by simp [htrack])
  rw [permutate, hcall, Option.map_some]
  simp only [unmarked_replicate, found, htrack, List.nil_append]

theorem pick_range (nums : List Int) : pick nums (List.range nums.length) = nums := by
  refine List.ext_getElem (by simp [pick]) fun i hi _ => ?_
  simp only [pick, List.length_map, List.length_range] at hi
  simp [pick, hi]

theorem getD_injOn (hnums : nums.Nodup) {i j : Nat} (hi : i < nums.length) (hj : j < nums.length)
    (h : nums.getD i 0 = nums.getD j 0) : i = j := by
  rw [List.getD_eq_getElem _ _ hi, List.getD_eq_getElem _ _ hj] at h
  exact (hnums.getElem_inj_iff).mp h

theorem pick_injOn (hnums : nums.Nodup) {p q : List Nat} (hp : ∀ i ∈ p, i < nums.length) (hq : ∀ i ∈ q, i < nums.length)
    (h : pick nums p = pick nums q) : p = q := by
  induction p generalizing q with
  | nil => exact (List.map_eq_nil_iff.mp h.symm).symm
  | cons i p ih =>
      cases q with
      | nil => cases h
      | cons j q =>
          obtain ⟨hhead, htail⟩ := List.cons.inj h
          rw [getD_injOn hnums (hp i List.mem_cons_self) (hq j List.mem_cons_self) hhead,
            ih (fun i hi => hp i (List.mem_cons_of_mem _ hi)) (fun j hj => hq j (List.mem_cons_of_mem _ hj)) htail]

theorem exists_pick (hperm : t.Perm nums) : ∃ p : List Nat, p.Perm (List.range nums.length) ∧ pick nums p = t := by
  have hnums : List.Forall₂ (fun x i => x = nums.getD i 0) nums (List.range nums.length) := by
    rw [← List.forall₂_map_right_iff, List.forall₂_eq_eq_eq]
    exact (pick_range nums).symm
  obtain ⟨p, hpick, hp⟩ := List.perm_comp_forall₂ hperm hnums
  rw [← List.forall₂_map_right_iff, List.forall₂_eq_eq_eq] at hpick
  exact ⟨p, hp, hpick.symm⟩

theorem permutate_spec (hnums : nums.Nodup) (hres : g.res = []) (htrack : g.track = []) :
    ∃ g' lists, permutate nums g = some (g', lists) ∧ lists.Nodup ∧ (∀ t, t ∈ lists ↔ t.Perm nums) ∧
      g'.track = [] ∧ g'.used = List.replicate nums.length false := by
  refine ⟨_, _, permutate_eq nums htrack, ?_, fun t => ?_, htrack, rfl⟩
  · rw [hres, List.nil_append]
    refine (nodup_arrangements List.nodup_range _).map_on fun p hp q hq h => ?_
    have hlt : ∀ {p}, p ∈ arrangements nums.length (List.range nums.length) → ∀ i ∈ p, i < nums.length :=
      fun hp i hi => List.mem_range.mp (((mem_arrangements List.length_range).mp hp).mem_iff.mp hi)
    exact pick_injOn hnums (hlt hp) (hlt hq) h
  · rw [hres, List.nil_append, List.mem_map]
    constructor
    · rintro ⟨p, hp, rfl⟩
      have hperm := ((mem_arrangements List.length_range).mp hp).map (nums.getD · 0)
      exact hperm.trans (List.Perm.of_eq (pick_range nums))
    · intro hperm
      obtain ⟨p, hp, hpick⟩ := exists_pick hperm
      exact ⟨p, (mem_arrangements List.length_range).mpr hp, hpick⟩

theorem permutate_spec_pair :
    ∃ g' lists, permutate [3, 1] ⟨[], [], []⟩ = some (g', lists) ∧ lists.Nodup ∧ (∀ t, t ∈ lists ↔ t.Perm [3, 1]) ∧
      g'.track = [] ∧ g'.used = List.replicate 2 false :=
  permutate_spec (by decide) rfl rfl

end Permutate

namespace SubsetWithDup

def skips (nums : List Int) (start i : Nat) (num : Int) : Option Bool :=
  if start < i then nums[i - 1]?.map fun before => decide (num = before) else some false

def choose (nums : List Int) (backtrack : Nat → Globals → Option Globals) (start : Nat) (g : Globals) (i : Nat) :
    Option Globals :=
  nums[i]?.bind fun num => (skips nums start i num).bind fun skip =>
    if skip then some g
    else (backtrack (i + 1) { g with track := g.track ++ [num] }).bind fun g =>
      (popBack g.track).map fun track => { g with track := track }

def backtrack (nums : List Int) : Nat → Nat → Globals → Option Globals
  | 0, _, _ => none
  | fuel + 1, start, g =>
      (List.range' start (nums.length - start)).foldlM (choose nums (backtrack nums fuel) start)
        { g with res := g.res ++ [g.track] }

/-- With the globals and what is returned, the vector, which is sorted in place. -/
def subsetWithDup (nums : List Int) (g : Globals) : Option (Globals × List Int × List (List Int)) :=
  (backtrack (nums.insertionSort (· ≤ ·)) (nums.length + 1) 0 g).map fun g =>
    (g, nums.insertionSort (· ≤ ·), g.res)

open SortedChoices

variable {nums t : List Int} {num : Int} {fuel start i : Nat} {g : Globals} {res : List (List Int)}

def found (track : List Int) (l : List (List Int)) : List (List Int) := l.map (track ++ ·)

theorem found_cons (track : List Int) (num : Int) (l : List (List Int)) :
    found (track ++ [num]) l = found track (l.map (num :: ·)) := by
  simp [found]

def before (nums : List Int) (start i : Nat) : Option Int := if start < i then nums[i - 1]? else none

theorem skips_eq (hi : i < nums.length) (num : Int) :
    skips nums start i num = some (decide (before nums start i = some num)) := by
  by_cases h : start < i
  · have hget : nums[i - 1]? = some nums[i - 1] := List.getElem?_eq_getElem (by omega)
    simp [skips, before, h, hget, eq_comm]
  · simp [skips, before, h]

/-- A call that starts at a place which leaves fewer numbers than there is fuel. -/
def Backtracks (nums : List Int) (fuel : Nat) : Prop :=
  ∀ start g, nums.length - start < fuel →
    backtrack nums fuel start g = some { g with res := g.res ++ found g.track (choices (nums.drop start)) }

theorem choose_spec (hrec : Backtracks nums fuel) (hi : i < nums.length) (hfuel : nums.length - (i + 1) < fuel)
    (res : List (List Int)) :
    choose nums (backtrack nums fuel) start { g with res := res } i =
      some { g with res := res ++ found g.track (if before nums start i = some nums[i] then []
        else (choices (nums.drop (i + 1))).map (nums[i] :: ·)) } := by
  rw [choose, List.getElem?_eq_getElem hi, Option.bind_some, skips_eq hi, Option.bind_some]
  by_cases h : before nums start i = some nums[i]
  · simp [h, found]
  · rw [if_neg (by simpa using h), hrec (i + 1) _ hfuel, Option.bind_some, popBack_concat, Option.map_some, if_neg h,
      found_cons]

theorem loop_spec (hrec : Backtracks nums fuel) (hfuel : nums.length - start < fuel + 1) (d : Nat) :
    ∀ i res, nums.length - i = d → start ≤ i →
      (List.range' i d).foldlM (choose nums (backtrack nums fuel) start) { g with res := res } =
        some { g with res := res ++ found g.track (branches (before nums start i) (nums.drop i)) } := by
  induction d with
  | zero =>
      intro i res hd _
      rw [List.drop_eq_nil_of_le (by omega)]
      simp [branches, found]
  | succ d ih =>
      intro i res hd hle
      have hi : i < nums.length := by omega
      rw [List.range'_succ, List.foldlM_cons, choose_spec hrec hi (by omega)]
      have hbefore : before nums start (i + 1) = some nums[i] := by
        rw [before, if_pos (by omega), Nat.add_sub_cancel, List.getElem?_eq_getElem hi]
      refine (ih (i + 1) _ (by omega) (by omega)).trans ?_
      rw [List.drop_eq_getElem_cons hi, branches, hbefore, choices, found, found, found, List.map_append,
        List.append_assoc]

theorem backtracks (nums : List Int) (fuel : Nat) : Backtracks nums fuel := by
  induction fuel with
  | zero => exact fun start g h => absurd h (Nat.not_lt_zero _)
  | succ fuel ih =>
      intro start g hfuel
      have hbefore : before nums start start = none := if_neg (lt_irrefl _)
      rw [backtrack, loop_spec ih hfuel _ start _ rfl le_rfl, hbefore, choices]
      simp [found]

theorem subsetWithDup_eq (nums : List Int) (htrack : g.track = []) :
    subsetWithDup nums g = some ({ g with res := g.res ++ choices (nums.insertionSort (· ≤ ·)) },
      nums.insertionSort (· ≤ ·), g.res ++ choices (nums.insertionSort (· ≤ ·))) := by
  have hcall := backtracks (nums.insertionSort (· ≤ ·)) (nums.length + 1) 0 g
    (by rw [List.length_insertionSort]; omega)
  rw [subsetWithDup, hcall, Option.map_some, List.drop_zero]
  simp [found, htrack]

theorem sorted_of_mem {l : List Int} (hl : l.Pairwise (· ≤ ·)) (ht : t ∈ choices l) : t.Pairwise (· ≤ ·) :=
  hl.sublist ((mem_choices hl).mp ht)

theorem mem_map_choices (s : Multiset Int) :
    s ∈ (choices (nums.insertionSort (· ≤ ·))).map Multiset.ofList ↔ s ≤ (nums : Multiset Int) := by
  have hsorted := List.pairwise_insertionSort (· ≤ ·) nums
  rw [List.mem_map]
  constructor
  · rintro ⟨t, ht, rfl⟩
    have hsub := ((mem_choices hsorted).mp ht).subperm
    exact Multiset.coe_le.mpr (hsub.trans (List.perm_insertionSort (· ≤ ·) nums).subperm)
  · intro hle
    refine ⟨s.sort (· ≤ ·), (mem_choices hsorted).mpr ?_, s.sort_eq (· ≤ ·)⟩
    rw [← s.sort_eq (· ≤ ·), Multiset.coe_le] at hle
    exact List.sublist_insertionSort' (s.pairwise_sort (· ≤ ·)) hle

theorem subsetWithDup_spec (hres : g.res = []) (htrack : g.track = []) :
    ∃ g' sorted lists, subsetWithDup nums g = some (g', sorted, lists) ∧ (∀ t ∈ lists, t.Pairwise (· ≤ ·)) ∧
      (lists.map Multiset.ofList).Nodup ∧
      ∀ s, s ∈ lists.map Multiset.ofList ↔ s ≤ (nums : Multiset Int) := by
  have hsorted := List.pairwise_insertionSort (· ≤ ·) nums
  refine ⟨_, _, _, subsetWithDup_eq nums htrack, ?_⟩
  rw [hres, List.nil_append]
  refine ⟨fun t ht => sorted_of_mem hsorted ht, ?_, mem_map_choices⟩
  refine (nodup_choices hsorted).map_on fun t ht u hu h => ?_
  exact (Multiset.coe_eq_coe.mp h).eq_of_pairwise' (sorted_of_mem hsorted ht) (sorted_of_mem hsorted hu)

theorem subsetWithDup_spec_triple :
    ∃ g' sorted lists, subsetWithDup [2, 1, 2] ⟨[], [], []⟩ = some (g', sorted, lists) ∧
      (∀ t ∈ lists, t.Pairwise (· ≤ ·)) ∧ (lists.map Multiset.ofList).Nodup ∧
      ∀ s, s ∈ lists.map Multiset.ofList ↔ s ≤ (([2, 1, 2] : List Int) : Multiset Int) :=
  subsetWithDup_spec rfl rfl

end SubsetWithDup

end LearnNote.Algorithm.BackTrack
