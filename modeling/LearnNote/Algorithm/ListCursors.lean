import LearnNote.Algorithm.LinkedList
import LearnNote.Lib.CheckedInt
import LearnNote.Lib.CycleFinding

namespace LearnNote.Algorithm.ListCursors

open Lib Lib.Linked LinkedList Function

/-- The loop that moves p on k times. No result, here and below, is out of fuel, a null pointer followed,
or an overflow. -/
def advance (h : Heap) : Nat → Int → Nat → Option Nat
  | 0, _, _ => none
  | fuel + 1, k, p => (checkedInt (k - 1)).bind fun less =>
      if k ≠ 0 then (follow h p).bind (advance h fuel less) else some p

def whileNext (h : Heap) : Nat → Nat → Nat → Option Nat
  | 0, _, _ => none
  | fuel + 1, p, q => (follow h p).bind fun p =>
      if p ≠ 0 then (follow h q).bind (whileNext h fuel p) else some q

def findFromEnd (fuel : Nat) (h : Heap) (head : Nat) (k : Int) : Option Nat :=
  (advance h fuel k head).bind fun p => (whileNext h fuel p head).bind (follow h)

/-- The loop of hasCycle and the first of detectCycle: whether the two met, and where fast is at the end. -/
def whileFast (h : Heap) : Nat → Nat → Nat → Option (Bool × Nat)
  | 0, _, _ => none
  | fuel + 1, slow, fast =>
      if fast ≠ 0 ∧ next h fast ≠ 0 then
        (follow h slow).bind fun slow => ((follow h fast).bind (follow h)).bind fun fast =>
          if slow = fast then some (true, fast) else whileFast h fuel slow fast
      else some (false, fast)

def hasCycle (fuel : Nat) (h : Heap) (head : Nat) : Option Bool := (whileFast h fuel head head).map Prod.fst

def whileApart (h : Heap) : Nat → Nat → Nat → Option Nat
  | 0, _, _ => none
  | fuel + 1, slow, fast =>
      if slow ≠ fast then (follow h fast).bind fun fast => (follow h slow).bind fun slow => whileApart h fuel slow fast
      else some slow

def detectCycle (fuel : Nat) (h : Heap) (head : Nat) : Option Nat :=
  if head = 0 ∨ next h head = 0 then some 0
  else (whileFast h fuel head head).bind fun r => whileApart h fuel head r.2

def FindsFromEnd (h : Heap) (head : Nat) (l : List Nat) (k : Int) : Prop :=
  ∃ N r, (∀ fuel, N ≤ fuel → findFromEnd fuel h head k = some r) ∧ l[l.length - k.toNat]? = some r

/-- A heap of finitely many nodes. -/
def Closed (nodes : Finset Nat) (h : Heap) : Prop := ∀ p ∈ nodes, next h p = 0 ∨ next h p ∈ nodes

/-- Null is never come to, and a node is come to that lies on the cycle: following next from it comes back to it. -/
structure RunsIntoCycle (h : Heap) (head : Nat) : Prop where
  ne_null : ∀ k, (next h)^[k] head ≠ 0
  cycle : ∃ k, (next h)^[k] head ∈ periodicPts (next h)

def Entry (h : Heap) (head p : Nat) : Prop :=
  ∃ k, (next h)^[k] head = p ∧ p ∈ periodicPts (next h) ∧ ∀ i < k, (next h)^[i] head ∉ periodicPts (next h)

variable {h : Heap} {head p q fuel n j k : Nat} {l m : List Nat}

theorem follow_iterate (hne : (next h)^[k] head ≠ 0) : follow h ((next h)^[k] head) = some ((next h)^[k + 1] head) := by
  rw [follow_of_ne hne, iterate_succ_apply']

theorem advance_returns (hl : Chain (next h) p l) (hk : k ≤ l.length) (hmax : (k : Int) ≤ intMax) (hfuel : k < fuel) :
    advance h fuel k p = some ((next h)^[k] p) := by
  induction fuel generalizing k p l with
  | zero => exact absurd hfuel (Nat.not_lt_zero k)
  | succ fuel ih =>
      have hmin : intMin ≤ -1 := by decide
      rw [advance, checkedInt_of_mem (by omega) (by omega), Option.bind_some]
      cases k with
      | zero => exact if_neg (not_not.mpr rfl)
      | succ k =>
          cases l with
          | nil => exact absurd hk (Nat.not_succ_le_zero k)
          | cons a l =>
              obtain ⟨rfl, ha, hl⟩ := hl
              have hless : ((k + 1 : Nat) : Int) - 1 = k := by omega
              rw [if_pos (by omega), follow_of_ne ha, Option.bind_some, hless]
              exact ih hl (Nat.le_of_succ_le_succ hk) (by omega) (Nat.lt_of_succ_lt_succ hfuel)

theorem whileNext_returns (hp : Chain (next h) p (n :: l)) (hq : Chain (next h) q m) (hlen : l.length ≤ m.length)
    (hfuel : l.length < fuel) : whileNext h fuel p q = some ((next h)^[l.length] q) := by
  induction l generalizing p q n m fuel with
  | nil =>
      obtain ⟨fuel, rfl⟩ : ∃ f, fuel = f + 1 := ⟨fuel - 1, by omega⟩
      obtain ⟨rfl, hne, hend⟩ := hp
      rw [whileNext, follow_of_ne hne, Option.bind_some, if_neg (not_not.mpr (chain_nil.mp hend))]
      rfl
  | cons a l ih =>
      obtain ⟨fuel, rfl⟩ : ∃ f, fuel = f + 1 := ⟨fuel - 1, by omega⟩
      obtain ⟨rfl, hne, hp⟩ := hp
      cases m with
      | nil => exact absurd hlen (Nat.not_succ_le_zero _)
      | cons b m =>
          obtain ⟨rfl, hneq, hq⟩ := hq
          have hnext : next h p ≠ 0 := hp.1 ▸ hp.2.1
          rw [whileNext, follow_of_ne hne, Option.bind_some, if_pos hnext, follow_of_ne hneq, Option.bind_some]
          exact ih hp hq (Nat.le_of_succ_le_succ hlen) (Nat.lt_of_succ_lt_succ hfuel)

theorem findFromEnd_returns (hl : Chain (next h) head l) (hlt : k < l.length) (hk : 0 < k) (hmax : (k : Int) ≤ intMax)
    (hfuel : l.length < fuel) : findFromEnd fuel h head k = some ((next h)^[l.length - k] head) := by
  have hrest := hl.iterate k hlt.le
  rw [List.drop_eq_getElem_cons hlt] at hrest
  have hlength : (l.drop (k + 1)).length + 1 = l.length - k := by
    rw [List.length_drop]
    omega
  have hprev := hl.iterate_ne (by omega : (l.drop (k + 1)).length < l.length)
  rw [findFromEnd, advance_returns hl hlt.le hmax (by omega), Option.bind_some,
    whileNext_returns hrest hl (by omega) (by omega), Option.bind_some, follow_iterate hprev, hlength]

theorem findFromEnd_length (hl : Chain (next h) head l) (hmax : (l.length : Int) ≤ intMax) (hfuel : l.length < fuel) :
    findFromEnd fuel h head l.length = none := by
  obtain ⟨fuel, rfl⟩ : ∃ f, fuel = f + 1 := ⟨fuel - 1, by omega⟩
  rw [findFromEnd, advance_returns hl (Nat.le_refl _) hmax hfuel, Option.bind_some, hl.iterate_length]
  rfl

theorem findsFromEnd_iff (hl : Chain (next h) head l) {k : Int} (hk : 1 ≤ k ∧ k ≤ l.length) (hmax : k ≤ intMax) :
    FindsFromEnd h head l k ↔ k < l.length := by
  obtain ⟨k, rfl⟩ := Int.eq_ofNat_of_zero_le (by omega : 0 ≤ k)
  constructor
  · rintro ⟨N, r, hN, -⟩
    by_contra hge
    obtain rfl : k = l.length := by omega
    have hnone := findFromEnd_length hl hmax (by omega : l.length < N + l.length + 1)
    rw [hN _ (by omega)] at hnone
    exact Option.some_ne_none r hnone
  · intro hlt
    have hin : l.length - k < l.length := by omega
    refine ⟨l.length + 1, l[l.length - k], fun fuel hfuel => ?_, by simp [hin]⟩
    rw [findFromEnd_returns hl (by omega) (by omega) hmax hfuel, (hl.getElem hin).1]

theorem findsFromEnd_iff_two : FindsFromEnd (fun p => ⟨0, if p = 1 then 2 else 0⟩) 1 [1, 2] 1 ↔ (1 : Int) < 2 := by
  have hl : Chain (next fun p => ⟨0, if p = 1 then 2 else 0⟩) 1 [1, 2] := ⟨rfl, by decide, rfl, by decide, rfl⟩
  exact findsFromEnd_iff hl (by decide) (by decide)

theorem only_not_found :
    ¬ ∀ (h : Heap) (head : Nat) (l : List Nat) (k : Int), Chain (next h) head l → 1 ≤ k ∧ k ≤ l.length → k ≤ intMax →
      FindsFromEnd h head l k := by
  intro hall
  have hl : Chain (next fun _ => ⟨0, 0⟩) 1 [1] := ⟨rfl, by decide, rfl⟩
  have hlt := (findsFromEnd_iff hl (by decide) (by decide)).mp (hall _ 1 [1] 1 hl (by decide) (by decide))
  exact absurd hlt (by decide)

theorem whileFast_round (hne : ∀ i < 2 * (n + 1), (next h)^[i] head ≠ 0) :
    whileFast h (fuel + 1) ((next h)^[n] head) ((next h)^[2 * n] head) =
      if (next h)^[n + 1] head = (next h)^[2 * (n + 1)] head then some (true, (next h)^[2 * (n + 1)] head)
      else whileFast h fuel ((next h)^[n + 1] head) ((next h)^[2 * (n + 1)] head) := by
  have hslow := hne n (by omega)
  have hfast := hne (2 * n) (by omega)
  have hahead := hne (2 * n + 1) (by omega)
  have hguard : (next h)^[2 * n] head ≠ 0 ∧ next h ((next h)^[2 * n] head) ≠ 0 :=
    ⟨hfast, by rwa [← iterate_succ_apply' (next h)]⟩
  rw [whileFast, if_pos hguard, follow_iterate hslow, Option.bind_some, follow_iterate hfast, Option.bind_some,
    follow_iterate hahead, Option.bind_some]
  rfl

theorem whileFast_run (hne : ∀ i < 2 * n, (next h)^[i] head ≠ 0)
    (hapart : ∀ i, 0 < i → i ≤ n → (next h)^[i] head ≠ (next h)^[2 * i] head) :
    whileFast h (fuel + n) head head = whileFast h fuel ((next h)^[n] head) ((next h)^[2 * n] head) := by
  induction n generalizing fuel with
  | zero => rfl
  | succ n ih =>
      have hsum : fuel + (n + 1) = fuel + 1 + n := by omega
      rw [hsum, ih (fun i hi => hne i (by omega)) (fun i hi hin => hapart i hi (by omega)), whileFast_round hne,
        if_neg (hapart (n + 1) (Nat.succ_pos n) (Nat.le_refl _))]

theorem whileFast_meets (hk : 0 < k) (hmeet : (next h)^[k] head = (next h)^[2 * k] head)
    (hfirst : ∀ i, 0 < i → i < k → (next h)^[i] head ≠ (next h)^[2 * i] head)
    (hne : ∀ i < 2 * k, (next h)^[i] head ≠ 0) (hfuel : k ≤ fuel) :
    whileFast h fuel head head = some (true, (next h)^[2 * k] head) := by
  obtain ⟨n, rfl⟩ : ∃ n, k = n + 1 := ⟨k - 1, by omega⟩
  obtain ⟨m, rfl⟩ : ∃ m, fuel = m + 1 + n := ⟨fuel - 1 - n, by omega⟩
  rw [whileFast_run (fun i hi => hne i (by omega)) (fun i hi hin => hfirst i hi (by omega)), whileFast_round hne,
    if_pos hmeet]

theorem whileFast_ends (hend : (next h)^[2 * n] head = 0 ∨ (next h)^[2 * n + 1] head = 0)
    (hne : ∀ i < 2 * n, (next h)^[i] head ≠ 0)
    (hapart : ∀ i, 0 < i → i ≤ n → (next h)^[i] head ≠ (next h)^[2 * i] head) (hfuel : n < fuel) :
    whileFast h fuel head head = some (false, (next h)^[2 * n] head) := by
  obtain ⟨m, rfl⟩ : ∃ m, fuel = m + 1 + n := ⟨fuel - 1 - n, by omega⟩
  have hstop : ¬ ((next h)^[2 * n] head ≠ 0 ∧ next h ((next h)^[2 * n] head) ≠ 0) := by
    rw [← iterate_succ_apply' (next h), not_and_or, not_not, not_not]
    exact hend
  rw [whileFast_run hne hapart, whileFast, if_neg hstop]

/-- The round in which fast comes to null, or to the last node. Before it the two do not meet. -/
theorem exists_end (hnull : ∃ k, (next h)^[k] head = 0) :
    ∃ n, ((next h)^[2 * n] head = 0 ∨ (next h)^[2 * n + 1] head = 0) ∧ (∀ i < 2 * n, (next h)^[i] head ≠ 0) ∧
      ∀ i, 0 < i → i ≤ n → (next h)^[i] head ≠ (next h)^[2 * i] head := by
  have hfirst := Nat.find_spec hnull
  have hbefore : ∀ i < Nat.find hnull, (next h)^[i] head ≠ 0 := fun i hi => Nat.find_min hnull hi
  refine ⟨Nat.find hnull / 2, ?_, fun i hi => hbefore i (by omega), fun i hi hin hmeet => ?_⟩
  · rcases Nat.mod_two_eq_zero_or_one (Nat.find hnull) with heven | hodd
    · left
      have hhalf : 2 * (Nat.find hnull / 2) = Nat.find hnull := by omega
      rw [hhalf, hfirst]
    · right
      have hhalf : 2 * (Nat.find hnull / 2) + 1 = Nat.find hnull := by omega
      rw [hhalf, hfirst]
  · exact CycleFinding.iterate_ne_of_meeting hmeet hi (fun j hj => hbefore j (by omega)) _ hfirst

theorem RunsIntoCycle.meets (hr : RunsIntoCycle h head) : ∃ k, 0 < k ∧ (next h)^[k] head = (next h)^[2 * k] head ∧
    ∀ i, 0 < i → i < k → (next h)^[i] head ≠ (next h)^[2 * i] head := by
  obtain ⟨j, hj⟩ := hr.cycle
  have hsome := CycleFinding.exists_meeting hj
  obtain ⟨hpos, hmeet⟩ := Nat.find_spec hsome
  exact ⟨Nat.find hsome, hpos, hmeet, fun i hi hlt he => Nat.find_min hsome hlt ⟨hi, he⟩⟩

theorem Closed.runsIntoCycle {nodes : Finset Nat} (hc : Closed nodes h) (hhead : head = 0 ∨ head ∈ nodes)
    (hne : ∀ k, (next h)^[k] head ≠ 0) : RunsIntoCycle h head := by
  have hinside : ∀ k, (next h)^[k] head ∈ nodes := by
    intro k
    induction k with
    | zero => exact hhead.resolve_left (hne 0)
    | succ k ih =>
        have hstep := hne (k + 1)
        rw [iterate_succ_apply'] at hstep ⊢
        exact (hc _ ih).resolve_left hstep
  exact ⟨hne, CycleFinding.exists_periodic nodes hinside⟩

/-- For every heap of finitely many nodes, whatever their next pointers are. -/
theorem hasCycle_iff {nodes : Finset Nat} (hc : Closed nodes h) (hhead : head = 0 ∨ head ∈ nodes) :
    ∃ N b, (∀ fuel, N ≤ fuel → hasCycle fuel h head = some b) ∧ (b = true ↔ ∀ k, (next h)^[k] head ≠ 0) := by
  by_cases hnull : ∃ k, (next h)^[k] head = 0
  · obtain ⟨n, hend, hne, hapart⟩ := exists_end hnull
    refine ⟨n + 1, false, fun fuel hfuel => ?_, iff_of_false Bool.false_ne_true fun hall => ?_⟩
    · rw [hasCycle, whileFast_ends hend hne hapart hfuel, Option.map_some]
    · obtain ⟨k, hk⟩ := hnull
      exact hall k hk
  · have hne : ∀ k, (next h)^[k] head ≠ 0 := fun k hk => hnull ⟨k, hk⟩
    obtain ⟨k, hk, hmeet, hfirst⟩ := (hc.runsIntoCycle hhead hne).meets
    refine ⟨k, true, fun fuel hfuel => ?_, iff_of_true rfl hne⟩
    rw [hasCycle, whileFast_meets hk hmeet hfirst (fun i _ => hne i) hfuel, Option.map_some]

theorem hasCycle_iff_two :
    ∃ N b, (∀ fuel, N ≤ fuel → hasCycle fuel (fun p => ⟨0, if p = 0 then 0 else 2⟩) 1 = some b) ∧
      (b = true ↔ ∀ k, (next fun p => ⟨0, if p = 0 then 0 else 2⟩)^[k] 1 ≠ 0) := by
  have hc : Closed {1, 2} fun p => ⟨0, if p = 0 then 0 else 2⟩ := by
    unfold Closed
    decide
  exact hasCycle_iff hc (by decide)

theorem whileApart_run (hne : ∀ i, (next h)^[i] head ≠ 0) (hapart : ∀ i < n, (next h)^[i] head ≠ (next h)^[i + k] head) :
    whileApart h (fuel + n) head ((next h)^[k] head) =
      whileApart h fuel ((next h)^[n] head) ((next h)^[n + k] head) := by
  induction n generalizing fuel with
  | zero => rw [Nat.zero_add]; rfl
  | succ n ih =>
      have hsum : fuel + (n + 1) = fuel + 1 + n := by omega
      have hlater : n + 1 + k = n + k + 1 := by omega
      rw [hsum, ih fun i hi => hapart i (by omega), whileApart, if_pos (hapart n (Nat.lt_succ_self n)),
        follow_iterate (hne _), Option.bind_some, follow_iterate (hne _), Option.bind_some, hlater]

/-- For every heap, and every head from which null is not come to but a cycle is. -/
theorem detectCycle_entry (hr : RunsIntoCycle h head) :
    ∃ N p, (∀ fuel, N ≤ fuel → detectCycle fuel h head = some p) ∧ Entry h head p := by
  obtain ⟨k, hk, hmeet, hfirst⟩ := hr.meets
  have hsome : ∃ j, (next h)^[j] head ∈ periodicPts (next h) := hr.cycle
  obtain ⟨j, hj, hbefore⟩ : ∃ j, (next h)^[j] head ∈ periodicPts (next h) ∧
      ∀ i < j, (next h)^[i] head ∉ periodicPts (next h) := by
    classical
    exact ⟨Nat.find hsome, Nat.find_spec hsome, fun i hi => Nat.find_min hsome hi⟩
  have hsame : (next h)^[j] head = (next h)^[j + k] head := (CycleFinding.eq_later_iff hmeet hk).mpr hj
  have hapart : ∀ i < j, (next h)^[i] head ≠ (next h)^[i + k] head :=
    fun i hi he => hbefore i hi ((CycleFinding.eq_later_iff hmeet hk).mp he)
  refine ⟨k + j + 1, (next h)^[j] head, fun fuel hfuel => ?_, j, rfl, hj, hbefore⟩
  have hgo : ¬ (head = 0 ∨ next h head = 0) := not_or.mpr ⟨hr.ne_null 0, hr.ne_null 1⟩
  obtain ⟨m, rfl⟩ : ∃ m, fuel = m + 1 + j := ⟨fuel - 1 - j, by omega⟩
  rw [detectCycle, if_neg hgo, whileFast_meets hk hmeet hfirst (fun i _ => hr.ne_null i) (by omega), Option.bind_some,
    ← hmeet, whileApart_run hr.ne_null hapart, ← hsame, whileApart, if_neg (not_not.mpr rfl)]

theorem detectCycle_entry_two :
    ∃ N p, (∀ fuel, N ≤ fuel → detectCycle fuel (fun p => ⟨0, if p = 0 then 0 else 2⟩) 1 = some p) ∧
      Entry (fun p => ⟨0, if p = 0 then 0 else 2⟩) 1 p := by
  have hr : RunsIntoCycle (fun p => ⟨0, if p = 0 then 0 else 2⟩) 1 := by
    refine ⟨fun k => ?_, 1, 1, Nat.one_pos, rfl⟩
    induction k with
    | zero => exact Nat.one_ne_zero
    | succ k ih =>
        rw [iterate_succ_apply']
        simp [next, ih]
  exact detectCycle_entry hr

def ReturnsNull (h : Heap) (head : Nat) : Prop := ∃ N, ∀ fuel, N ≤ fuel → detectCycle fuel h head = some 0

theorem whileApart_null (hp : p ≠ 0) : whileApart h fuel p 0 = none := by
  cases fuel with
  | zero => rfl
  | succ fuel =>
      rw [whileApart, if_pos hp]
      rfl

/-- Whether fast is null or at the last node, null is followed next. -/
theorem whileApart_ended (hhead : head ≠ 0) (hnext : next h head ≠ 0) (hend : p = 0 ∨ next h p = 0) :
    whileApart h fuel head p = none := by
  rcases eq_or_ne p 0 with rfl | hp
  · exact whileApart_null hhead
  · have hlast := hend.resolve_left hp
    have hne : head ≠ p := by
      rintro rfl
      exact hnext hlast
    cases fuel with
    | zero => rfl
    | succ fuel =>
        rw [whileApart, if_pos hne, follow_of_ne hp, Option.bind_some, follow_of_ne hhead, Option.bind_some, hlast,
          whileApart_null hnext]

/-- Only the test before the first loop returns null. -/
theorem returnsNull_iff (hl : Chain (next h) head l) : ReturnsNull h head ↔ l.length ≤ 1 := by
  constructor
  · rintro ⟨N, hN⟩
    by_contra hlong
    obtain ⟨n, hend, hne, hapart⟩ := exists_end ⟨l.length, hl.iterate_length⟩
    have hhead : head ≠ 0 := hl.iterate_ne (by omega : 0 < l.length)
    have hnext : next h head ≠ 0 := hl.iterate_ne (by omega : 1 < l.length)
    have hgo : ¬ (head = 0 ∨ next h head = 0) := not_or.mpr ⟨hhead, hnext⟩
    have hcall := hN (N + n + 1) (by omega)
    rw [iterate_succ_apply'] at hend
    rw [detectCycle, if_neg hgo, whileFast_ends (by rwa [iterate_succ_apply']) hne hapart (by omega), Option.bind_some,
      whileApart_ended hhead hnext hend] at hcall
    exact Option.some_ne_none 0 hcall.symm
  · intro hshort
    refine ⟨0, fun fuel _ => if_pos ?_⟩
    cases l with
    | nil => exact .inl hl
    | cons a l =>
        obtain rfl : l = [] := List.eq_nil_of_length_eq_zero (by simpa using hshort)
        exact .inr (hl.1 ▸ hl.2.2)

theorem returnsNull_iff_one : ReturnsNull (fun _ => ⟨0, 0⟩) 1 ↔ [1].length ≤ 1 := by
  have hl : Chain (next fun _ => ⟨0, 0⟩) 1 [1] := ⟨rfl, by decide, rfl⟩
  exact returnsNull_iff hl

theorem pair_not_null :
    ¬ ∀ (h : Heap) (head : Nat) (l : List Nat), Chain (next h) head l → ReturnsNull h head := by
  intro hall
  have hl : Chain (next fun p => ⟨0, if p = 1 then 2 else 0⟩) 1 [1, 2] := ⟨rfl, by decide, rfl, by decide, rfl⟩
  exact absurd ((returnsNull_iff hl).mp (hall _ 1 [1, 2] hl)) (by decide)

end LearnNote.Algorithm.ListCursors
