import LearnNote.Algorithm.LinkedList
import LearnNote.Lib.CheckedInt
import LearnNote.Lib.Loops
import LearnNote.Lib.Runs
import LearnNote.Lib.Unsigned

namespace LearnNote.Algorithm.RemoveDulpicates

open Lib Lib.Linked LinkedList

structure Vars where
  nums : List Int
  i : Nat

/-- The body of the loop over j. No result, here and below, is an access outside the vector. -/
def body (s : Vars) (j : Int) : Option Vars :=
  s.nums[j.toNat]?.bind fun x => s.nums[s.i]?.bind fun last =>
    if x ≠ last then
      if s.i + 1 < s.nums.length then some ⟨s.nums.set (s.i + 1) x, s.i + 1⟩ else none
    else some s

/-- Of a vector: what it is afterwards, and the number returned. -/
def removeDulpicates (nums : List Int) : Option (List Int × Int) :=
  let n := int32 nums.length
  if n = 0 then some (nums, 0)
  else ((Int.range 0 n).foldlM body ⟨nums, 0⟩).map fun s => (s.nums, s.i + 1)

/-- The elements that are counted are one for each run of equal ones. -/
def Reduces (nums : List Int) : Prop :=
  ∃ (nums' : List Int) (k : Nat), removeDulpicates nums = some (nums', (k : Int)) ∧ k ≤ nums'.length ∧
    nums'.take k = nums.destutter (· ≠ ·)

/-- After k elements those up to i are what is kept of them, and the rest are as they were. -/
structure Reduced (nums : List Int) (k : Nat) (s : Vars) : Prop where
  length : s.nums.length = nums.length
  lt : s.i < k
  kept : s.nums.take (s.i + 1) = (nums.take k).destutter (· ≠ ·)
  unread : ∀ m, k ≤ m → s.nums[m]? = nums[m]?

variable {nums : List Int} {s : Vars} {k : Nat}

theorem take_set_succ {x : Int} (hk : k < nums.length) : (nums.set k x).take (k + 1) = nums.take k ++ [x] := by
  have hin : k < (nums.set k x).length := by rwa [List.length_set]
  rw [List.take_succ_eq_append_getElem hin, List.take_set_of_le le_rfl, List.getElem_set_self]

theorem Reduced.last (hs : Reduced nums k s) (hk : k ≤ nums.length) :
    ∃ c, s.nums[s.i]? = some c ∧ ((nums.take k).destutter (· ≠ ·)).getLast? = some c := by
  have hlength := hs.length
  have hlt := hs.lt
  have hin : s.i < s.nums.length := by omega
  refine ⟨s.nums[s.i], List.getElem?_eq_getElem hin, ?_⟩
  rw [← hs.kept, List.take_succ_eq_append_getElem hin, List.getLast?_concat]

theorem Reduced.body (hs : Reduced nums k s) (hk : k < nums.length) :
    ∃ t, body s k = some t ∧ Reduced nums (k + 1) t := by
  obtain ⟨c, hc, hlast⟩ := hs.last hk.le
  have hlength := hs.length
  have hlt := hs.lt
  have hx : s.nums[k]? = some nums[k] := (hs.unread k le_rfl).trans (List.getElem?_eq_getElem hk)
  have hnext := Runs.destutter_concat (b := nums[k]) hlast
  rw [← List.take_succ_eq_append_getElem hk] at hnext
  rw [RemoveDulpicates.body, Int.toNat_natCast, hx, Option.bind_some, hc, Option.bind_some]
  by_cases hne : nums[k] ≠ c
  · rw [if_pos hne.symm] at hnext
    refine ⟨_, by rw [if_pos hne, if_pos (by omega)], by simp [hlength], by simp; omega, ?_, fun m hm => ?_⟩
    · rw [hnext, ← hs.kept]
      exact take_set_succ (k := s.i + 1) (by omega)
    · rw [List.getElem?_set_ne (by simp; omega)]
      exact hs.unread m (by omega)
  · rw [if_neg fun h => hne h.symm] at hnext
    exact ⟨s, if_neg hne, hlength, by omega, hs.kept.trans hnext.symm, fun m hm => hs.unread m (by omega)⟩

theorem reduced_start (hne : 0 < nums.length) : Reduced nums 1 ⟨nums, 0⟩ := by
  refine ⟨rfl, Nat.one_pos, ?_, fun _ _ => rfl⟩
  obtain ⟨a, l, rfl⟩ := List.exists_cons_of_length_pos hne
  exact (List.destutter_singleton (· ≠ ·)).symm

theorem body_first (hne : 0 < nums.length) : body ⟨nums, 0⟩ 0 = some ⟨nums, 0⟩ := by
  have hx : nums[(0 : Int).toNat]? = some nums[0] := List.getElem?_eq_getElem hne
  rw [body, hx, Option.bind_some]
  simp [List.getElem?_eq_getElem hne]

theorem reduces_of_le (hlen : (nums.length : Int) ≤ intMax) : Reduces nums := by
  have hmax : intMax = 2147483647 := rfl
  have hsize : int32 nums.length = nums.length := int32_of_mem (by omega) (by omega)
  by_cases hzero : nums.length = 0
  · obtain rfl := List.eq_nil_of_length_eq_zero hzero
    exact ⟨[], 0, rfl, le_rfl, rfl⟩
  · have hne : 0 < nums.length := Nat.pos_of_ne_zero hzero
    obtain ⟨s, hloop, hs⟩ := Loops.forNat_spec (I := Reduced nums) (Nat.succ_le_of_lt hne) (reduced_start hne)
      fun k _ hk _ hs => hs.body hk
    refine ⟨s.nums, s.i + 1, ?_, ?_, ?_⟩
    · rw [removeDulpicates, hsize, if_neg (by omega), Loops.range_eq_cons (by omega), List.foldlM_cons, body_first hne]
      exact (congrArg (Option.map _) hloop).trans rfl
    · have hlt := hs.lt
      rw [hs.length]
      omega
    · have hkept := hs.kept
      rwa [List.take_length] at hkept

namespace OfList

def value (h : Heap) (p : Nat) : Option Int := if p = 0 then none else some (h p).val

/-- The loop: the heap and slow at its end. No result, here and below, is a null pointer followed or out of fuel. -/
def whileFollowed : Nat → Heap → Nat → Nat → Option (Heap × Nat)
  | 0, _, _, _ => none
  | fuel + 1, h, slow, fast =>
      (follow h fast).bind fun temp =>
        if temp ≠ 0 then
          (value h temp).bind fun x => (value h slow).bind fun last =>
            if x ≠ last then whileFollowed fuel (setNext h slow temp) temp temp else whileFollowed fuel h slow temp
        else some (h, slow)

/-- Of a list: the heap afterwards, and the list returned. -/
def removeDulpicates (fuel : Nat) (h : Heap) (head : Nat) : Option (Heap × Nat) :=
  if head = 0 then some (h, 0)
  else (whileFollowed fuel h head head).map fun r => (setNext r.1 r.2 0, head)

def Reduces (h : Heap) (head : Nat) (nums : List Int) : Prop :=
  ∃ N h' r l, (∀ fuel, N ≤ fuel → removeDulpicates fuel h head = some (h', r)) ∧ Chain (next h') r l ∧
    (l.map fun p => (h' p).val) = nums.destutter (· ≠ ·)

/-- The nodes that are kept of those seen, of which slow is the last. -/
structure Walked (h g : Heap) (head slow : Nat) (done : List Nat) (seen : List Int) : Prop where
  built : (Tail.mk g head (some slow)).Built done
  ne_null : slow ≠ 0
  values : (done.map fun p => (h p).val) = seen.destutter (· ≠ ·)
  val : ∀ p, (g p).val = (h p).val

variable {h g : Heap} {head slow fast temp fuel : Nat} {done rest l : List Nat} {seen : List Int}

theorem value_of_ne {p : Nat} (hp : p ≠ 0) : value h p = some (h p).val := if_neg hp

theorem Walked.last (hw : Walked h g head slow done seen) :
    (seen.destutter (· ≠ ·)).getLast? = some (h slow).val := by
  have hrear : some slow = done.getLast? := hw.built.rear
  rw [← hw.values, List.getLast?_map, ← hrear]
  rfl

theorem Walked.append (hw : Walked h g head slow done seen) (htemp : temp ≠ 0) (hoff : temp ∉ done)
    (hne : (h temp).val ≠ (h slow).val) :
    Walked h (setNext g slow temp) head temp (done ++ [temp]) (seen ++ [(h temp).val]) := by
  refine ⟨hw.built.append htemp hoff, htemp, ?_, fun p => (setNext_val g slow temp p).trans (hw.val p)⟩
  rw [List.map_append, hw.values, Runs.destutter_concat hw.last, if_pos hne.symm]
  rfl

theorem Walked.skip (hw : Walked h g head slow done seen) (heq : (h temp).val = (h slow).val) :
    Walked h g head slow done (seen ++ [(h temp).val]) := by
  refine ⟨hw.built, hw.ne_null, ?_, hw.val⟩
  rw [Runs.destutter_concat hw.last, if_neg (not_not.mpr heq.symm)]
  exact hw.values

theorem whileFollowed_returns (hw : Walked h g head slow done seen) (hfast : fast ≠ 0)
    (hrest : Chain (next g) (next g fast) rest) (hd : ∀ c ∈ rest, c ∉ done) :
    ∃ g' slow' done', (∀ fuel, rest.length < fuel → whileFollowed fuel g slow fast = some (g', slow')) ∧
      Walked h g' head slow' done' (seen ++ rest.map fun p => (h p).val) := by
  induction rest generalizing g slow fast done seen with
  | nil =>
      refine ⟨g, slow, done, Loops.returns_last fun fuel => ?_, by simpa using hw⟩
      rw [whileFollowed, follow_of_ne hfast, Option.bind_some, if_neg (not_not.mpr (chain_nil.mp hrest))]
  | cons temp rest ih =>
      have hoff := hd temp List.mem_cons_self
      have htail : ∀ c ∈ rest, c ∉ done := fun c hc => hd c (List.mem_cons_of_mem _ hc)
      have hnext := hrest.1
      rw [hnext] at hrest
      have htemp := hrest.2.1
      have hseen : seen ++ (temp :: rest).map (fun p => (h p).val) =
          seen ++ [(h temp).val] ++ rest.map fun p => (h p).val := by simp
      rw [hseen]
      by_cases hne : (h temp).val ≠ (h slow).val
      · have hkept : Chain (next (setNext g slow temp)) temp (temp :: rest) := hw.built.link_chain hrest hd temp
        obtain ⟨g', slow', done', hloop, hwalked⟩ :=
          ih (hw.append htemp hoff hne) htemp hkept.2.2 (hrest.apart_concat hd)
        refine ⟨g', slow', done', Loops.returns_succ (fun fuel => ?_) hloop, hwalked⟩
        rw [whileFollowed, follow_of_ne hfast, Option.bind_some, hnext, if_pos htemp, value_of_ne htemp,
          Option.bind_some, value_of_ne hw.ne_null, Option.bind_some, hw.val, hw.val, if_pos hne]
      · obtain ⟨g', slow', done', hloop, hwalked⟩ := ih (hw.skip (not_not.mp hne)) htemp hrest.2.2 htail
        refine ⟨g', slow', done', Loops.returns_succ (fun fuel => ?_) hloop, hwalked⟩
        rw [whileFollowed, follow_of_ne hfast, Option.bind_some, hnext, if_pos htemp, value_of_ne htemp,
          Option.bind_some, value_of_ne hw.ne_null, Option.bind_some, hw.val, hw.val, if_neg hne]

theorem walked_start (hhead : head ≠ 0) : Walked h h head head [head] [(h head).val] := by
  refine ⟨⟨rfl, fun v => ⟨rfl, hhead, ?_⟩⟩, hhead, rfl, fun _ => rfl⟩
  have hlink : next (setNext h head v) head = v := by
    rw [next_setNext, Function.update_self]
  exact hlink

theorem reduces (hl : Chain (next h) head l) : Reduces h head (l.map fun p => (h p).val) := by
  cases l with
  | nil =>
      obtain rfl := chain_nil.mp hl
      exact ⟨0, h, 0, [], fun fuel _ => rfl, rfl, rfl⟩
  | cons a l =>
      have hn := List.nodup_cons.mp hl.nodup
      obtain ⟨rfl, hhead, hrest⟩ := hl
      obtain ⟨g, slow, done, hloop, hw⟩ := whileFollowed_returns (walked_start hhead) hhead hrest
        fun c hc hin => hn.1 (List.mem_singleton.mp hin ▸ hc)
      refine ⟨l.length + 1, setNext g slow 0, head, done, fun fuel hfuel => ?_, ?_, ?_⟩
      · rw [removeDulpicates, if_neg hhead, hloop fuel hfuel, Option.map_some]
      · have hchain := (hw.built.path 0).chain (k := []) rfl
        rw [List.append_nil] at hchain
        exact hchain
      · have hval : ∀ p, (setNext g slow 0 p).val = (h p).val := fun p => (setNext_val g slow 0 p).trans (hw.val p)
        simp only [hval]
        exact hw.values

end OfList

/-- The two versions. The vector keeps its size as an int. -/
theorem both_reduce (nums : List Int) :
    ((nums.length : Int) ≤ intMax → Reduces nums) ∧
      (∀ (h : Heap) (head : Nat) (l : List Nat), Chain (next h) head l → (l.map fun p => (h p).val) = nums →
        OfList.Reduces h head nums) ∧
      (nums.Pairwise (· ≤ ·) →
        (nums.destutter (· ≠ ·)).Pairwise (· < ·) ∧ ∀ v, v ∈ nums.destutter (· ≠ ·) ↔ v ∈ nums) := by
  refine ⟨reduces_of_le, ?_, Runs.destutter_of_sorted⟩
  rintro h head l hl rfl
  exact OfList.reduces hl

theorem both_reduce_four :
    Reduces [1, 1, 2, 3] ∧
      (∀ (h : Heap) (head : Nat) (l : List Nat), Chain (next h) head l → (l.map fun p => (h p).val) = [1, 1, 2, 3] →
        OfList.Reduces h head [1, 1, 2, 3]) ∧
      ([(1 : Int), 1, 2, 3].destutter (· ≠ ·)).Pairwise (· < ·) ∧
      ∀ v : Int, v ∈ [1, 1, 2, 3].destutter (· ≠ ·) ↔ v ∈ [1, 1, 2, 3] := by
  obtain ⟨harray, hlist, hsorted⟩ := both_reduce [1, 1, 2, 3]
  exact ⟨harray (by decide), hlist, hsorted (by decide)⟩

/-- 2 ^ 32 zeros. As an int the size is 0. -/
theorem long_vector_not_reduced : ¬ ∀ nums : List Int, Reduces nums := by
  intro hall
  obtain ⟨nums', k, hcall, hk, hkept⟩ := hall (List.replicate (2 ^ 32) 0)
  have hsize : int32 (List.replicate (2 ^ 32) (0 : Int)).length = 0 := by
    rw [List.length_replicate]
    decide
  rw [removeDulpicates, hsize, if_pos rfl, Option.some_inj, Prod.mk.injEq] at hcall
  obtain rfl : k = 0 := by omega
  have hnil := (List.destutter_eq_nil (· ≠ ·)).mp hkept.symm
  rw [List.replicate_eq_nil_iff] at hnil
  omega

end LearnNote.Algorithm.RemoveDulpicates
