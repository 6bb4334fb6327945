import Mathlib.Data.List.Induction
import Mathlib.Data.List.Nodup

namespace LearnNote.Muduo

/-- The threads of a server with their loops, which are numbered. -/
structure EventLoopThreadPool where
  baseLoop : Nat
  started : Bool
  numThreads : Int
  next : Nat
  loops : List Nat
deriving DecidableEq

namespace EventLoopThreadPool

def new (baseLoop : Nat) : EventLoopThreadPool := ⟨baseLoop, false, 0, 0, []⟩

def setThreadNum (numThreads : Int) (p : EventLoopThreadPool) : EventLoopThreadPool :=
  { p with numThreads := numThreads }

/-- Each thread brings a loop of its own. -/
def start (p : EventLoopThreadPool) : EventLoopThreadPool :=
  { p with
    started := true
    loops := p.loops ++ (List.range p.numThreads.toNat).map fun i => p.baseLoop + p.loops.length + i + 1 }

/-- No result is an index beyond the loops. -/
def getNextLoop (p : EventLoopThreadPool) : Option (Nat × EventLoopThreadPool) :=
  if p.loops.isEmpty then some (p.baseLoop, p)
  else
    p.loops[p.next]?.map fun loop =>
      (loop, { p with next := if p.next + 1 ≥ p.loops.length then 0 else p.next + 1 })

def getAllLoops (p : EventLoopThreadPool) : List Nat := if p.loops.isEmpty then [p.baseLoop] else p.loops

def Turn (k : Nat) (p : EventLoopThreadPool) : Prop := p.loops ≠ [] → p.next = k % p.loops.length

variable {p q : EventLoopThreadPool} {k loop : Nat}

theorem isEmpty_iff : p.loops.isEmpty = true ↔ p.loops = [] := List.isEmpty_iff

section Turns

variable {n : Nat}

theorem succ_of_lt (h : k % n + 1 < n) : (k + 1) % n = k % n + 1 ∧ (k + 1) / n = k / n := by
  have hk : k + 1 = k % n + 1 + n * (k / n) := by
    have := Nat.mod_add_div k n
    omega
  constructor
  · conv_lhs => rw [hk]
    rw [Nat.add_mul_mod_self_left, Nat.mod_eq_of_lt h]
  · conv_lhs => rw [hk]
    rw [Nat.add_mul_div_left _ _ (by omega), Nat.div_eq_of_lt h, Nat.zero_add]

theorem succ_of_eq (h : k % n + 1 = n) : (k + 1) % n = 0 ∧ (k + 1) / n = k / n + 1 := by
  have hk : k + 1 = n * (k / n + 1) := by
    have := Nat.mod_add_div k n
    rw [Nat.mul_succ]
    omega
  constructor
  · rw [hk, Nat.mul_mod_right]
  · conv_lhs => rw [hk]
    exact Nat.mul_div_cancel_left _ (by omega)

theorem count_turns {l m : List Nat} (hl : l.Nodup) (h : ∀ j x, m[j]? = some x → l[j % l.length]? = some x)
    (i : Nat) (hi : i < l.length) : m.count l[i] = m.length / l.length + if i < m.length % l.length then 1 else 0 := by
  induction m using List.reverseRecOn with
  | nil => rw [List.count_nil, List.length_nil, Nat.zero_div, Nat.zero_mod, if_neg (Nat.not_lt_zero i)]
  | append_singleton m x ih =>
      have hx : l[m.length % l.length]? = some x := h m.length x (List.getElem?_concat_length)
      have hm := ih fun j y hy => h j y (by
        rw [List.getElem?_append_left (List.getElem?_eq_some_iff.mp hy).1]
        exact hy)
      have hlt : m.length % l.length < l.length := Nat.mod_lt _ (Nat.zero_lt_of_lt hi)
      have hself : x = l[i] ↔ m.length % l.length = i := by
        rw [List.getElem?_eq_getElem hlt] at hx
        rw [← Option.some.inj hx]
        exact hl.getElem_inj_iff
      rw [List.count_append, hm, List.count_singleton, List.length_append, List.length_singleton]
      have hbeq : (x == l[i]) = decide (m.length % l.length = i) := by
        rw [Bool.eq_iff_iff, beq_iff_eq, hself, decide_eq_true_iff]
      rw [hbeq]
      rcases Nat.lt_or_eq_of_le (Nat.succ_le_of_lt hlt) with hless | hlast
      · rw [(succ_of_lt hless).1, (succ_of_lt hless).2]
        simp only [decide_eq_true_eq]
        split_ifs <;> omega
      · rw [(succ_of_eq hlast).1, (succ_of_eq hlast).2]
        simp only [decide_eq_true_eq]
        split_ifs <;> omega

end Turns

/-- The loops are handed out in turn. -/
theorem getNextLoop_turn (h : Turn k p) (hg : p.getNextLoop = some (loop, q)) :
    p.getAllLoops[k % p.getAllLoops.length]? = some loop ∧ Turn (k + 1) q ∧ q.getAllLoops = p.getAllLoops := by
  rw [getNextLoop] at hg
  split at hg
  next hempty =>
    cases hg
    refine ⟨?_, fun hne => absurd (isEmpty_iff.mp hempty) hne, rfl⟩
    rw [getAllLoops, if_pos hempty, List.length_singleton, Nat.mod_one]
    rfl
  next hempty =>
    have hne : p.loops ≠ [] := fun h => hempty (isEmpty_iff.mpr h)
    have hlt : k % p.loops.length < p.loops.length := Nat.mod_lt k (List.length_pos_iff.mpr hne)
    obtain ⟨l, hl, he⟩ := Option.map_eq_some_iff.mp hg
    cases he
    rw [h hne] at hl
    refine ⟨?_, fun _ => ?_, rfl⟩
    · rw [getAllLoops, if_neg hempty]
      exact hl
    · rw [h hne]
      rcases Nat.lt_or_eq_of_le (Nat.succ_le_of_lt hlt) with hless | hlast
      · rw [(succ_of_lt hless).1]
        exact if_neg (Nat.not_le_of_lt hless)
      · rw [(succ_of_eq hlast).1]
        exact if_pos (Nat.le_of_eq hlast.symm)

theorem getNextLoop_isSome (h : Turn k p) : p.getNextLoop.isSome = true := by
  rw [getNextLoop]
  split
  next => rfl
  next hempty =>
    have hne : p.loops ≠ [] := fun h => hempty (isEmpty_iff.mpr h)
    rw [Option.isSome_map, h hne, List.getElem?_eq_getElem (Nat.mod_lt k (List.length_pos_iff.mpr hne))]
    rfl

theorem getAllLoops_start (numThreads : Int) (baseLoop : Nat) :
    ((new baseLoop).setThreadNum numThreads).start.getAllLoops.Nodup := by
  rw [getAllLoops]
  split
  · exact List.nodup_singleton _
  · show (([] : List Nat) ++ (List.range numThreads.toNat).map fun i => baseLoop + 0 + i + 1).Nodup
    rw [List.nil_append]
    apply List.Nodup.map _ List.nodup_range
    intro i j hij
    simpa using hij

end EventLoopThreadPool

end LearnNote.Muduo
