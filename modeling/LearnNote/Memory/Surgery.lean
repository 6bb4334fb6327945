import LearnNote.Lib.Linked
import LearnNote.Memory.LeveledMemoryPool

namespace LearnNote.Memory

open Lib Linked Extents SizeClass

namespace CentralCache

variable {m : Words} {start size n k a p : Nat} {l : List Nat}

theorem link_at (hs : 0 < size) (hk : k < n) : link start size n m (start + k * size) = start + (k + 1) * size := by
  induction n with
  | zero => omega
  | succ n ih =>
      rw [link]
      by_cases he : k = n
      · subst he; simp
      · rw [Function.update_of_ne]
        · exact ih (by omega)
        · intro hc
          exact he (Nat.eq_of_mul_eq_mul_right hs (by omega))

theorem link_off (h : ∀ j < n, a ≠ start + j * size) : link start size n m a = m a := by
  induction n with
  | zero => rfl
  | succ n ih =>
      rw [link, Function.update_of_ne (h n (by omega))]
      exact ih (fun j hj => h j (by omega))

theorem carve_at (hs : 0 < size) (hk : k < n) :
    carve start size n m (start + k * size) = if k + 1 < n then start + (k + 1) * size else 0 := by
  rw [carve]
  by_cases he : k = n - 1
  · subst he
    rw [Function.update_self, if_neg (by omega)]
  · rw [if_pos (by omega), Function.update_of_ne]
    · exact link_at hs (by omega)
    · intro hc
      exact he (Nat.eq_of_mul_eq_mul_right hs (by omega))

theorem carve_off (hn : 0 < n) (h : ∀ j < n, a ≠ start + j * size) : carve start size n m a = m a := by
  rw [carve, Function.update_of_ne (h (n - 1) (by omega))]
  exact link_off (fun j hj => h j (by omega))

theorem carve_chain_from (h0 : start ≠ 0) (hs : 0 < size) {d : Nat} (hd : k + d + 1 = n) :
    Chain (carve start size n m) (start + k * size) ((List.range' k (d + 1)).map (fun j => start + j * size)) := by
  have hne : ∀ j, start + j * size ≠ 0 := by
    intro j
    omega
  induction d generalizing k with
  | zero =>
      refine ⟨rfl, hne k, ?_⟩
      rw [carve_at hs (by omega), if_neg (by omega)]
      rfl
  | succ d ih =>
      rw [List.range'_succ, List.map_cons]
      refine ⟨rfl, hne k, ?_⟩
      rw [carve_at hs (by omega), if_pos (by omega)]
      exact ih (by omega)

theorem carve_chain (h0 : start ≠ 0) (hs : 0 < size) (hn : 0 < n) :
    Chain (carve start size n m) start ((List.range n).map (fun j => start + j * size)) := by
  obtain ⟨d, rfl⟩ : ∃ d, n = d + 1 := ⟨n - 1, by omega⟩
  have hc := carve_chain_from (m := m) h0 hs (d := d) (k := 0) (n := d + 1) (by omega)
  rw [List.range_eq_range']
  simpa using hc

theorem lastOf_spec (h : Chain m p l) (hp : p ≠ 0) (n : Nat) :
    ∃ u r, l = u ++ lastOf m n p :: r ∧ (r = [] ↔ l.length ≤ n + 1) := by
  induction n generalizing p l with
  | zero =>
      obtain ⟨t, rfl, -⟩ := h.exists_cons hp
      refine ⟨[], t, rfl, ?_⟩
      simp
  | succ n ih =>
      obtain ⟨t, rfl, ht⟩ := h.exists_cons hp
      rw [lastOf]
      by_cases hm : m p = 0
      · rw [hm, chain_null] at ht
        subst ht
        exact ⟨[], [], by simp [hm], by simp⟩
      · obtain ⟨u, r, he, hr⟩ := ih ht hm
        rw [if_neg hm]
        exact ⟨p :: u, r, by rw [List.cons_append, ← he], by rw [hr]; simp⟩

variable {index : Nat} {os : Os} {c : CentralCache}

theorem relock (hl : c.locks index = false) :
    Function.update (Function.update c.locks index true) index false = c.locks := by
  rw [Function.update_idem, Function.update_eq_self_iff.mpr hl.symm]

theorem beginFetch_cases (hi : index < freeListSize) {r : Option Nat × Os × CentralCache}
    (h : beginFetch index os c = some r) :
    c.locks index = false ∧
      ((c.centralFreeList index ≠ 0 ∧ r = (some (c.centralFreeList index),
        { os with memory := Function.update os.memory (c.centralFreeList index) 0 },
        ⟨Function.update c.centralFreeList index (os.memory (c.centralFreeList index)), c.locks⟩)) ∨
      (c.centralFreeList index = 0 ∧ r = (none, os, { c with locks := Function.update c.locks index true }))) := by
  simp only [beginFetch, if_neg (not_le.mpr hi), acquire] at h
  cases hl : c.locks index with
  | true => simp [hl] at h
  | false =>
      refine ⟨rfl, ?_⟩
      by_cases h0 : c.centralFreeList index = 0
      · simp only [hl, h0, Bool.false_eq_true, ↓reduceIte, ne_eq, not_true_eq_false, Option.some.injEq] at h
        exact .inr ⟨h0, h.symm⟩
      · simp only [hl, h0, Bool.false_eq_true, ↓reduceIte, ne_eq, not_false_eq_true, Option.some.injEq, popBlock,
          release, relock hl] at h
        exact .inl ⟨h0, h.symm⟩

theorem returnRange_eq {start limit : Nat} (h0 : start ≠ 0) (hi : index < freeListSize) {r : Os × CentralCache}
    (h : returnRange start limit index os c = some r) :
    c.locks index = false ∧
      r = (⟨Function.update os.memory (lastOf os.memory (limit - 1) start) (c.centralFreeList index), os.mapped⟩,
        ⟨Function.update c.centralFreeList index start, c.locks⟩) := by
  have hgo : ¬ (start = 0 ∨ index ≥ freeListSize) := by
    rintro (h | h)
    · exact h0 h
    · exact absurd h (not_le.mpr hi)
  simp only [returnRange, if_neg hgo, acquire] at h
  cases hl : c.locks index with
  | true => simp [hl] at h
  | false =>
      simp only [hl, Bool.false_eq_true, ↓reduceIte, Option.some.injEq, splice, release, relock hl] at h
      exact ⟨rfl, h.symm⟩

end CentralCache

namespace ThreadCache

variable {m : Words} {p : Nat} {l : List Nat}

theorem splitNode_spec (h : Chain m p l) (hp : p ≠ 0) (n : Nat) (hn : splitNode m n p ≠ 0) :
    ∃ u r, l = u ++ splitNode m n p :: r ∧ u.length = n := by
  induction n generalizing p l with
  | zero =>
      obtain ⟨t, rfl, -⟩ := h.exists_cons hn
      exact ⟨[], t, rfl, rfl⟩
  | succ n ih =>
      rw [splitNode] at hn ⊢
      by_cases hm : m p = 0
      · simp [hm] at hn
      · rw [if_neg hm] at hn ⊢
        obtain ⟨t, rfl, ht⟩ := h.exists_cons hp
        obtain ⟨u, r, he, hu⟩ := ih ht hm hn
        exact ⟨p :: u, r, by rw [List.cons_append, ← he], by simp [hu]⟩

theorem splitNode_inside (h : Chain m p l) (n : Nat) (hn : n + 1 < l.length) :
    splitNode m n p ≠ 0 ∧ m (splitNode m n p) ≠ 0 := by
  induction n generalizing p l with
  | zero =>
      obtain _ | ⟨a, _ | ⟨b, l⟩⟩ := l
      · simp at hn
      · simp at hn
      · obtain ⟨rfl, hp, he, hb, -⟩ := h
        exact ⟨hp, he ▸ hb⟩
  | succ n ih =>
      obtain _ | ⟨a, _ | ⟨b, l⟩⟩ := l
      · simp at hn
      · simp at hn
      · obtain ⟨rfl, -, ht⟩ := h
        have hm : m p ≠ 0 := ht.1 ▸ ht.2.1
        rw [splitNode, if_neg hm]
        exact ih ht (by simpa using hn)

theorem countChain_spec {fuel n : Nat} (h : countChain m fuel p = some n) : ∃ l, Chain m p l ∧ l.length = n := by
  induction fuel generalizing p n with
  | zero => cases h
  | succ fuel ih =>
      rw [countChain] at h
      by_cases hp : p = 0
      · rw [if_pos hp, Option.some.injEq] at h
        exact ⟨[], hp, h⟩
      · rw [if_neg hp, Option.map_eq_some_iff] at h
        obtain ⟨k, hk, rfl⟩ := h
        obtain ⟨l, hl, rfl⟩ := ih hk
        exact ⟨p :: l, ⟨rfl, hp, hl⟩, rfl⟩

theorem requestIndex_eq (size : Nat) : requestIndex size = getIndex size := by
  unfold requestIndex
  split
  · rename_i h
    subst h
    rfl
  · rfl

def counted (index : Nat) (t : ThreadCache) : Nat := sizeT (t.freeListSize index + 1)

def limit (size count : Nat) : Nat := sizeT ((count - keepNum count) * ceil size)

theorem returnToCentralCache_cases (start size : Nat) (m : Words) (t : ThreadCache)
    (hc : threshold < t.freeListSize (getIndex size)) :
    ∃ tc, tc.freeList = t.freeList ∧
      ((returnToCentralCache start size m t = (m, tc, none) ∧
        (splitNode m (keepNum (t.freeListSize (getIndex size))) start = 0 ∨
          m (splitNode m (keepNum (t.freeListSize (getIndex size))) start) = 0)) ∨
      ∃ node, node = splitNode m (keepNum (t.freeListSize (getIndex size))) start ∧ node ≠ 0 ∧ m node ≠ 0 ∧
        returnToCentralCache start size m t = (Function.update m node 0, tc,
          some (m node, limit size (t.freeListSize (getIndex size)), getIndex size))) := by
  have hone : ¬ t.freeListSize (getIndex size) ≤ 1 := by
    simp only [threshold] at hc
    omega
  have hpos : t.freeListSize (getIndex size) - keepNum (t.freeListSize (getIndex size)) > 0 := by
    simp only [threshold, keepNum] at *
    omega
  simp only [returnToCentralCache, if_neg hone]
  by_cases hn : splitNode m (keepNum (t.freeListSize (getIndex size))) start = 0
  · exact ⟨t, rfl, .inl ⟨if_pos hn, .inl hn⟩⟩
  · rw [if_neg hn]
    refine ⟨t.setSize (getIndex size) (keepNum (t.freeListSize (getIndex size))), rfl, ?_⟩
    by_cases hx : m (splitNode m (keepNum (t.freeListSize (getIndex size))) start) = 0
    · rw [if_neg (fun h => h.2 hx), Function.update_eq_self_iff.mpr hx.symm]
      exact .inl ⟨rfl, .inr hx⟩
    · exact .inr ⟨_, rfl, hn, hx, if_pos ⟨hpos, hx⟩⟩

theorem deallocate_eq (p size : Nat) (m : Words) (t : ThreadCache) :
    deallocate p size m t =
      if counted (getIndex size) t > threshold then
        returnToCentralCache p size (Function.update m p (t.freeList (getIndex size)))
          ((t.setList (getIndex size) p).setSize (getIndex size) (counted (getIndex size) t))
      else (Function.update m p (t.freeList (getIndex size)),
        (t.setList (getIndex size) p).setSize (getIndex size) (counted (getIndex size) t), none) := by
  simp [deallocate, counted, setSize, setList]

theorem deallocate_cases (p size : Nat) (m : Words) (t : ThreadCache) :
    ∃ tc m', tc.freeList = Function.update t.freeList (getIndex size) p ∧
      m' = Function.update m p (t.freeList (getIndex size)) ∧
      ((deallocate p size m t = (m', tc, none) ∧ (threshold < counted (getIndex size) t →
        splitNode m' (keepNum (counted (getIndex size) t)) p = 0 ∨
          m' (splitNode m' (keepNum (counted (getIndex size) t)) p) = 0)) ∨
        ∃ node, node = splitNode m' (keepNum (counted (getIndex size) t)) p ∧ node ≠ 0 ∧ m' node ≠ 0 ∧
          threshold < counted (getIndex size) t ∧
          deallocate p size m t = (Function.update m' node 0, tc,
            some (m' node, limit size (counted (getIndex size) t), getIndex size))) := by
  have hsize : ((t.setList (getIndex size) p).setSize (getIndex size) (counted (getIndex size) t)).freeListSize
      (getIndex size) = counted (getIndex size) t := by simp [setSize]
  rw [deallocate_eq]
  by_cases hc : counted (getIndex size) t > threshold
  · rw [if_pos hc]
    obtain ⟨tc, hl, hr⟩ := returnToCentralCache_cases p size (Function.update m p (t.freeList (getIndex size)))
      ((t.setList (getIndex size) p).setSize (getIndex size) (counted (getIndex size) t)) (by rwa [hsize])
    rw [hsize] at hr
    refine ⟨tc, _, hl, rfl, hr.imp (fun h => ⟨h.1, fun _ => h.2⟩) ?_⟩
    rintro ⟨node, hn, h0, hx, he⟩
    exact ⟨node, hn, h0, hx, hc, he⟩
  · rw [if_neg hc]
    exact ⟨_, _, rfl, rfl, .inl ⟨rfl, fun h => absurd h hc⟩⟩

end ThreadCache

namespace LeveledMemoryPool

variable {index : Nat}

theorem blockSize_pos (index : Nat) : 0 < blockSize index := by
  simp only [blockSize, alignment]
  omega

theorem spanBytes_lt (h : index < freeListSize) : spanBytes index < 2 ^ 64 := by
  have hn : CentralCache.numPages (blockSize index) ≤ 64 := by
    simp only [freeListSize, maxBytes, alignment] at h
    unfold CentralCache.numPages
    split
    · simp [CentralCache.spanPages]
    · simp only [blockSize, alignment, pageSize]
      omega
  simp only [spanBytes, pageSize]
  omega

theorem blocks_le_spanBytes (index : Nat) :
    max (CentralCache.blockNum index) 1 * blockSize index ≤ spanBytes index := by
  have hdiv := Nat.div_mul_le_self (CentralCache.spanPages * pageSize) (blockSize index)
  have hle : blockSize index ≤ spanBytes index := by
    simp only [spanBytes, CentralCache.numPages]
    split
    · assumption
    · simp only [pageSize]
      omega
  have hspan : CentralCache.spanPages * pageSize ≤ spanBytes index := by
    simp only [spanBytes, CentralCache.numPages]
    split
    · exact le_rfl
    · simp only [CentralCache.spanPages, pageSize] at *
      omega
  rcases le_total (CentralCache.blockNum index) 1 with h | h
  · rw [max_eq_right h, one_mul]
    exact hle
  · rw [max_eq_left h]
    exact hdiv.trans hspan

theorem mem_blocks {index start b : Nat} (h : b ∈ blocks index start) :
    ∃ j < max (CentralCache.blockNum index) 1, b = start + j * blockSize index := by
  obtain ⟨j, hj, rfl⟩ := List.mem_map.mp h
  exact ⟨j, List.mem_range.mp hj, rfl⟩

theorem blocks_eq (index start : Nat) : ∃ l, blocks index start = start :: l := by
  obtain ⟨n, hn⟩ : ∃ n, max (CentralCache.blockNum index) 1 = n + 1 := ⟨max (CentralCache.blockNum index) 1 - 1, by omega⟩
  rw [blocks, hn, List.range_succ_eq_map]
  exact ⟨_, by rw [List.map_cons, zero_mul, add_zero]⟩

theorem blocks_within {index start b : Nat} (h : b ∈ blocks index start) :
    start ≤ b ∧ b + blockSize index ≤ start + spanBytes index := by
  obtain ⟨j, hj, rfl⟩ := mem_blocks h
  have hmul := Nat.mul_le_mul_right (blockSize index) (Nat.succ_le_of_lt hj)
  rw [Nat.succ_mul] at hmul
  have hle := blocks_le_spanBytes index
  omega

theorem blocks_apart (index start : Nat) :
    (blocks index start).Pairwise (fun b c => b + blockSize index ≤ c) := by
  rw [blocks, List.pairwise_map]
  apply List.pairwise_lt_range.imp
  intro j k hjk
  have hmul := Nat.mul_le_mul_right (blockSize index) (Nat.succ_le_of_lt hjk)
  rw [Nat.succ_mul] at hmul
  omega

end LeveledMemoryPool

namespace PageCache

variable {c c' : PageCache} {os os' : Os} {env : Env} {n : Nat} {r : Ret}

theorem allocateSpan_empty (hc : c.freeSpans = .empty) (h : allocateSpan env n os c = some (r, os', c')) :
    c'.freeSpans = .empty ∧ ((r = .ptr 0 ∧ os' = os) ∨ ∃ a, os.Fresh a (sizeT (n * pageSize)) ∧
      os' = ⟨memset os.memory a (sizeT (n * pageSize)), (a, sizeT (n * pageSize)) :: os.mapped⟩ ∧
      (r = .badAlloc ∨ r = .ptr a)) := by
  have hnone : c.freeSpans.lowerBound n = none := by rw [hc]; rfl
  simp only [allocateSpan, hnone] at h
  rcases systemAlloc_eq env n os with he | ⟨a, -, hfresh, he⟩
  · simp only [he, ↓reduceIte, Option.some.injEq, Prod.mk.injEq] at h
    obtain ⟨rfl, rfl, rfl⟩ := h
    exact ⟨hc, .inl ⟨rfl, rfl⟩⟩
  · simp only [he, if_neg hfresh.1] at h
    cases hq : newSpan env c with
    | none =>
        simp only [hq, Option.some.injEq, Prod.mk.injEq] at h
        obtain ⟨rfl, rfl, rfl⟩ := h
        exact ⟨hc, .inr ⟨a, hfresh, rfl, .inl rfl⟩⟩
    | some q =>
        simp only [hq, Option.some.injEq, Prod.mk.injEq] at h
        obtain ⟨rfl, rfl, rfl⟩ := h
        exact ⟨hc, .inr ⟨a, hfresh, rfl, .inr rfl⟩⟩

end PageCache

end LearnNote.Memory
