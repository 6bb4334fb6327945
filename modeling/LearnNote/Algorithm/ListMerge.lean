import Mathlib.Data.List.Pairwise
import LearnNote.Algorithm.LinkedList

namespace LearnNote.Algorithm.ListMerge

open Lib.Linked LinkedList

/-- The loop of merge. Where the node of the second list is taken, that list is left as it is. -/
def whileBoth : Nat → Nat → Nat → Tail → Option (Nat × Nat × Tail)
  | 0, _, _, _ => none
  | fuel + 1, list1, list2, s =>
      if list1 ≠ 0 ∧ list2 ≠ 0 then
        if (s.heap list1).val < (s.heap list2).val then whileBoth fuel (next s.heap list1) list2 (s.append list1)
        else whileBoth fuel list1 list2 (s.append list2)
      else some (list1, list2, s)

def linkRest (list1 list2 : Nat) (s : Tail) : Tail :=
  let s := if list1 ≠ 0 then s.link list1 else s
  if list2 ≠ 0 then s.link list2 else s

/-- The heap and the list returned. No result, here and below, is out of fuel. -/
def merge (fuel : Nat) (h : Heap) (list1 list2 : Nat) : Option (Heap × Nat) :=
  (whileBoth fuel list1 list2 (.start h)).map fun r =>
    let s := linkRest r.1 r.2.1 r.2.2
    (s.heap, s.dummy)

def mergeRecursive : Nat → Heap → Nat → Nat → Option (Heap × Nat)
  | 0, _, _, _ => none
  | fuel + 1, h, list1, list2 =>
      if list1 = 0 then some (h, list2)
      else if list2 = 0 then some (h, list1)
      else if (h list1).val < (h list2).val then
        (mergeRecursive fuel h (next h list1) list2).map fun r => (setNext r.1 list1 r.2, list1)
      else (mergeRecursive fuel h list1 (next h list2)).map fun r => (setNext r.1 list2 r.2, list2)

/-- Both return the same list, and it is of these nodes in order. -/
def Agree (h : Heap) (list1 list2 : Nat) (nodes : List Nat) : Prop :=
  ∃ N, ∀ fuel, N ≤ fuel → ∃ h1 h2 r l, merge fuel h list1 list2 = some (h1, r) ∧
    mergeRecursive fuel h list1 list2 = some (h2, r) ∧ Merged h h1 r l nodes ∧ Merged h h2 r l nodes

/-- Of equal values the one in the second list comes first. -/
def joined (h : Heap) (l1 l2 : List Nat) : List Nat := List.merge l2 l1 fun b a => (h b).val ≤ (h a).val

variable {h : Heap} {s : Tail} {list1 list2 a b fuel : Nat} {l1 l2 done : List Nat}

theorem joined_cons_lt (hlt : (h a).val < (h b).val) : joined h (a :: l1) (b :: l2) = a :: joined h l1 (b :: l2) :=
  List.cons_merge_cons_neg _ _ _ (by simpa using hlt)

theorem joined_cons_ge (hge : ¬ (h a).val < (h b).val) : joined h (a :: l1) (b :: l2) = b :: joined h (a :: l1) l2 :=
  List.cons_merge_cons_pos _ _ _ (by simpa using hge)

theorem joined_nil_left : joined h [] l2 = l2 := List.merge_right l2

theorem joined_nil_right : joined h l1 [] = l1 := List.nil_merge l1

theorem mem_joined : a ∈ joined h l1 l2 ↔ a ∈ l1 ∨ a ∈ l2 := List.mem_merge.trans or_comm

theorem joined_perm : (joined h l1 l2).Perm (l1 ++ l2) :=
  (List.merge_perm_append _).trans List.perm_append_comm

theorem joined_sorted (h1 : Sorted h l1) (h2 : Sorted h l2) : Sorted h (joined h l1 l2) := by
  let le : Nat → Nat → Bool := fun b a => (h b).val ≤ (h a).val
  have htrans : ∀ a b c, le a b → le b c → le a c := by simpa [le] using fun a b c => Int.le_trans
  have htotal : ∀ a b, le a b || le b a := by simpa [le] using fun a b => Int.le_total _ _
  have hmerge := List.pairwise_merge htrans htotal l2 l1
  simp only [le, decide_eq_true_eq] at hmerge
  exact hmerge h2 h1

theorem joined_of_below (hbelow : ∀ b ∈ l2.head?, ∀ a ∈ l1, (h a).val < (h b).val) : joined h l1 l2 = l1 ++ l2 := by
  cases l2 with
  | nil => rw [joined_nil_right, List.append_nil]
  | cons b l2 =>
      induction l1 with
      | nil => exact joined_nil_left
      | cons a l1 ih =>
          have hb := hbelow b rfl
          rw [joined_cons_lt (hb a List.mem_cons_self), List.cons_append]
          refine congrArg _ (ih ?_)
          rintro _ ⟨⟩ a ha
          exact hb a (List.mem_cons_of_mem _ ha)

theorem mergeRecursive_returns (h1 : Chain (next h) list1 l1) (h2 : Chain (next h) list2 l2) (hd : ∀ c ∈ l1, c ∉ l2)
    (hfuel : l1.length + l2.length < fuel) :
    ∃ h' r, mergeRecursive fuel h list1 list2 = some (h', r) ∧ Chain (next h') r (joined h l1 l2) ∧
      ∀ p, (h' p).val = (h p).val := by
  induction fuel generalizing list1 list2 l1 l2 with
  | zero => exact absurd hfuel (Nat.not_lt_zero _)
  | succ fuel ih =>
      rw [mergeRecursive]
      cases l1 with
      | nil => exact ⟨h, list2, if_pos h1, by rwa [joined_nil_left], fun _ => rfl⟩
      | cons a l1 =>
          cases l2 with
          | nil =>
              obtain ⟨rfl, ha, ht⟩ := h1
              refine ⟨h, list1, by rw [if_neg ha, if_pos (chain_nil.mp h2)], ?_, fun _ => rfl⟩
              rw [joined_nil_right]
              exact ⟨rfl, ha, ht⟩
          | cons b l2 =>
              have hn1 := List.nodup_cons.mp h1.nodup
              have hn2 := List.nodup_cons.mp h2.nodup
              have hab := hd a List.mem_cons_self
              have hwhole1 := h1
              have hwhole2 := h2
              obtain ⟨rfl, ha, ht1⟩ := h1
              obtain ⟨rfl, hb, ht2⟩ := h2
              simp only [List.length_cons] at hfuel
              rw [if_neg ha, if_neg hb]
              by_cases hlt : (h list1).val < (h list2).val
              · obtain ⟨h', r, hr, hchain, hval⟩ := ih ht1 hwhole2
                  (fun c hc => hd c (List.mem_cons_of_mem _ hc)) (by simp only [List.length_cons]; omega)
                refine ⟨setNext h' list1 r, list1, by rw [if_pos hlt, hr, Option.map_some], ?_, by simpa using hval⟩
                rw [next_setNext, joined_cons_lt hlt]
                exact hchain.push ha fun hmem => (mem_joined.mp hmem).elim hn1.1 hab
              · obtain ⟨h', r, hr, hchain, hval⟩ := ih hwhole1 ht2
                  (fun c hc hc' => hd c hc (List.mem_cons_of_mem _ hc')) (by simp only [List.length_cons]; omega)
                refine ⟨setNext h' list2 r, list2, by rw [if_neg hlt, hr, Option.map_some], ?_, by simpa using hval⟩
                rw [next_setNext, joined_cons_ge hlt]
                refine hchain.push hb fun hmem => (mem_joined.mp hmem).elim (fun hmem => ?_) hn2.1
                exact hd list2 hmem List.mem_cons_self

/-- From the first node that is not below the second list on, the loop does not end. -/
theorem whileBoth_stuck (hlist1 : list1 ≠ 0) (hlist2 : list2 ≠ 0) (hge : ¬ (s.heap list1).val < (s.heap list2).val) :
    whileBoth fuel list1 list2 s = none := by
  induction fuel generalizing s with
  | zero => rfl
  | succ fuel ih =>
      rw [whileBoth, if_pos ⟨hlist1, hlist2⟩, if_neg hge]
      exact ih (by simpa using hge)

/-- The nodes of the first list that are taken, and those that are left. -/
structure Taken (s : Tail) (done : List Nat) (list1 : Nat) (l1 : List Nat) : Prop where
  built : s.Built done
  chain : Chain (next s.heap) list1 l1
  apart : ∀ c ∈ l1, c ∉ done

theorem Taken.append (ht : Taken s done list1 (a :: l1)) :
    list1 = a ∧ a ≠ 0 ∧ Taken (s.append a) (done ++ [a]) (next s.heap a) l1 := by
  have hapart := ht.chain.apart_concat ht.apart
  have htail : ∀ c ∈ l1, c ∉ done := fun c hc => ht.apart c (List.mem_cons_of_mem _ hc)
  obtain ⟨rfl, ha, hl⟩ := ht.chain
  exact ⟨rfl, ha, ht.built.append ha (ht.apart list1 List.mem_cons_self), ht.built.link_chain hl htail list1, hapart⟩

theorem whileBoth_of_not_below (ht : Taken s done list1 l1) (hlist2 : list2 ≠ 0) (ha : a ∈ l1)
    (hge : ¬ (s.heap a).val < (s.heap list2).val) : whileBoth fuel list1 list2 s = none := by
  induction l1 generalizing fuel list1 s done with
  | nil => exact absurd ha List.not_mem_nil
  | cons c l1 ih =>
      obtain ⟨rfl, hc, ht'⟩ := ht.append
      by_cases hlt : (s.heap list1).val < (s.heap list2).val
      · have hne : a ≠ list1 := by
          rintro rfl
          exact hge hlt
        cases fuel with
        | zero => rfl
        | succ fuel =>
            rw [whileBoth, if_pos ⟨hc, hlist2⟩, if_pos hlt]
            exact ih ht' ((List.mem_cons.mp ha).resolve_left hne) (by simpa using hge)
      · exact whileBoth_stuck hc hlist2 hlt

theorem whileBoth_of_below (ht : Taken s done list1 l1) (h2 : Chain (next s.heap) list2 l2) (hlist2 : list2 ≠ 0)
    (hd2 : ∀ c ∈ l2, c ∉ done ++ l1) (hbelow : ∀ a ∈ l1, (s.heap a).val < (s.heap list2).val)
    (hfuel : l1.length < fuel) :
    ∃ s', whileBoth fuel list1 list2 s = some (0, list2, s') ∧ s'.Built (done ++ l1) ∧
      Chain (next s'.heap) list2 l2 ∧ ∀ p, (s'.heap p).val = (s.heap p).val := by
  induction l1 generalizing fuel list1 s done with
  | nil =>
      obtain ⟨fuel, rfl⟩ : ∃ f, fuel = f + 1 := ⟨fuel - 1, by omega⟩
      have hzero := chain_nil.mp ht.chain
      subst hzero
      refine ⟨s, ?_, by simpa using ht.built, h2, fun _ => rfl⟩
      rw [whileBoth, if_neg fun hboth => hboth.1 rfl]
  | cons a l1 ih =>
      obtain ⟨rfl, ha, ht'⟩ := ht.append
      obtain ⟨fuel, rfl⟩ : ∃ f, fuel = f + 1 := ⟨fuel - 1, by omega⟩
      have hall : done ++ list1 :: l1 = done ++ [list1] ++ l1 := by simp
      have hoff : ∀ c ∈ l2, c ∉ done := fun c hc hin => hd2 c hc (List.mem_append_left _ hin)
      rw [hall] at hd2 ⊢
      rw [whileBoth, if_pos ⟨ha, hlist2⟩, if_pos (hbelow list1 List.mem_cons_self)]
      obtain ⟨s', hloop, hbuilt, hchain, hval⟩ := ih ht' (ht.built.link_chain h2 hoff list1) hd2
        (fun c hc => by simpa using hbelow c (List.mem_cons_of_mem _ hc)) (by simpa using hfuel)
      exact ⟨s', hloop, hbuilt, hchain, fun p => (hval p).trans (s.append_val list1 p)⟩

theorem taken_start (h1 : Chain (next h) list1 l1) : Taken (.start h) [] list1 l1 :=
  ⟨Tail.built_start h, h1, fun _ _ => List.not_mem_nil⟩

theorem merge_returns (h1 : Chain (next h) list1 l1) (h2 : Chain (next h) list2 l2) (hd : ∀ c ∈ l1, c ∉ l2)
    (hbelow : ∀ b ∈ l2.head?, ∀ a ∈ l1, (h a).val < (h b).val) (hfuel : l1.length < fuel) :
    ∃ h' r, merge fuel h list1 list2 = some (h', r) ∧ Chain (next h') r (l1 ++ l2) ∧ ∀ p, (h' p).val = (h p).val := by
  cases l2 with
  | nil =>
      obtain ⟨fuel, rfl⟩ : ∃ f, fuel = f + 1 := ⟨fuel - 1, by omega⟩
      have hzero := chain_nil.mp h2
      subst hzero
      refine ⟨h, list1, ?_, by rwa [List.append_nil], fun _ => rfl⟩
      rw [merge, whileBoth, if_neg fun hboth => hboth.2 rfl, Option.map_some]
      by_cases hlist1 : list1 = 0
      · subst hlist1
        rfl
      · simp [linkRest, hlist1, Tail.link, Tail.start]
  | cons b l2 =>
      have hwhole := h2
      obtain ⟨rfl, hb, -⟩ := h2
      obtain ⟨s, hloop, hbuilt, hchain, hval⟩ := whileBoth_of_below (taken_start h1) hwhole hb
        (fun c hc hin => hd c hin hc) (hbelow list2 rfl) hfuel
      refine ⟨(s.link list2).heap, (s.link list2).dummy, ?_, ?_, fun p => (s.link_val list2 p).trans (hval p)⟩
      · rw [merge, hloop, Option.map_some]
        simp [linkRest, hb]
      · exact (hbuilt.path list2).chain (hbuilt.link_chain hchain (fun c hc hin => hd c hin hc) list2)

theorem merged_of_chain {h' : Heap} {r : Nat} (hchain : Chain (next h') r (joined h l1 l2)) (h1 : Sorted h l1)
    (h2 : Sorted h l2) (hval : ∀ p, (h' p).val = (h p).val) : Merged h h' r (joined h l1 l2) (l1 ++ l2) := by
  refine ⟨hchain, ?_, joined_perm, hval⟩
  have hsorted := joined_sorted h1 h2
  simpa only [Sorted, hval] using hsorted

/-- For every two lists of which no node is on both. -/
theorem agree_iff (h1 : Chain (next h) list1 l1) (h2 : Chain (next h) list2 l2) (hd : ∀ c ∈ l1, c ∉ l2)
    (hs1 : Sorted h l1) (hs2 : Sorted h l2) :
    Agree h list1 list2 (l1 ++ l2) ↔ ∀ b ∈ l2.head?, ∀ a ∈ l1, (h a).val < (h b).val := by
  constructor
  · rintro ⟨N, hN⟩ b hb a ha
    by_contra hge
    obtain ⟨k, rfl⟩ := List.head?_eq_some_iff.mp hb
    obtain ⟨rfl, hlist2, -⟩ := h2
    obtain ⟨g, g', r, l, hmerge, -⟩ := hN N (Nat.le_refl N)
    rw [merge, whileBoth_of_not_below (taken_start h1) hlist2 ha hge] at hmerge
    exact Option.some_ne_none _ hmerge.symm
  · intro hbelow
    refine ⟨l1.length + l2.length + 1, fun fuel hfuel => ?_⟩
    obtain ⟨g, r, hmerge, hchain, hval⟩ := merge_returns h1 h2 hd hbelow (by omega : l1.length < fuel)
    obtain ⟨g', r', hmerge', hchain', hval'⟩ := mergeRecursive_returns h1 h2 hd (by omega : l1.length + l2.length < fuel)
    rw [← joined_of_below hbelow] at hchain
    obtain rfl := hchain.start_unique hchain'
    exact ⟨g, g', r, _, hmerge, hmerge', merged_of_chain hchain hs1 hs2 hval, merged_of_chain hchain' hs1 hs2 hval'⟩

theorem agree_iff_pair :
    Agree (fun p => ⟨p, 0⟩) 1 2 ([1] ++ [2]) ↔ ∀ b : Nat, b ∈ [2].head? → ∀ a : Nat, a ∈ [1] → (a : Int) < b := by
  have h1 : Chain (next fun p => ⟨p, 0⟩) 1 [1] := ⟨rfl, by decide, rfl⟩
  have h2 : Chain (next fun p => ⟨p, 0⟩) 2 [2] := ⟨rfl, by decide, rfl⟩
  exact agree_iff h1 h2 (by decide) (List.pairwise_singleton _ _) (List.pairwise_singleton _ _)

theorem equal_not_merged :
    ¬ ∀ (h : Heap) (list1 list2 : Nat) (l1 l2 : List Nat), Chain (next h) list1 l1 → Chain (next h) list2 l2 →
      (∀ c ∈ l1, c ∉ l2) → Sorted h l1 → Sorted h l2 → Agree h list1 list2 (l1 ++ l2) := by
  intro hall
  have h1 : Chain (next fun _ => ⟨0, 0⟩) 1 [1] := ⟨rfl, by decide, rfl⟩
  have h2 : Chain (next fun _ => ⟨0, 0⟩) 2 [2] := ⟨rfl, by decide, rfl⟩
  have hs (c : Nat) : Sorted (fun _ => ⟨0, 0⟩) [c] := List.pairwise_singleton _ _
  have hbelow := (agree_iff h1 h2 (by decide) (hs 1) (hs 2)).mp (hall _ 1 2 [1] [2] h1 h2 (by decide) (hs 1) (hs 2))
  exact absurd (hbelow 2 rfl 1 List.mem_cons_self) (by decide)

end LearnNote.Algorithm.ListMerge
