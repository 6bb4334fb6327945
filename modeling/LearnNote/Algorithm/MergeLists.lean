import Mathlib.Data.List.Lattice
import Mathlib.Data.Multiset.Bind
import LearnNote.Algorithm.LinkedList
import LearnNote.Lib.Loops
import LearnNote.Lib.PriorityQueue

namespace LearnNote.Algorithm.MergeLists

open Lib Lib.Linked LinkedList

variable {Q : Type}

/-- The values it reads are never written, so they are those at the start. -/
def cmp (h : Heap) (a b : Nat) : Prop := (h a).val > (h b).val

def pushLists (pq : PriorityQueue Nat Q) (lists : List Nat) : Q :=
  lists.foldl (fun queue list => if list ≠ 0 then pq.push queue list else queue) pq.empty

/-- The loop until the queue is empty. No result is out of fuel or, for next of the top, a null pointer. -/
def whileQueue (pq : PriorityQueue Nat Q) : Nat → Q → Tail → Option Tail
  | 0, _, _ => none
  | fuel + 1, queue, s =>
      match pq.top queue with
      | none => some s
      | some q =>
          let s := s.append q
          (follow s.heap q).bind fun p =>
            whileQueue pq fuel (if p ≠ 0 then pq.push (pq.pop queue) p else pq.pop queue) s

def mergeKLists (pq : PriorityQueue Nat Q) (fuel : Nat) (h : Heap) (lists : List Nat) : Option (Heap × Nat) :=
  (whileQueue pq fuel (pushLists pq lists) (.start h)).map fun s => ((s.link 0).heap, (s.link 0).dummy)

/-- What is left of a list: its first node, which is queued, and the others. -/
abbrev Rest := Nat × List Nat

def nodes (c : Rest) : List Nat := c.1 :: c.2

def remaining (rest : Multiset Rest) : Multiset Nat := rest.bind fun c => (nodes c : Multiset Nat)

def behind (l : List Nat) : Multiset Rest :=
  match l with
  | [] => 0
  | a :: l => {(a, l)}

/-- The nodes that are done are in order, and none of them is above one that is left. -/
structure Merging (h : Heap) (s : Tail) (done : List Nat) (rest : Multiset Rest) : Prop where
  built : s.Built done
  chain : ∀ c ∈ rest, Chain (next s.heap) c.1 (nodes c)
  nodup : ((done : Multiset Nat) + remaining rest).Nodup
  sorted : Sorted h done
  tails : ∀ c ∈ rest, Sorted h (nodes c)
  le : ∀ a ∈ done, ∀ b ∈ remaining rest, (h a).val ≤ (h b).val
  val : ∀ p, (s.heap p).val = (h p).val

variable {pq : PriorityQueue Nat Q} {entries : Q → Multiset Nat} {h : Heap} {s : Tail} {queue : Q} {q fuel : Nat}
  {done l : List Nat} {rest : Multiset Rest} {c : Rest}

theorem remaining_cons : remaining (c ::ₘ rest) = (nodes c : Multiset Nat) + remaining rest := Multiset.cons_bind _ _ _

theorem remaining_behind : remaining (behind l) = (l : Multiset Nat) := by
  cases l with
  | nil => rfl
  | cons a l => exact Multiset.singleton_bind _ _

theorem mem_behind (h : c ∈ behind l) : nodes c = l := by
  cases l with
  | nil => exact absurd h (Multiset.notMem_zero c)
  | cons a l =>
      obtain rfl := Multiset.mem_singleton.mp h
      rfl

theorem mem_remaining_of_mem {a : Nat} (hc : c ∈ rest) (ha : a ∈ nodes c) : a ∈ remaining rest :=
  Multiset.mem_bind.mpr ⟨c, hc, Multiset.mem_coe.mpr ha⟩

theorem Merging.least (hm : Merging h s done rest) (hq : ∀ c ∈ rest, (h q).val ≤ (h c.1).val) {b : Nat}
    (hb : b ∈ remaining rest) : (h q).val ≤ (h b).val := by
  obtain ⟨c, hc, hb⟩ := Multiset.mem_bind.mp hb
  rcases List.mem_cons.mp (Multiset.mem_coe.mp hb) with rfl | hb
  · exact hq c hc
  · exact (hq c hc).trans (List.rel_of_pairwise_cons (hm.tails c hc) hb)

theorem Merging.apart (hm : Merging h s done rest) (hc : c ∈ rest) : ∀ a ∈ nodes c, a ∉ done := by
  intro a ha hdone
  have hdisjoint := (Multiset.nodup_add.mp hm.nodup).2.2
  exact Multiset.disjoint_left.mp hdisjoint (Multiset.mem_coe.mpr hdone) (mem_remaining_of_mem hc ha)

theorem Merging.chain_append (hm : Merging h s done rest) (hc : c ∈ rest) :
    Chain (next (s.append q).heap) c.1 (nodes c) := hm.built.link_chain (hm.chain c hc) (hm.apart hc) q

theorem remaining_behind_add : remaining (behind l + rest) = (l : Multiset Nat) + remaining rest := by
  rw [remaining, Multiset.add_bind, ← remaining, ← remaining, remaining_behind]

theorem append_add_remaining : ((done ++ [q] : List Nat) : Multiset Nat) + remaining (behind l + rest) =
    (done : Multiset Nat) + remaining ((q, l) ::ₘ rest) := by
  have hnodes : (nodes (q, l) : Multiset Nat) = {q} + (l : Multiset Nat) := (Multiset.singleton_add q l).symm
  rw [remaining_behind_add, remaining_cons, hnodes, ← Multiset.coe_add, Multiset.coe_singleton, add_assoc, add_assoc]

theorem Merging.step (hm : Merging h s done ((q, l) ::ₘ rest)) (hq : ∀ c ∈ (q, l) ::ₘ rest, (h q).val ≤ (h c.1).val) :
    q ≠ 0 ∧ Chain (next (s.append q).heap) (next (s.append q).heap q) l ∧
      Merging h (s.append q) (done ++ [q]) (behind l + rest) := by
  have hmem : (q, l) ∈ (q, l) ::ₘ rest := Multiset.mem_cons_self _ _
  have hhead : q ∈ nodes (q, l) := List.mem_cons_self
  obtain ⟨-, hne, hl⟩ := hm.chain_append (q := q) hmem
  refine ⟨hne, hl, ?_⟩
  have hleft : ∀ b ∈ remaining (behind l + rest), b ∈ remaining ((q, l) ::ₘ rest) := by
    intro b hb
    rw [remaining_behind_add] at hb
    rw [remaining_cons]
    rcases Multiset.mem_add.mp hb with hb | hb
    · exact Multiset.mem_add.mpr (.inl (List.mem_cons_of_mem q hb))
    · exact Multiset.mem_add.mpr (.inr hb)
  constructor
  case built => exact hm.built.append hne (hm.apart hmem q hhead)
  case chain =>
    intro c hc
    rcases Multiset.mem_add.mp hc with hc | hc
    · rw [← mem_behind hc] at hl
      exact hl.1 ▸ hl
    · exact hm.chain_append (Multiset.mem_cons_of_mem hc)
  case nodup =>
    rw [append_add_remaining]
    exact hm.nodup
  case sorted =>
    refine List.pairwise_append.mpr ⟨hm.sorted, List.pairwise_singleton _ _, fun a ha b hb => ?_⟩
    obtain rfl := List.mem_singleton.mp hb
    exact hm.le a ha b (mem_remaining_of_mem hmem hhead)
  case tails =>
    intro c hc
    rcases Multiset.mem_add.mp hc with hc | hc
    · rw [mem_behind hc]
      exact (hm.tails _ hmem).of_cons
    · exact hm.tails c (Multiset.mem_cons_of_mem hc)
  case le =>
    intro a ha b hb
    rcases List.mem_append.mp ha with ha | ha
    · exact hm.le a ha b (hleft b hb)
    · obtain rfl := List.mem_singleton.mp ha
      exact hm.least hq (hleft b hb)
  case val => exact fun p => (s.append_val q p).trans (hm.val p)

theorem heads_next {p : Nat} (hp : Chain (next h) p l) (queue : Multiset Nat) :
    (if p ≠ 0 then p ::ₘ queue else queue) = (behind l).map Prod.fst + queue := by
  cases l with
  | nil =>
      have hzero := chain_nil.mp hp
      rw [if_neg (not_not.mpr hzero)]
      exact (zero_add queue).symm
  | cons a l =>
      obtain ⟨rfl, hp, -⟩ := hp
      rw [if_pos hp]
      exact (Multiset.singleton_add p queue).symm

/-- There is a top as long as something is left, and it is the least of the first nodes. -/
theorem top_cases (hpq : pq.Lawful (cmp h) entries) (hheads : entries queue = rest.map Prod.fst) :
    rest = 0 ∧ pq.top queue = none ∨ ∃ q l others, rest = (q, l) ::ₘ others ∧ pq.top queue = some q ∧
      entries (pq.pop queue) = others.map Prod.fst ∧ ∀ c ∈ rest, (h q).val ≤ (h c.1).val := by
  cases htop : pq.top queue with
  | none =>
      refine .inl ⟨?_, rfl⟩
      by_contra hrest
      have hne : entries queue ≠ 0 := by
        rw [hheads]
        exact fun hzero => hrest (Multiset.map_eq_zero.mp hzero)
      obtain ⟨a, ha⟩ := hpq.exists_top queue hne
      exact Option.some_ne_none a (ha.symm.trans htop)
  | some q =>
      have hpop := hpq.entries_pop queue q htop
      have hq : q ∈ rest.map Prod.fst := by
        rw [← hheads, hpop]
        exact Multiset.mem_cons_self _ _
      obtain ⟨c, hc, rfl⟩ := Multiset.mem_map.mp hq
      obtain ⟨others, rfl⟩ := Multiset.exists_cons_of_mem hc
      refine .inr ⟨c.1, c.2, others, rfl, rfl, ?_, fun d hd => ?_⟩
      · rw [hpop, Multiset.map_cons] at hheads
        exact (Multiset.cons_inj_right _).mp hheads
      · have hmem : d.1 ∈ entries queue := hheads ▸ Multiset.mem_map_of_mem Prod.fst hd
        exact not_lt.mp (hpq.greatest queue c.1 htop d.1 hmem)

theorem whileQueue_returns (hpq : pq.Lawful (cmp h) entries) (n : Nat) (hn : (remaining rest).card = n)
    (hm : Merging h s done rest) (hheads : entries queue = rest.map Prod.fst) :
    ∃ t l, (∀ fuel, n < fuel → whileQueue pq fuel queue s = some t) ∧ Merging h t l 0 ∧
      (l : Multiset Nat) = (done : Multiset Nat) + remaining rest := by
  induction n generalizing s done rest queue with
  | zero =>
      rcases top_cases hpq hheads with ⟨rfl, htop⟩ | ⟨q, l, others, rfl, -⟩
      · refine ⟨s, done, Loops.returns_last fun fuel => ?_, hm, (add_zero _).symm⟩
        rw [whileQueue, htop]
      · simp [remaining_cons, nodes] at hn
  | succ n ih =>
      rcases top_cases hpq hheads with ⟨rfl, -⟩ | ⟨q, l, others, rfl, htop, hpop, hleast⟩
      · simp [remaining] at hn
      · obtain ⟨hne, hl, hnext⟩ := hm.step hleast
        have hcard : (remaining (behind l + others)).card = n := by
          simp only [remaining_cons, Multiset.card_add, Multiset.coe_card, nodes, List.length_cons] at hn
          rw [remaining_behind_add, Multiset.card_add, Multiset.coe_card]
          omega
        have hqueue : entries (if next (s.append q).heap q ≠ 0 then pq.push (pq.pop queue) (next (s.append q).heap q)
            else pq.pop queue) = (behind l + others).map Prod.fst := by
          rw [apply_ite entries, hpq.entries_push, heads_next hl, hpop, Multiset.map_add]
        obtain ⟨t, k, hloop, ht, hk⟩ := ih hcard hnext hqueue
        refine ⟨t, k, Loops.returns_succ (fun fuel => ?_) hloop, ht, hk.trans append_add_remaining⟩
        simp only [whileQueue, htop, follow_of_ne hne, Option.bind_some]

def heads (ls : List (List Nat)) : Multiset Rest := (ls.map behind).sum

theorem remaining_heads (ls : List (List Nat)) : remaining (heads ls) = (ls.flatten : Multiset Nat) := by
  induction ls with
  | nil => rfl
  | cons l ls ih =>
      rw [heads, List.map_cons, List.sum_cons, remaining_behind_add, ← heads, ih, List.flatten_cons, Multiset.coe_add]

theorem mem_heads {ls : List (List Nat)} (hc : c ∈ heads ls) : nodes c ∈ ls := by
  induction ls with
  | nil => exact absurd hc (Multiset.notMem_zero c)
  | cons l ls ih =>
      rw [heads, List.map_cons, List.sum_cons] at hc
      rcases Multiset.mem_add.mp hc with hc | hc
      · exact mem_behind hc ▸ List.mem_cons_self
      · exact List.mem_cons_of_mem l (ih hc)

theorem entries_pushLists (hpq : pq.Lawful (cmp h) entries) {lists : List Nat} {ls : List (List Nat)}
    (hlists : List.Forall₂ (Chain (next h)) lists ls) : entries (pushLists pq lists) = (heads ls).map Prod.fst := by
  suffices hloop : ∀ queue, entries (lists.foldl (fun queue list => if list ≠ 0 then pq.push queue list else queue)
      queue) = (heads ls).map Prod.fst + entries queue by
    rw [pushLists, hloop, hpq.entries_empty, add_zero]
  induction hlists with
  | nil => exact fun queue => (zero_add _).symm
  | cons hp _ ih =>
      intro queue
      rw [List.foldl_cons, ih, apply_ite entries, hpq.entries_push, heads_next hp, heads, heads, List.map_cons,
        List.sum_cons, Multiset.map_add, add_left_comm, add_assoc]

theorem exists_start {lists : List Nat} {ls : List (List Nat)} (hlists : List.Forall₂ (Chain (next h)) lists ls)
    (hl : l ∈ ls) : ∃ p, Chain (next h) p l := by
  induction hlists with
  | nil => exact absurd hl List.not_mem_nil
  | cons hp _ ih =>
      rcases List.mem_cons.mp hl with rfl | hl
      · exact ⟨_, hp⟩
      · exact ih hl

theorem merging_start {lists : List Nat} {ls : List (List Nat)} (hlists : List.Forall₂ (Chain (next h)) lists ls)
    (hd : ls.Pairwise List.Disjoint) (hs : ∀ l ∈ ls, Sorted h l) : Merging h (.start h) [] (heads ls) := by
  constructor
  case built => exact Tail.built_start h
  case chain =>
    intro c hc
    obtain ⟨p, hp⟩ := exists_start hlists (mem_heads hc)
    exact hp.1 ▸ hp
  case nodup =>
    rw [remaining_heads, Multiset.coe_nil, zero_add, Multiset.coe_nodup, List.nodup_flatten]
    refine ⟨fun l hl => ?_, hd⟩
    obtain ⟨p, hp⟩ := exists_start hlists hl
    exact hp.nodup
  case sorted => exact List.Pairwise.nil
  case tails => exact fun c hc => hs (nodes c) (mem_heads hc)
  case le => exact fun a ha => absurd ha List.not_mem_nil
  case val => exact fun _ => rfl

/-- For every vector of lists of which no two have a node in common, and any queue. -/
theorem mergeKLists_merged (hpq : pq.Lawful (cmp h) entries) {lists : List Nat} {ls : List (List Nat)}
    (hlists : List.Forall₂ (Chain (next h)) lists ls) (hd : ls.Pairwise List.Disjoint) (hs : ∀ l ∈ ls, Sorted h l) :
    ∃ N h' r l, (∀ fuel, N ≤ fuel → mergeKLists pq fuel h lists = some (h', r)) ∧ Merged h h' r l ls.flatten := by
  obtain ⟨t, l, hloop, ht, hl⟩ := whileQueue_returns hpq _ rfl (merging_start hlists hd hs) (entries_pushLists hpq hlists)
  refine ⟨(remaining (heads ls)).card + 1, (t.link 0).heap, (t.link 0).dummy, l, fun fuel hfuel => ?_, ?_⟩
  · rw [mergeKLists, hloop fuel hfuel, Option.map_some]
  · have hval : ∀ p, ((t.link 0).heap p).val = (h p).val := fun p => (t.link_val 0 p).trans (ht.val p)
    rw [remaining_heads, Multiset.coe_nil, zero_add] at hl
    constructor
    case chain => simpa using (ht.built.path 0).chain (k := []) rfl
    case sorted => simpa only [Sorted, hval] using ht.sorted
    case perm => exact Multiset.coe_eq_coe.mp hl
    case val => exact hval

theorem mergeKLists_merged_three :
    ∃ N h' r l, (∀ fuel, N ≤ fuel → mergeKLists (.ordered fun p : Nat => (p : Int)) fuel
      (fun p => ⟨p, if p = 1 then 3 else 0⟩) [1, 0, 2] = some (h', r)) ∧
      Merged (fun p => ⟨p, if p = 1 then 3 else 0⟩) h' r l [[1, 3], [], [2]].flatten := by
  let h : Heap := fun p => ⟨p, if p = 1 then 3 else 0⟩
  have h1 : Chain (next h) 1 [1, 3] := ⟨rfl, by decide, rfl, by decide, rfl⟩
  have h0 : Chain (next h) 0 [] := rfl
  have h2 : Chain (next h) 2 [2] := ⟨rfl, by decide, rfl⟩
  have hd : [[1, 3], [], [2]].Pairwise List.Disjoint := by simp [List.Disjoint]
  have hs : ∀ l ∈ [[1, 3], [], [2]], Sorted h l := by simp [Sorted, h]
  exact mergeKLists_merged (PriorityQueue.ordered_lawful fun p : Nat => (p : Int)) (.cons h1 (.cons h0 (.cons h2 .nil)))
    hd hs

end LearnNote.Algorithm.MergeLists
