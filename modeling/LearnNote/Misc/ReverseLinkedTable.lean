import LearnNote.Algorithm.LinkedList

namespace LearnNote.Misc.ReverseLinkedTable

open Lib.Linked Algorithm.LinkedList

/-- The loop of reverse, which turns the link of one node at a time. No result, here and below,
is out of fuel or a null pointer followed. -/
def whileNode : Nat → Heap → Nat → Nat → Option (Heap × Nat)
  | 0, _, _, _ => none
  | fuel + 1, h, res, p =>
      if p ≠ 0 then (follow h p).bind fun rest => whileNode fuel (setNext h p res) p rest else some (h, res)

def reverse (fuel : Nat) (h : Heap) (head : Nat) : Option (Heap × Nat) :=
  if head = 0 then some (h, head) else whileNode fuel h 0 head

/-- The nodes of a list in their new order, where the last one led to null or back to the
node z: then the nodes before z keep their place, and the cycle is turned round. -/
def turned (l : List Nat) (z : Nat) : List Nat :=
  if z = 0 then l.reverse else l.takeWhile (· ≠ z) ++ z :: (l.dropWhile (· ≠ z)).tail.reverse

/-- Only the links of these nodes have changed. -/
structure Relinked (l : List Nat) (h h' : Heap) : Prop where
  val : ∀ q, (h' q).val = (h q).val
  others : ∀ q, q ∉ l → h' q = h q

variable {h h' : Heap} {p q z w res head : Nat} {l m u v rest done : List Nat}

theorem Relinked.refl (l : List Nat) (h : Heap) : Relinked l h h := ⟨fun _ => rfl, fun _ _ => rfl⟩

theorem Relinked.trans {h'' : Heap} (hr : Relinked l h h') (hr' : Relinked l h' h'') : Relinked l h h'' :=
  ⟨fun q => (hr'.val q).trans (hr.val q), fun q hq => (hr'.others q hq).trans (hr.others q hq)⟩

theorem Relinked.mono (hr : Relinked l h h') (hlm : ∀ q ∈ l, q ∈ m) : Relinked m h h' :=
  ⟨hr.val, fun q hq => hr.others q fun hl => hq (hlm q hl)⟩

theorem relinked_setNext (h : Heap) (hp : p ∈ l) (v : Nat) : Relinked l h (setNext h p v) := by
  refine ⟨fun q => setNext_val h p v q, fun q hq => ?_⟩
  apply Function.update_of_ne
  rintro rfl
  exact hq hp

theorem path_setNext (hl : Path (next h) p l z) (hq : q ∉ l) (v : Nat) : Path (next (setNext h q v)) p l z := by
  apply hl.congr
  intro c hc
  rw [next_setNext, Function.update_of_ne]
  rintro rfl
  exact hq hc

theorem path_cons_setNext (hl : Path (next h) res l z) (hq : q ≠ 0) (hm : q ∉ l) :
    Path (next (setNext h q res)) q (q :: l) z := by
  refine ⟨rfl, hq, ?_⟩
  rw [next_setNext, Function.update_self, ← next_setNext]
  exact path_setNext hl hm res

theorem whileNode_path (hrest : Path (next h) p rest z) (hdone : Path (next h) res done w)
    (hn : (rest ++ done).Nodup) :
    ∃ h' res', (∀ fuel, whileNode (fuel + rest.length) h res p = whileNode fuel h' res' z) ∧
      Path (next h') res' (rest.reverse ++ done) w ∧ Relinked rest h h' := by
  induction rest generalizing h p res done with
  | nil =>
      obtain rfl := hrest
      exact ⟨h, res, fun _ => rfl, hdone, .refl _ _⟩
  | cons a rest ih =>
      obtain ⟨rfl, hp, ht⟩ := hrest
      have hnot := (List.nodup_cons.mp hn).1
      have hnrest : p ∉ rest := fun hm => hnot (List.mem_append_left _ hm)
      have hndone : p ∉ done := fun hm => hnot (List.mem_append_right _ hm)
      have hmid : (rest ++ p :: done).Nodup := List.nodup_middle.mpr hn
      obtain ⟨h', res', hrun, hpath, hrel⟩ :=
        ih (path_setNext ht hnrest res) (path_cons_setNext hdone hp hndone) hmid
      refine ⟨h', res', fun fuel => ?_, ?_, ?_⟩
      · rw [List.length_cons, ← Nat.add_assoc, whileNode, if_pos hp, follow_of_ne hp]
        exact hrun fuel
      · rw [List.reverse_cons, List.append_assoc]
        exact hpath
      · exact (relinked_setNext h List.mem_cons_self res).trans (hrel.mono fun q hq => List.mem_cons_of_mem _ hq)

theorem whileNode_null (fuel : Nat) (h : Heap) (res : Nat) : whileNode (fuel + 1) h res 0 = some (h, res) := rfl

/-- A list that ends in null is turned round. -/
theorem reverse_acyclic (hl : Path (next h) head l 0) (hn : l.Nodup) :
    ∃ h' r, (∀ fuel, l.length < fuel → reverse fuel h head = some (h', r)) ∧ Path (next h') r l.reverse 0 ∧
      Relinked l h h' := by
  by_cases hhead : head = 0
  · subst hhead
    cases l with
    | nil => exact ⟨h, 0, fun _ _ => rfl, rfl, .refl _ _⟩
    | cons a l => exact absurd hl.1.symm hl.2.1
  · have hnone : Path (next h) 0 [] 0 := rfl
    obtain ⟨h', r, hrun, hpath, hrel⟩ := whileNode_path hl hnone (by rwa [List.append_nil])
    refine ⟨h', r, fun fuel hfuel => ?_, by rwa [List.append_nil] at hpath, hrel⟩
    have hsplit : fuel = fuel - l.length - 1 + 1 + l.length := by omega
    rw [reverse, if_neg hhead, hsplit, hrun, whileNode_null]

/-- A list that leads back to one of its nodes is gone through up to that node, whose link
then leads to the nodes before it, and these are gone through again. -/
theorem reverse_cyclic (hl : Path (next h) head (u ++ z :: v) z) (hn : (u ++ z :: v).Nodup) :
    ∃ h', (∀ fuel, 2 * (u ++ z :: v).length + 1 < fuel → reverse fuel h head = some (h', head)) ∧
      Path (next h') head (u ++ z :: v.reverse) z ∧ Relinked (u ++ z :: v) h h' := by
  obtain ⟨hu, hcycle⟩ := path_append.mp hl
  have hz : z ≠ 0 := hcycle.2.1
  have hhead : head ≠ 0 := by
    cases u with
    | nil =>
        have heq : head = z := hu
        rwa [heq]
    | cons a u =>
        rw [hu.1]
        exact hu.2.1
  have hnuv : z ∉ u ∧ z ∉ v := by
    have hnz := (List.nodup_cons.mp (List.nodup_middle.mp hn)).1
    exact ⟨fun hm => hnz (List.mem_append_left v hm), fun hm => hnz (List.mem_append_right u hm)⟩
  have hnone : Path (next h) 0 [] 0 := rfl
  obtain ⟨h1, res, hrun, hpath, hrel⟩ := whileNode_path hl hnone (by rwa [List.append_nil])
  have hrev : (u ++ z :: v).reverse ++ [] = v.reverse ++ z :: u.reverse := by simp
  rw [hrev] at hpath
  obtain ⟨hv, -, -, hback⟩ := path_append.mp hpath
  have hn' : (u.reverse ++ z :: v.reverse).Nodup := by
    have hperm : (u.reverse ++ z :: v.reverse).Perm (u ++ z :: v) :=
      (List.reverse_perm u).append ((List.reverse_perm v).cons z)
    exact hperm.nodup_iff.mpr hn
  obtain ⟨h2, r, hrun', hpath', hrel'⟩ := whileNode_path
    (path_setNext hback (fun hm => hnuv.1 (List.mem_reverse.mp hm)) res)
    (path_cons_setNext hv hz fun hm => hnuv.2 (List.mem_reverse.mp hm)) hn'
  rw [List.reverse_reverse] at hpath'
  obtain rfl : r = head := (path_append.mp hpath').1.start_unique hu
  refine ⟨h2, fun fuel hfuel => ?_, hpath', ?_⟩
  · have hlen : (u ++ z :: v).length = u.length + (v.length + 1) := by rw [List.length_append, List.length_cons]
    have hsplit : fuel = fuel - (u ++ z :: v).length - 1 - u.length - 1 + 1 + u.reverse.length + 1 +
        (u ++ z :: v).length := by
      rw [List.length_reverse]
      omega
    rw [reverse, if_neg hhead, hsplit, hrun, whileNode, if_pos hz, follow_of_ne hz, Option.bind_some, hrun',
      whileNode_null]
  · have hmem : z ∈ u ++ z :: v := List.mem_append_right _ List.mem_cons_self
    have hsub : ∀ q ∈ u.reverse, q ∈ u ++ z :: v := fun q hq => List.mem_append_left _ (List.mem_reverse.mp hq)
    exact (hrel.trans (relinked_setNext h1 hmem res)).trans (hrel'.mono hsub)

theorem turned_append (hz : z ≠ 0) (hu : z ∉ u) : turned (u ++ z :: v) z = u ++ z :: v.reverse := by
  have hall : ∀ q ∈ u, decide (q ≠ z) = true := by
    intro q hq
    rw [decide_eq_true_iff]
    rintro rfl
    exact hu hq
  have htake : (z :: v).takeWhile (· ≠ z) = [] := List.takeWhile_cons_of_neg (by simp)
  have hdrop : (z :: v).dropWhile (· ≠ z) = z :: v := List.dropWhile_cons_of_neg (by simp)
  rw [turned, if_neg hz, List.takeWhile_append_of_pos hall, List.dropWhile_append_of_pos hall, htake, hdrop,
    List.append_nil, List.tail_cons]

theorem turned_turned (hn : l.Nodup) (hz : z = 0 ∨ z ∈ l) :
    (turned l z).Perm l ∧ turned (turned l z) z = l := by
  by_cases hnull : z = 0
  · rw [turned, if_pos hnull, turned, if_pos hnull]
    exact ⟨List.reverse_perm l, List.reverse_reverse l⟩
  · obtain ⟨u, v, rfl⟩ := List.append_of_mem (hz.resolve_left hnull)
    have hu : z ∉ u := fun hm =>
      (List.nodup_cons.mp (List.nodup_middle.mp hn)).1 (List.mem_append_left v hm)
    rw [turned_append hnull hu, turned_append hnull hu, List.reverse_reverse]
    exact ⟨((List.reverse_perm v).cons z).append_left u, rfl⟩

theorem reverse_once (hl : Path (next h) head l z) (hn : l.Nodup) (hz : z = 0 ∨ z ∈ l) :
    ∃ h' r, (∀ fuel, 2 * l.length + 1 < fuel → reverse fuel h head = some (h', r)) ∧
      Path (next h') r (turned l z) z ∧ (z ≠ 0 → r = head) ∧ Relinked l h h' := by
  by_cases hnull : z = 0
  · subst hnull
    obtain ⟨h', r, hrun, hpath, hrel⟩ := reverse_acyclic hl hn
    refine ⟨h', r, fun fuel hfuel => hrun fuel (by omega), ?_, fun hne => absurd rfl hne, hrel⟩
    rwa [turned, if_pos rfl]
  · obtain ⟨u, v, rfl⟩ := List.append_of_mem (hz.resolve_left hnull)
    obtain ⟨h', hrun, hpath, hrel⟩ := reverse_cyclic hl hn
    have hu : z ∉ u := fun hm =>
      (List.nodup_cons.mp (List.nodup_middle.mp hn)).1 (List.mem_append_left v hm)
    rw [turned_append hnull hu]
    exact ⟨h', head, hrun, hpath, fun _ => rfl, hrel⟩

/-- Whether its last node leads to null or back to one of its nodes, reverse returns on a
list: the first is turned round, and of the second only the cycle is and the head is
returned. A second call restores every link. -/
theorem reverse_turns (h : Heap) (head z : Nat) (l : List Nat) (hl : Path (next h) head l z) (hn : l.Nodup)
    (hz : z = 0 ∨ z ∈ l) :
    ∃ h' r, (∀ fuel, 2 * l.length + 1 < fuel →
        reverse fuel h head = some (h', r) ∧ reverse fuel h' r = some (h, head)) ∧
      Path (next h') r (turned l z) z ∧ (z ≠ 0 → r = head) ∧ Relinked l h h' := by
  obtain ⟨h', r, hrun, hpath, hr, hrel⟩ := reverse_once hl hn hz
  obtain ⟨hperm, htwice⟩ := turned_turned hn hz
  have hz' : z = 0 ∨ z ∈ turned l z := hz.imp_right hperm.mem_iff.mpr
  obtain ⟨h2, head2, hrun', hpath', -, hrel'⟩ := reverse_once hpath (hperm.nodup_iff.mpr hn) hz'
  rw [htwice] at hpath'
  obtain rfl : head2 = head := hpath'.start_unique hl
  have hsame : h2 = h := by
    funext q
    by_cases hq : q ∈ l
    · have hval := (hrel'.val q).trans (hrel.val q)
      have hnext : (h2 q).next = (h q).next := hpath'.next_unique hl hq
      cases hleft : h2 q
      cases hright : h q
      simp only [hleft, hright] at hval hnext
      rw [hval, hnext]
    · exact (hrel'.others q fun hm => hq (hperm.mem_iff.mp hm)).trans (hrel.others q hq)
  subst hsame
  refine ⟨h', r, fun fuel hfuel => ⟨hrun fuel hfuel, hrun' fuel ?_⟩, hpath, hr, hrel⟩
  rwa [hperm.length_eq]

def rho : Heap
  | 1 => ⟨10, 2⟩
  | 2 => ⟨20, 3⟩
  | 3 => ⟨30, 4⟩
  | 4 => ⟨40, 2⟩
  | _ => ⟨0, 0⟩

theorem reverse_turns_rho :
    ∃ h' r, (∀ fuel, 9 < fuel → reverse fuel rho 1 = some (h', r) ∧ reverse fuel h' r = some (rho, 1)) ∧
      Path (next h') r [1, 2, 4, 3] 2 := by
  obtain ⟨h', r, hrun, hpath, -⟩ := reverse_turns rho 1 2 [1, 2, 3, 4]
    ⟨rfl, by decide, rfl, by decide, rfl, by decide, rfl, by decide, rfl⟩ (by decide) (.inr (by decide))
  exact ⟨h', r, hrun, hpath⟩

end LearnNote.Misc.ReverseLinkedTable
