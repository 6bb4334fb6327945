import Mathlib.Algebra.GroupWithZero.Nat
import LearnNote.Lib.Linked

namespace LearnNote.Algorithm.LinkedList

open Lib.Linked

/-- A pointer is a number, and 0 is null. -/
structure ListNode where
  val : Int
  next : Nat

abbrev Heap := Nat → ListNode

def next (h : Heap) (p : Nat) : Nat := (h p).next

/-- No result, here and below, is a null pointer followed. -/
def follow (h : Heap) (p : Nat) : Option Nat := if p = 0 then none else some (next h p)

def setNext (h : Heap) (p v : Nat) : Heap := Function.update h p { h p with next := v }

/-- The heap, and the local node that a list is built behind: its next, and where the last node of the
list is. That is none as long as it is the local node. -/
structure Tail where
  heap : Heap
  dummy : Nat
  rear : Option Nat

def Tail.start (h : Heap) : Tail := ⟨h, 0, none⟩

def Tail.link (s : Tail) (v : Nat) : Tail :=
  match s.rear with
  | none => { s with dummy := v }
  | some p => { s with heap := setNext s.heap p v }

def Tail.append (s : Tail) (v : Nat) : Tail := { s.link v with rear := some v }

def Sorted (h : Heap) (l : List Nat) : Prop := l.Pairwise fun p q => (h p).val ≤ (h q).val

/-- The list at r is of these nodes, in the order of their values, which are as they were. -/
structure Merged (h h' : Heap) (r : Nat) (l nodes : List Nat) : Prop where
  chain : Chain (next h') r l
  sorted : Sorted h' l
  perm : l.Perm nodes
  val : ∀ p, (h' p).val = (h p).val

variable {h : Heap} {s : Tail} {l m : List Nat} {p q v : Nat}

theorem follow_of_ne (hp : p ≠ 0) : follow h p = some (next h p) := if_neg hp

theorem next_setNext (h : Heap) (p v : Nat) : next (setNext h p v) = Function.update (next h) p v := by
  funext q
  by_cases hq : q = p
  · subst hq
    simp [next, setNext]
  · simp [next, setNext, hq]

@[simp]
theorem setNext_val (h : Heap) (p v q : Nat) : (setNext h p v q).val = (h q).val := by
  by_cases hq : q = p
  · subst hq
    simp [setNext]
  · simp [setNext, hq]

@[simp]
theorem Tail.link_val (s : Tail) (v q : Nat) : ((s.link v).heap q).val = (s.heap q).val := by
  cases hr : s.rear with
  | none => simp [link, hr]
  | some p => simp [link, hr]

@[simp]
theorem Tail.append_val (s : Tail) (v q : Nat) : ((s.append v).heap q).val = (s.heap q).val := s.link_val v q

/-- Whatever is linked to the last node, the list goes through these nodes and on to it. -/
structure Tail.Built (s : Tail) (l : List Nat) : Prop where
  rear : s.rear = l.getLast?
  path : ∀ v, Path (next (s.link v).heap) (s.link v).dummy l v

theorem Tail.built_start (h : Heap) : (start h).Built [] := ⟨rfl, fun _ => rfl⟩

theorem Tail.Built.append (hs : s.Built l) (hq : q ≠ 0) (hm : q ∉ l) : (s.append q).Built (l ++ [q]) := by
  refine ⟨by simp [Tail.append], fun v => ?_⟩
  have hpath := (hs.path q).concat hq hm v
  rwa [← next_setNext] at hpath

theorem Tail.Built.link_chain (hs : s.Built l) (hp : Chain (next s.heap) p m) (hm : ∀ c ∈ m, c ∉ l) (v : Nat) :
    Chain (next (s.link v).heap) p m := by
  have hrear := hs.rear
  cases hr : s.rear with
  | none => simpa [link, hr] using hp
  | some c =>
      rw [hr] at hrear
      have hc : c ∈ l := List.mem_of_getLast? hrear.symm
      simp only [link, hr, next_setNext]
      exact hp.update fun hcm => hm c hcm hc

end LearnNote.Algorithm.LinkedList
