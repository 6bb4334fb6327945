import LearnNote.Memory.CentralCache

namespace LearnNote.Memory

open SizeClass

/-- The members of ThreadCache: for each index the head of its free list and the
number of blocks the list is taken to hold. -/
structure ThreadCache where
  freeList : Nat → Nat
  freeListSize : Nat → Nat

namespace ThreadCache

def initial : ThreadCache := ⟨fun _ => 0, fun _ => 0⟩

def setList (index head : Nat) (t : ThreadCache) : ThreadCache :=
  { t with freeList := Function.update t.freeList index head }

def setSize (index n : Nat) (t : ThreadCache) : ThreadCache :=
  { t with freeListSize := Function.update t.freeListSize index n }

@[simp] theorem setList_freeList (index head : Nat) (t : ThreadCache) :
    (t.setList index head).freeList = Function.update t.freeList index head := rfl

@[simp] theorem setSize_freeList (index n : Nat) (t : ThreadCache) : (t.setSize index n).freeList = t.freeList := rfl

def decrement (index : Nat) (t : ThreadCache) : ThreadCache :=
  t.setSize index (sizeT (t.freeListSize index + (2 ^ 64 - 1)))

@[simp] theorem decrement_freeList (index : Nat) (t : ThreadCache) : (t.decrement index).freeList = t.freeList := rfl

/-- The index a request is served from; a request of no bytes is one of the
alignment. -/
def requestIndex (size : Nat) : Nat := getIndex (if size = 0 then alignment else size)

def popLocal (index : Nat) (m : Words) (t : ThreadCache) : Option (Nat × ThreadCache) :=
  if t.freeList index ≠ 0 then some (t.freeList index, t.setList index (m (t.freeList index))) else none

def countChain (m : Words) : Nat → Nat → Option Nat
  | 0, _ => none
  | fuel + 1, cur => if cur = 0 then some 0 else (countChain m fuel (m cur)).map (· + 1)

/-- What fetchFromCentralCache does with the blocks it got: all but the first go
to the free list, and all are counted. -/
def adopt (fuel index start : Nat) (m : Words) (t : ThreadCache) : Option ThreadCache :=
  (countChain m fuel start).map (fun batchNum =>
    (t.setList index (m start)).setSize index (sizeT (t.freeListSize index + batchNum)))

/-- The result of fetchRange is passed on, after its blocks are adopted. -/
def receive (fuel index : Nat) (r : Ret) (os : Os) (page : PageCache) (c : CentralCache) (t : ThreadCache) :
    Option (Ret × Os × PageCache × CentralCache × ThreadCache) :=
  match r with
  | .badAlloc => some (.badAlloc, os, page, c, t)
  | .ptr start =>
      if start = 0 then some (.ptr 0, os, page, c, t)
      else (t.adopt fuel index start os.memory).map (fun t => (.ptr start, os, page, c, t))

def fetchFromCentralCache (env : Env) (fuel index : Nat) (os : Os) (page : PageCache) (c : CentralCache)
    (t : ThreadCache) : Option (Ret × Os × PageCache × CentralCache × ThreadCache) :=
  match c.fetchRange env index os page with
  | none => none
  | some (r, os, page, c) => t.receive fuel index r os page c

def allocate (env : Env) (fuel size : Nat) (os : Os) (page : PageCache) (c : CentralCache)
    (t : ThreadCache) : Option (Ret × Os × PageCache × CentralCache × ThreadCache) :=
  let index := requestIndex size
  let t := t.decrement index
  match t.popLocal index os.memory with
  | some (p, t) => some (.ptr p, os, page, c, t)
  | none => t.fetchFromCentralCache env fuel index os page c

/-- The block reached by following the links a number of times; null when the
chain is shorter. -/
def splitNode (m : Words) : Nat → Nat → Nat
  | 0, p => p
  | n + 1, p => if m p = 0 then 0 else splitNode m n (m p)

def keepNum (batchNum : Nat) : Nat := max (batchNum / 4) 1

/-- The cut of returnToCentralCache. With it comes what is left to do: the first
block to hand back, the limit on their number, and the index. -/
def returnToCentralCache (start size : Nat) (m : Words) (t : ThreadCache) :
    Words × ThreadCache × Option (Nat × Nat × Nat) :=
  let index := getIndex size
  let alignedSize := ceil size
  let batchNum := t.freeListSize index
  if batchNum ≤ 1 then (m, t, none)
  else
    let keepNum := keepNum batchNum
    let returnNum := batchNum - keepNum
    let node := splitNode m keepNum start
    if node = 0 then (m, t, none)
    else
      let nextNode := m node
      let m := Function.update m node 0
      let t := t.setSize index keepNum
      if returnNum > 0 ∧ nextNode ≠ 0 then (m, t, some (nextNode, sizeT (returnNum * alignedSize), index))
      else (m, t, none)

def threshold : Nat := 64

/-- A block of up to maxBytes is put at the head of its list; a list that is
counted beyond the threshold is cut. -/
def deallocate (p size : Nat) (m : Words) (t : ThreadCache) : Words × ThreadCache × Option (Nat × Nat × Nat) :=
  let index := getIndex size
  let m := Function.update m p (t.freeList index)
  let t := (t.setList index p).setSize index (sizeT (t.freeListSize index + 1))
  if t.freeListSize index > threshold then t.returnToCentralCache (t.freeList index) size m
  else (m, t, none)

end ThreadCache

end LearnNote.Memory
