import LearnNote.Memory.PageCache

namespace LearnNote.Memory

open SizeClass

/-- The members of CentralCache: for each index the head of its free list and
its spin lock. -/
structure CentralCache where
  centralFreeList : Nat → Nat
  locks : Nat → Bool

namespace CentralCache

def initial : CentralCache := ⟨fun _ => 0, fun _ => false⟩

def spanPages : Nat := 8

def numPages (size : Nat) : Nat :=
  if size ≤ spanPages * pageSize then spanPages else (size + pageSize - 1) / pageSize

def fetchFromPageCache (env : Env) (size : Nat) (os : Os) (page : PageCache) :
    Option (Ret × Os × PageCache) :=
  page.allocateSpan env (numPages size) os

def acquire (index : Nat) (c : CentralCache) : Option CentralCache :=
  if c.locks index then none else some { c with locks := Function.update c.locks index true }

def release (index : Nat) (c : CentralCache) : CentralCache :=
  { c with locks := Function.update c.locks index false }

def popBlock (index : Nat) (m : Words) (c : CentralCache) : Nat × Words × CentralCache :=
  let res := c.centralFreeList index
  let next := m res
  (res, Function.update m res 0, { c with centralFreeList := Function.update c.centralFreeList index next })

def link (start size : Nat) : Nat → Words → Words
  | 0, m => m
  | n + 1, m => Function.update (link start size n m) (start + n * size) (start + (n + 1) * size)

def carve (start size blockNum : Nat) (m : Words) : Words :=
  Function.update (link start size (blockNum - 1) m) (start + (blockNum - 1) * size) 0

def blockNum (index : Nat) : Nat := spanPages * pageSize / blockSize index

/-- A new span is carved into blocks and all but the first become the free
list. A span of one block is left as the system gave it. -/
def publish (index start : Nat) (m : Words) (c : CentralCache) : Words × CentralCache :=
  if blockNum index > 1 then
    let m := carve start (blockSize index) (blockNum index) m
    let next := m start
    (Function.update m start 0, { c with centralFreeList := Function.update c.centralFreeList index next })
  else (m, c)

/-- fetchRange up to the call of the page cache. With the lock taken it ends with
a block of the free list; when that is empty it goes on with the lock held. -/
def beginFetch (index : Nat) (os : Os) (c : CentralCache) : Option (Option Nat × Os × CentralCache) :=
  if index ≥ freeListSize then some (some 0, os, c)
  else
    match acquire index c with
    | none => none
    | some c =>
        if c.centralFreeList index ≠ 0 then
          let (res, m, c) := popBlock index os.memory c
          some (some res, { os with memory := m }, release index c)
        else some (none, os, c)

/-- fetchRange from the answer of the page cache on. On every path the lock is
released. -/
def endFetch (index : Nat) (r : Ret) (os : Os) (c : CentralCache) : Ret × Os × CentralCache :=
  match r with
  | .badAlloc => (.badAlloc, os, release index c)
  | .ptr p =>
      if p = 0 then (.ptr 0, os, release index c)
      else
        let (m, c) := publish index p os.memory c
        (.ptr p, { os with memory := m }, release index c)

/-- The call as a whole, without interference. It is none while another thread
holds the lock. -/
def fetchRange (env : Env) (index : Nat) (os : Os) (page : PageCache) (c : CentralCache) :
    Option (Ret × Os × PageCache × CentralCache) :=
  match beginFetch index os c with
  | none => none
  | some (some p, os, c) => some (.ptr p, os, page, c)
  | some (none, os, c) =>
      match fetchFromPageCache env (blockSize index) os page with
      | none => none
      | some (r, os, page) =>
          let (r, os, c) := endFetch index r os c
          some (r, os, page, c)

def lastOf (m : Words) : Nat → Nat → Nat
  | 0, p => p
  | n + 1, p => if m p = 0 then p else lastOf m n (m p)

/-- The loop of returnRange counts the blocks against size, and the first block
is counted before it starts. -/
def splice (start size index : Nat) (m : Words) (c : CentralCache) : Words × CentralCache :=
  let last := lastOf m (size - 1) start
  let cur := c.centralFreeList index
  (Function.update m last cur, { c with centralFreeList := Function.update c.centralFreeList index start })

def returnRange (start size index : Nat) (os : Os) (c : CentralCache) : Option (Os × CentralCache) :=
  if start = 0 ∨ index ≥ freeListSize then some (os, c)
  else
    match acquire index c with
    | none => none
    | some c =>
        let (m, c) := splice start size index os.memory c
        some ({ os with memory := m }, release index c)

end CentralCache

end LearnNote.Memory
