import LearnNote.Lib.Transition
import LearnNote.Memory.ThreadCache

namespace LearnNote.Memory

open Lib Linked Extents SizeClass

/-- Where a thread stands in an unfinished operation. -/
inductive Pc
  | idle
  | fetchRange (size index : Nat)
  | fetchSpan (size index : Nat)
  | fetchDone (size index : Nat) (r : Ret)
  | fetched (size index start : Nat)
  | returnRange (start limit index : Nat)
deriving DecidableEq

/-- The process: its memory, the three layers of the pool, and for each thread
its cache and where it stands. held are the blocks that callers own, with the
size they asked for, carved the blocks cut from spans, with their index, and
spans the byte ranges the page cache has handed out. -/
structure LeveledMemoryPool where
  os : Os
  page : PageCache
  central : CentralCache
  thread : Nat → ThreadCache
  pc : Nat → Pc
  held : List (Nat × Nat)
  carved : List (Nat × Nat)
  spans : List (Nat × Nat)

namespace LeveledMemoryPool

def initial (m : Words) : LeveledMemoryPool :=
  ⟨⟨m, []⟩, .initial, .initial, fun _ => .initial, fun _ => .idle, [], [], []⟩

inductive Act
  | allocate (t size : Nat)
  | deallocate (t p size : Nat)
  | continue (t : Nat) (env : Env) (fuel : Nat)
  | write (p size a v : Nat)

def setPc (t : Nat) (pc : Pc) (s : LeveledMemoryPool) : LeveledMemoryPool :=
  { s with pc := Function.update s.pc t pc }

def setThread (t : Nat) (tc : ThreadCache) (s : LeveledMemoryPool) : LeveledMemoryPool :=
  { s with thread := Function.update s.thread t tc }

def setMemory (m : Words) (s : LeveledMemoryPool) : LeveledMemoryPool :=
  { s with os := { s.os with memory := m } }

/-- The thread's own part of allocate, up to the call of fetchRange. -/
def beginAllocate (t size : Nat) (s : LeveledMemoryPool) : LeveledMemoryPool :=
  let index := ThreadCache.requestIndex size
  let tc := (s.thread t).decrement index
  match tc.popLocal index s.os.memory with
  | some (p, tc) => { s.setThread t tc with held := (p, size) :: s.held }
  | none => (s.setThread t tc).setPc t (.fetchRange size index)

def beginDeallocate (t p size : Nat) (s : LeveledMemoryPool) : LeveledMemoryPool :=
  let (m, tc, rest) := (s.thread t).deallocate p size s.os.memory
  let s := { (s.setThread t tc).setMemory m with held := s.held.erase (p, size) }
  match rest with
  | none => s
  | some (start, limit, index) => s.setPc t (.returnRange start limit index)

def spanBytes (index : Nat) : Nat := CentralCache.numPages (blockSize index) * pageSize

def blocks (index start : Nat) : List Nat :=
  (List.range (max (CentralCache.blockNum index) 1)).map (fun j => start + j * blockSize index)

/-- A thread in an unfinished operation takes the next locked section, or what it
does on its own after the last one. -/
def advance (t : Nat) (env : Env) (fuel : Nat) (s : LeveledMemoryPool) : Option LeveledMemoryPool :=
  match s.pc t with
  | .idle => none
  | .fetchRange size index =>
      match s.central.beginFetch index s.os with
      | none => none
      | some (none, os, c) => some ({ s with os := os, central := c }.setPc t (.fetchSpan size index))
      | some (some p, os, c) =>
          if p = 0 then some ({ s with os := os, central := c }.setPc t .idle)
          else some ({ s with os := os, central := c }.setPc t (.fetched size index p))
  | .fetchSpan size index =>
      match CentralCache.fetchFromPageCache env (blockSize index) s.os s.page with
      | none => none
      | some (r, os, page) =>
          let spans := match r with
            | .ptr p => if p = 0 then s.spans else (p, spanBytes index) :: s.spans
            | .badAlloc => s.spans
          some ({ s with os := os, page := page, spans := spans }.setPc t (.fetchDone size index r))
  | .fetchDone size index r =>
      let (r, os, c) := s.central.endFetch index r s.os
      match r with
      | .badAlloc => some ({ s with os := os, central := c }.setPc t .idle)
      | .ptr p =>
          if p = 0 then some ({ s with os := os, central := c }.setPc t .idle)
          else
            some ({ s with os := os, central := c, carved := (blocks index p).map (·, index) ++ s.carved }.setPc t
              (.fetched size index p))
  | .fetched size index start =>
      ((s.thread t).adopt fuel index start s.os.memory).map (fun tc =>
        { (s.setThread t tc).setPc t .idle with held := (start, size) :: s.held })
  | .returnRange start limit index =>
      (s.central.returnRange start limit index s.os).map (fun (os, c) =>
        { s with os := os, central := c }.setPc t .idle)

/-- One step of one thread. A caller may free a block it owns on any thread, with
the size it asked for, and may write the block while it owns it. -/
def step : Act → LeveledMemoryPool → Option LeveledMemoryPool
  | .allocate t size, s =>
      if s.pc t = .idle ∧ size ≤ maxBytes then some (s.beginAllocate t size) else none
  | .deallocate t p size, s =>
      if s.pc t = .idle ∧ (p, size) ∈ s.held then some (s.beginDeallocate t p size) else none
  | .continue t env fuel, s => s.advance t env fuel
  | .write p size a v, s =>
      if (p, size) ∈ s.held ∧ p ≤ a ∧ a < p + size then some (s.setMemory (Function.update s.os.memory a v))
      else none

def start (s : LeveledMemoryPool) : Prop := ∃ m, s = initial m

end LeveledMemoryPool

end LearnNote.Memory
