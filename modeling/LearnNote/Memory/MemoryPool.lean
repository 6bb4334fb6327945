import LearnNote.Lib.Linked
import LearnNote.Memory.Common

namespace LearnNote.Memory

open Lib.Extents

/-- The sizes a pool is set up with. A slot is a whole number of pointers, and a
block has room for its link, the padding and a slot. -/
structure SlotConfig where
  blockSize : Nat
  slotSize : Nat
  pos : 0 < slotSize
  whole : 8 ∣ slotSize
  room : 7 + 2 * slotSize ≤ blockSize

namespace HashBucket

def memoryPoolNum : Nat := 64
def slotBaseSize : Nat := 8

def config (i : Nat) (h : i < memoryPoolNum) : SlotConfig where
  blockSize := 4096
  slotSize := (i + 1) * slotBaseSize
  pos := Nat.mul_pos (Nat.succ_pos i) (by decide)
  whole := Dvd.intro_left (i + 1) rfl
  room := by
    simp only [memoryPoolNum, slotBaseSize] at *
    omega

end HashBucket

/-- Where a thread stands in allocate or deallocate: before the next atomic access,
or before the section guarded by the mutex. -/
inductive SlotPc
  | idle
  | popLoad
  | popNext (oldHead : Nat)
  | popCas (oldHead newHead : Nat)
  | blockSection
  | pushLoad (slot : Nat)
  | pushStore (slot oldHead : Nat)
  | pushCas (slot oldHead : Nat)
deriving DecidableEq

/-- The members of a pool and the memory it works on. blocks are the results of
operator new, carved the slots cut from them, and owned the slots each caller
has got and not given back. -/
structure MemoryPool where
  memory : Words
  firstBlock : Nat
  curSlot : Nat
  lastSlot : Nat
  freeList : Nat
  pc : Nat → SlotPc
  blocks : List Nat
  carved : List Nat
  owned : Nat → List Nat

namespace MemoryPool

def init (m : Words) : MemoryPool := ⟨m, 0, 0, 0, 0, fun _ => .idle, [], [], fun _ => []⟩

def padPointer (p align : Nat) : Nat := sizeT (align + 2 ^ 64 - p) % align

def operatorNew (c : SlotConfig) (answer : Option Nat) (blocks : List Nat) : Option Nat :=
  answer.filter (fun t => t ≠ 0 ∧ 8 ∣ t ∧ t + c.blockSize ≤ 2 ^ 64 ∧
    ∀ b ∈ blocks, Apart (t, c.blockSize) (b, c.blockSize))

def setPc (t : Nat) (pc : SlotPc) (s : MemoryPool) : MemoryPool :=
  { s with pc := Function.update s.pc t pc }

def setOwned (t : Nat) (slots : List Nat) (s : MemoryPool) : MemoryPool :=
  { s with owned := Function.update s.owned t slots }

/-- The new block is the first of the blocks and the free list is cleared. -/
def allocateNewBlock (c : SlotConfig) (t : Nat) (s : MemoryPool) : MemoryPool :=
  let body := t + 8
  { s with
    memory := Function.update s.memory t s.firstBlock
    firstBlock := t
    curSlot := body + padPointer body c.slotSize
    lastSlot := t + c.blockSize - c.slotSize + 1
    freeList := 0
    blocks := t :: s.blocks }

def takeSlot (c : SlotConfig) (t : Nat) (s : MemoryPool) : MemoryPool :=
  { s with
    curSlot := s.curSlot + c.slotSize / 8 * 8
    carved := s.curSlot :: s.carved
    owned := Function.update s.owned t (s.curSlot :: s.owned t)
    pc := Function.update s.pc t .idle }

inductive Act
  | allocate (t : Nat)
  | deallocate (t slot : Nat)
  | advance (t : Nat) (spurious : Bool) (answer : Option Nat)
  | hand (t u slot : Nat)
  | write (t slot a v : Nat)

/-- The next access of a thread. A compare_exchange_weak may fail for no reason, and
operator new may throw. -/
def advance (c : SlotConfig) (t : Nat) (spurious : Bool) (answer : Option Nat) (s : MemoryPool) : Option MemoryPool :=
  match s.pc t with
  | .idle => none
  | .popLoad => some (s.setPc t (if s.freeList = 0 then .blockSection else .popNext s.freeList))
  | .popNext oldHead => some (s.setPc t (.popCas oldHead (s.memory oldHead)))
  | .popCas oldHead newHead =>
      if s.freeList = oldHead ∧ ¬ spurious then
        some (({ s with freeList := newHead }.setOwned t (oldHead :: s.owned t)).setPc t .idle)
      else some (s.setPc t .popLoad)
  | .blockSection =>
      if s.curSlot ≥ s.lastSlot then
        match operatorNew c answer s.blocks with
        | none => some (s.setPc t .idle)
        | some b => some ((s.allocateNewBlock c b).takeSlot c t)
      else some (s.takeSlot c t)
  | .pushLoad slot => some (s.setPc t (.pushStore slot s.freeList))
  | .pushStore slot oldHead =>
      some ({ s with memory := Function.update s.memory slot oldHead }.setPc t (.pushCas slot oldHead))
  | .pushCas slot oldHead =>
      if s.freeList = oldHead ∧ ¬ spurious then some ({ s with freeList := slot }.setPc t .idle)
      else some (s.setPc t (.pushLoad slot))

/-- One step of one thread. A caller may free a slot it owns, hand it to another
caller, or store anything in it. -/
def step (c : SlotConfig) : Act → MemoryPool → Option MemoryPool
  | .allocate t, s => if s.pc t = .idle then some (s.setPc t .popLoad) else none
  | .deallocate t slot, s =>
      if s.pc t = .idle ∧ slot ∈ s.owned t then
        some ((s.setOwned t ((s.owned t).erase slot)).setPc t (.pushLoad slot))
      else none
  | .advance t spurious answer, s => s.advance c t spurious answer
  | .hand t u slot, s =>
      if t ≠ u ∧ slot ∈ s.owned t then
        some ((s.setOwned t ((s.owned t).erase slot)).setOwned u (slot :: s.owned u))
      else none
  | .write t slot a v, s =>
      if slot ∈ s.owned t ∧ slot ≤ a ∧ a < slot + c.slotSize then
        some { s with memory := Function.update s.memory a v }
      else none

def start (s : MemoryPool) : Prop := ∃ m, s = init m

end MemoryPool

end LearnNote.Memory
