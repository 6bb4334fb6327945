import LearnNote.Lib.Custody
import LearnNote.Memory.MemoryPool
import Mathlib.Data.List.Pairwise

namespace LearnNote.Memory.MemoryPool

open Lib Linked Extents

inductive Spot
  | free
  | caller (t : Nat)
  | moving (t : Nat)
deriving DecidableEq

def slotOf : SlotPc → List Nat
  | .pushLoad slot => [slot]
  | .pushStore slot _ => [slot]
  | .pushCas slot _ => [slot]
  | _ => []

def headOf : SlotPc → Option Nat
  | .popNext oldHead => some oldHead
  | .popCas oldHead _ => some oldHead
  | _ => none

def spots (l : List Nat) (owned : Nat → List Nat) (pc : Nat → SlotPc) : Spot → List Nat
  | .free => l
  | .caller t => owned t
  | .moving t => slotOf (pc t)

section spots

variable {l k : List Nat} {owned : Nat → List Nat} {pc : Nat → SlotPc} {t : Nat} {p : SlotPc}

theorem spots_free : spots k owned pc = Function.update (spots l owned pc) .free k := by
  funext i
  cases i <;> simp [spots]

theorem spots_caller :
    spots l (Function.update owned t k) pc = Function.update (spots l owned pc) (.caller t) k := by
  funext i
  cases i with
  | free => simp [spots]
  | caller u =>
      by_cases hu : u = t
      · subst hu; simp [spots]
      · simp [spots, hu]
  | moving u => simp [spots]

theorem spots_moving :
    spots l owned (Function.update pc t p) = Function.update (spots l owned pc) (.moving t) (slotOf p) := by
  funext i
  cases i with
  | free => simp [spots]
  | caller u => simp [spots]
  | moving u =>
      by_cases hu : u = t
      · subst hu; simp [spots]
      · simp [spots, hu]

theorem spots_still (h : slotOf p = slotOf (pc t)) :
    spots l owned (Function.update pc t p) = spots l owned pc := by
  rw [spots_moving, h]
  exact Function.update_eq_self (Spot.moving t) _

end spots

theorem padPointer_lt (c : SlotConfig) (p : Nat) : padPointer p c.slotSize < c.slotSize := Nat.mod_lt _ c.pos

/-- Blocks do not overlap, slots lie in blocks behind their links and do not
overlap, and what is left of the newest block is behind the cursor. -/
structure Carving (c : SlotConfig) (blocks carved : List Nat) (cur last : Nat) : Prop where
  blocks_apart : blocks.Pairwise (fun a b => Apart (a, c.blockSize) (b, c.blockSize))
  inside : ∀ s ∈ carved, ∃ b ∈ blocks, Within (s, c.slotSize) (b + 8, c.blockSize - 8)
  apart : carved.Pairwise (fun a b => Apart (a, c.slotSize) (b, c.slotSize))
  cursor : cur < last → ∃ b ∈ blocks, b + 8 ≤ cur ∧ last = b + c.blockSize - c.slotSize + 1 ∧
    ∀ s ∈ carved, Apart (s, c.slotSize) (cur, b + c.blockSize - cur)

namespace Carving

variable {c : SlotConfig} {blocks carved : List Nat} {cur last t : Nat}

theorem empty (c : SlotConfig) : Carving c [] [] 0 0 := ⟨.nil, by simp, .nil, by simp⟩

theorem slot_step (c : SlotConfig) : c.slotSize / 8 * 8 = c.slotSize := Nat.div_mul_cancel c.whole

theorem slot_pos (h : Carving c blocks carved cur last) {s : Nat} (hs : s ∈ carved) : s ≠ 0 := by
  obtain ⟨b, -, hw⟩ := h.inside s hs
  simp only [Within] at hw
  omega

theorem slot_apart (h : Carving c blocks carved cur last) {r s : Nat} (hr : r ∈ carved) (hs : s ∈ carved)
    (hne : r ≠ s) : Apart (r, c.slotSize) (s, c.slotSize) := by
  have hsym : Std.Symm (fun a b => Apart (a, c.slotSize) (b, c.slotSize)) := ⟨fun _ _ h => h.symm⟩
  exact h.apart.forall hr hs hne

theorem fresh (h : Carving c blocks carved cur last) (hc : cur < last) : cur ∉ carved := by
  intro hm
  obtain ⟨b, -, h8, hlast, hap⟩ := h.cursor hc
  have hself := hap cur hm
  have hpos := c.pos
  simp only [Apart] at hself
  omega

theorem take (h : Carving c blocks carved cur last) (hc : cur < last) :
    Carving c blocks (cur :: carved) (cur + c.slotSize / 8 * 8) last := by
  obtain ⟨b, hb, h8, hlast, hap⟩ := h.cursor hc
  have hpos := c.pos
  have hroom := c.room
  rw [slot_step]
  refine ⟨h.blocks_apart, ?_, ?_, ?_⟩
  · intro s hs
    rcases List.mem_cons.mp hs with rfl | hs
    · refine ⟨b, hb, ?_⟩
      simp only [Within]
      omega
    · exact h.inside s hs
  · refine List.pairwise_cons.mpr ⟨?_, h.apart⟩
    intro s hs
    have hs' := hap s hs
    simp only [Apart] at hs' ⊢
    omega
  · intro hc'
    refine ⟨b, hb, by omega, hlast, ?_⟩
    intro s hs
    rcases List.mem_cons.mp hs with rfl | hs
    · exact .inl le_rfl
    · have hs' := hap s hs
      simp only [Apart] at hs' ⊢
      omega

theorem refill (h : Carving c blocks carved cur last)
    (ht : ∀ b ∈ blocks, Apart (t, c.blockSize) (b, c.blockSize)) :
    Carving c (t :: blocks) carved (t + 8 + padPointer (t + 8) c.slotSize) (t + c.blockSize - c.slotSize + 1) ∧
      t + 8 + padPointer (t + 8) c.slotSize < t + c.blockSize - c.slotSize + 1 := by
  have hpad := padPointer_lt c (t + 8)
  have hroom := c.room
  refine ⟨⟨List.pairwise_cons.mpr ⟨ht, h.blocks_apart⟩, ?_, h.apart, ?_⟩, by omega⟩
  · intro s hs
    obtain ⟨b, hb, hw⟩ := h.inside s hs
    exact ⟨b, List.mem_cons_of_mem _ hb, hw⟩
  · intro _
    refine ⟨t, List.mem_cons_self, by omega, rfl, ?_⟩
    intro s hs
    obtain ⟨b, hb, hw⟩ := h.inside s hs
    have hap := ht b hb
    simp only [Within, Apart] at hw hap ⊢
    omega

end Carving

/-- What holds between any two accesses. l are the slots on the free list. -/
structure Inv (c : SlotConfig) (s : MemoryPool) (l : List Nat) : Prop where
  chain : Chain s.memory s.freeList l
  custody : Custody s.carved (spots l s.owned s.pc)
  stored : ∀ t p old, s.pc t = .pushCas p old → s.memory p = old
  seen : ∀ t, headOf (s.pc t) ≠ some 0
  carving : Carving c s.blocks s.carved s.curSlot s.lastSlot

namespace Inv

variable {c : SlotConfig} {s : MemoryPool} {l : List Nat} {t : Nat} {p : SlotPc}

theorem init (c : SlotConfig) (m : Words) : Inv c (init m) [] := by
  have hspots : spots [] (MemoryPool.init m).owned (MemoryPool.init m).pc = fun _ => [] := by
    funext i
    cases i <;> rfl
  refine ⟨rfl, ?_, by simp [MemoryPool.init], by simp [MemoryPool.init, headOf], Carving.empty c⟩
  rw [hspots]
  exact Custody.empty

theorem stored_update (h : Inv c s l) (hstored : ∀ q old, p = .pushCas q old → s.memory q = old) (u q old : Nat)
    (hu : Function.update s.pc t p u = .pushCas q old) : s.memory q = old := by
  by_cases hut : u = t
  · subst hut
    exact hstored q old (by simpa using hu)
  · exact h.stored u q old (by simpa [hut] using hu)

theorem seen_update (h : Inv c s l) (hp : headOf p ≠ some 0) (u : Nat) :
    headOf (Function.update s.pc t p u) ≠ some 0 := by
  by_cases hut : u = t
  · subst hut
    simpa using hp
  · simpa [hut] using h.seen u

theorem setPc (h : Inv c s l) (hslot : slotOf p = slotOf (s.pc t))
    (hstored : ∀ q old, p = .pushCas q old → s.memory q = old) (hseen : headOf p ≠ some 0) :
    Inv c (s.setPc t p) l := by
  have hspots : spots l s.owned (Function.update s.pc t p) = spots l s.owned s.pc := spots_still hslot
  exact ⟨h.chain, hspots ▸ h.custody, h.stored_update hstored, h.seen_update hseen, h.carving⟩

end Inv

end LearnNote.Memory.MemoryPool
