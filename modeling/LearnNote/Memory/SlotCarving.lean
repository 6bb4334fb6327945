import LearnNote.Lib.Transition
import LearnNote.Memory.SlotInvariant

namespace LearnNote.Memory.MemoryPool

open Lib Extents Transition

def firstSlot (c : SlotConfig) (b : Nat) : Nat := b + 8 + padPointer (b + 8) c.slotSize

/-- A slot lies in its block behind the link and whole slots behind the first one. -/
def Placed (c : SlotConfig) (b slot : Nat) : Prop :=
  Within (slot, c.slotSize) (b + 8, c.blockSize - 8) ∧ ∃ k, slot = firstSlot c b + k * c.slotSize

/-- Every slot is placed in a block, and so is the next one as long as the block has room. -/
structure Grid (c : SlotConfig) (s : MemoryPool) : Prop where
  blocks : ∀ b ∈ s.blocks, b + c.blockSize ≤ 2 ^ 64
  carved : ∀ slot ∈ s.carved, ∃ b ∈ s.blocks, Placed c b slot
  cursor : s.curSlot < s.lastSlot → ∃ b ∈ s.blocks, s.lastSlot = b + c.blockSize - c.slotSize + 1 ∧
    ∃ k, s.curSlot = firstSlot c b + k * c.slotSize

/-- What carving depends on. -/
structure SameCarving (s s' : MemoryPool) : Prop where
  blocks : s'.blocks = s.blocks
  carved : s'.carved = s.carved
  curSlot : s'.curSlot = s.curSlot
  lastSlot : s'.lastSlot = s.lastSlot

/-- What a step does to the carving: nothing, or a slot is taken, from a new block where the
last one is used up. -/
inductive Carves (c : SlotConfig) (s : MemoryPool) : MemoryPool → Prop
  | same {s' : MemoryPool} (h : SameCarving s s') : Carves c s s'
  | take (t : Nat) (hroom : s.curSlot < s.lastSlot) : Carves c s (s.takeSlot c t)
  | refill (t b : Nat) (hfits : b + c.blockSize ≤ 2 ^ 64)
      (hapart : ∀ a ∈ s.blocks, Apart (b, c.blockSize) (a, c.blockSize)) :
      Carves c s ((s.allocateNewBlock c b).takeSlot c t)

variable {c : SlotConfig} {s s' : MemoryPool} {t : Nat}

theorem carves_advance {spurious : Bool} {answer : Option Nat} (hs : s.advance c t spurious answer = some s') :
    Carves c s s' := by
  rw [advance] at hs
  cases hpc : s.pc t with
  | idle =>
      rw [hpc] at hs
      cases hs
  | popLoad | popNext | pushLoad | pushStore =>
      rw [hpc] at hs
      cases hs
      exact .same ⟨rfl, rfl, rfl, rfl⟩
  | popCas | pushCas =>
      rw [hpc] at hs
      dsimp only at hs
      split at hs <;> cases hs <;> exact .same ⟨rfl, rfl, rfl, rfl⟩
  | blockSection =>
      rw [hpc] at hs
      dsimp only at hs
      split at hs
      · cases hb : operatorNew c answer s.blocks with
        | none =>
            rw [hb] at hs
            cases hs
            exact .same ⟨rfl, rfl, rfl, rfl⟩
        | some b =>
            rw [hb] at hs
            cases hs
            have hfresh := (Option.filter_eq_some_iff.mp hb).2
            simp only [decide_eq_true_eq] at hfresh
            exact .refill t b hfresh.2.2.1 hfresh.2.2.2
      · cases hs
        exact .take t (Nat.lt_of_not_le ‹_›)

theorem carves_step {a : Act} (hs : step c a s = some s') : Carves c s s' := by
  cases a with
  | advance t spurious answer => exact carves_advance hs
  | allocate | deallocate | hand | write =>
      obtain ⟨-, he⟩ := Option.ite_none_right_eq_some.mp hs
      cases he
      exact .same ⟨rfl, rfl, rfl, rfl⟩

theorem carving_step (h : Carving c s.blocks s.carved s.curSlot s.lastSlot) (hm : Carves c s s') :
    Carving c s'.blocks s'.carved s'.curSlot s'.lastSlot := by
  cases hm with
  | same hsame =>
      obtain ⟨hblocks, hcarved, hcur, hlast⟩ := hsame
      rw [hblocks, hcarved, hcur, hlast]
      exact h
  | take t hroom => exact h.take hroom
  | refill t b hfits hapart =>
      obtain ⟨hnew, hlt⟩ := h.refill hapart
      exact hnew.take hlt

theorem reachable_carving (h : Reachable start (step c) always s) :
    Carving c s.blocks s.carved s.curSlot s.lastSlot := by
  apply h.invariant (I := fun s => Carving c s.blocks s.carved s.curSlot s.lastSlot)
  · rintro s ⟨m, rfl⟩
    exact Carving.empty c
  · intro a s s' hcarving _ hs
    exact carving_step hcarving (carves_step hs)

/-- In the pools of the hash bucket every slot that is cut lies in its block behind the link,
and no two of them overlap. -/
theorem slots_inside_block (i : Nat) (hi : i < HashBucket.memoryPoolNum) (s : MemoryPool)
    (h : Reachable start (step (HashBucket.config i hi)) always s) :
    (∀ slot ∈ s.carved, ∃ b ∈ s.blocks, b + 8 ≤ slot ∧ slot + (i + 1) * 8 ≤ b + 4096) ∧
      s.carved.Pairwise (fun a b => Apart (a, (i + 1) * 8) (b, (i + 1) * 8)) := by
  have hcarving := reachable_carving h
  refine ⟨fun slot hslot => ?_, hcarving.apart⟩
  obtain ⟨b, hb, hlow, hhigh⟩ := hcarving.inside slot hslot
  have hhigh : slot + (i + 1) * 8 ≤ b + 8 + (4096 - 8) := hhigh
  exact ⟨b, hb, hlow, by omega⟩

theorem dvd_add_padPointer (p align : Nat) (hp : p < 2 ^ 64) (halign : align < 2 ^ 64) :
    align ∣ p + padPointer p align ↔ p ≤ align ∨ align ∣ 2 ^ 64 := by
  by_cases hle : p ≤ align
  · refine iff_of_true ?_ (.inl hle)
    have hpad : sizeT (align + 2 ^ 64 - p) = align - p := by
      rw [sizeT]
      omega
    rw [padPointer, hpad, Nat.dvd_iff_mod_eq_zero, Nat.add_mod_mod, Nat.add_sub_of_le hle, Nat.mod_self]
  · rw [or_iff_right hle]
    have hpad : sizeT (align + 2 ^ 64 - p) = align + 2 ^ 64 - p := by
      rw [sizeT]
      omega
    have hsum : p + (align + 2 ^ 64 - p) = align + 2 ^ 64 := by omega
    rw [padPointer, hpad, Nat.dvd_iff_mod_eq_zero, Nat.add_mod_mod, hsum, ← Nat.dvd_iff_mod_eq_zero,
      Nat.dvd_add_right (Nat.dvd_refl align)]

theorem Placed.dvd_iff {b slot : Nat} (h : Placed c b slot) (hb : b + c.blockSize ≤ 2 ^ 64) :
    c.slotSize ∣ slot ↔ b + 8 ≤ c.slotSize ∨ c.slotSize ∣ 2 ^ 64 := by
  obtain ⟨-, k, rfl⟩ := h
  have hroom := c.room
  have hpos := c.pos
  rw [Nat.dvd_add_left (Nat.dvd_mul_left _ k), firstSlot, dvd_add_padPointer (b + 8) c.slotSize (by omega) (by omega)]

theorem grid_take (h : Grid c s) (hroom : s.curSlot < s.lastSlot) : Grid c (s.takeSlot c t) := by
  obtain ⟨b, hb, hlast, k, hk⟩ := h.cursor hroom
  have hblock := c.room
  refine ⟨h.blocks, fun slot hslot => ?_, fun _ => ⟨b, hb, hlast, k + 1, ?_⟩⟩
  · rcases List.mem_cons.mp hslot with rfl | hslot
    · refine ⟨b, hb, ⟨?_, ?_⟩, k, hk⟩
      · dsimp only
        rw [hk, firstSlot]
        omega
      · dsimp only
        omega
    · exact h.carved slot hslot
  · change s.curSlot + c.slotSize / 8 * 8 = _
    rw [Carving.slot_step, hk, Nat.add_assoc, Nat.succ_mul]

theorem grid_refill {b : Nat} (h : Grid c s) (hfits : b + c.blockSize ≤ 2 ^ 64) : Grid c (s.allocateNewBlock c b) := by
  refine ⟨fun a ha => ?_, fun slot hslot => ?_, fun _ => ⟨b, List.mem_cons_self, rfl, 0, ?_⟩⟩
  · rcases List.mem_cons.mp ha with rfl | ha
    · exact hfits
    · exact h.blocks a ha
  · obtain ⟨a, ha, hplaced⟩ := h.carved slot hslot
    exact ⟨a, List.mem_cons_of_mem _ ha, hplaced⟩
  · dsimp only [allocateNewBlock, firstSlot]
    rw [Nat.zero_mul]
    exact (Nat.add_zero _).symm

theorem grid_step (h : Grid c s) (hm : Carves c s s') : Grid c s' := by
  cases hm with
  | same hsame =>
      obtain ⟨hblocks, hcarved, hcur, hlast⟩ := hsame
      refine ⟨?_, ?_, ?_⟩
      · rw [hblocks]
        exact h.blocks
      · rw [hblocks, hcarved]
        exact h.carved
      · rw [hblocks, hcur, hlast]
        exact h.cursor
  | take t hroom => exact grid_take h hroom
  | refill t b hfits hapart =>
      have hpad := padPointer_lt c (b + 8)
      have hroom := c.room
      refine grid_take (grid_refill h hfits) ?_
      simp only [allocateNewBlock]
      omega

theorem reachable_grid (h : Reachable start (step c) always s) : Grid c s := by
  apply h.invariant (I := Grid c)
  · rintro s ⟨m, rfl⟩
    exact ⟨by simp [init], by simp [init], by simp [init]⟩
  · intro a s s' hgrid _ hs
    exact grid_step hgrid (carves_step hs)

/-- The padding leads to a multiple of the alignment unless the subtraction wraps around and
the alignment does not divide what it wraps around at; the slots of a block follow its first. -/
theorem slots_aligned_iff (align : Nat) (hpos : 0 < align) (halign : align < 2 ^ 64) :
    (∀ p, p < 2 ^ 64 →
      padPointer p align < align ∧ (align ∣ p + padPointer p align ↔ p ≤ align ∨ align ∣ 2 ^ 64)) ∧
    ∀ c s, c.slotSize = align → Reachable start (step c) always s → ∀ slot ∈ s.carved, ∃ b ∈ s.blocks,
      Within (slot, align) (b + 8, c.blockSize - 8) ∧ (align ∣ slot ↔ b + 8 ≤ align ∨ align ∣ 2 ^ 64) := by
  refine ⟨fun p hp => ⟨Nat.mod_lt _ hpos, dvd_add_padPointer p align hp halign⟩, ?_⟩
  rintro c s rfl h slot hslot
  have hgrid := reachable_grid h
  obtain ⟨b, hb, hplaced⟩ := hgrid.carved slot hslot
  exact ⟨b, hb, hplaced.1, hplaced.dvd_iff (hgrid.blocks b hb)⟩

section examples

def cutTwice : List Act :=
  [.allocate 1, .advance 1 false none, .advance 1 false (some 4096), .allocate 2, .advance 2 false none,
    .advance 2 false none]

theorem slots_inside_block_cut_twice :
    ∃ s, Reachable start (step (HashBucket.config 2 (by decide))) always s ∧ s.carved = [4144, 4120] ∧
      s.carved.Pairwise (fun a b => Apart (a, (2 + 1) * 8) (b, (2 + 1) * 8)) := by
  have hrun : (run (guarded (step (HashBucket.config 2 (by decide))) always) cutTwice (init fun _ => 0)).map
      (fun s => s.carved) = some [4144, 4120] := by decide +kernel
  obtain ⟨s, hr, he⟩ := reachable_of_run start hrun ⟨_, rfl⟩
  exact ⟨s, hr, he, (slots_inside_block 2 (by decide) s hr).2⟩

theorem slots_aligned_iff_power :
    padPointer 4104 16 = 8 ∧ 16 ∣ 4104 + padPointer 4104 16 ∧
      ∃ s, Reachable start (step (HashBucket.config 1 (by decide))) always s ∧ s.carved = [4112] ∧
        ∀ slot ∈ s.carved, 16 ∣ slot := by
  have hrun : (run (guarded (step (HashBucket.config 1 (by decide))) always) (cutTwice.take 3) (init fun _ => 0)).map
      (fun s => s.carved) = some [4112] := by decide +kernel
  obtain ⟨s, hr, he⟩ := reachable_of_run start hrun ⟨_, rfl⟩
  have hdvd : 16 ∣ 2 ^ 64 := by decide
  obtain ⟨hpad, hslots⟩ := slots_aligned_iff 16 (by decide) (by decide)
  refine ⟨by decide, (hpad 4104 (by decide)).2.mpr (.inr hdvd), s, hr, he, fun slot hslot => ?_⟩
  obtain ⟨b, -, -, haligned⟩ := hslots _ s rfl hr slot hslot
  exact haligned.mpr (.inr hdvd)

/-- With slots of 24 bytes the first one starts 16 behind a multiple of 24. -/
theorem padding_misses_multiple :
    ¬ ∀ p align, p < 2 ^ 64 → 0 < align → align < 2 ^ 64 → 8 ∣ align → align ∣ p + padPointer p align := by
  intro h
  have hmiss : ¬ 24 ∣ 4104 + padPointer 4104 24 := by decide
  exact hmiss (h 4104 24 (by decide) (by decide) (by decide) (by decide))

end examples

end LearnNote.Memory.MemoryPool
