import LearnNote.Memory.SlotFrame
import Mathlib.Data.Fintype.Basic

namespace LearnNote.Memory

open Lib Linked Extents Transition

namespace HashBucket

def maxSlotSize : Nat := 512

def index (nbytes : Nat) : Nat := (nbytes + 7) / slotBaseSize - 1

theorem index_lt {nbytes : Nat} (h : nbytes ≤ maxSlotSize) : index nbytes < memoryPoolNum := by
  simp only [index, maxSlotSize, slotBaseSize, memoryPoolNum] at *
  omega

def poolOf (nbytes : Nat) (h : nbytes ≤ maxSlotSize) : Fin memoryPoolNum := ⟨index nbytes, index_lt h⟩

def configOf (i : Fin memoryPoolNum) : SlotConfig := config i i.isLt

theorem le_slotSize {nbytes : Nat} (h : nbytes ≤ maxSlotSize) : nbytes ≤ (configOf (poolOf nbytes h)).slotSize := by
  simp only [configOf, config, poolOf, index, slotBaseSize]
  omega

end HashBucket

/-- What operator new has given for a request that is too large for the pools. -/
structure Large where
  owner : Nat
  start : Nat
  size : Nat
deriving DecidableEq

/-- The 64 pools work on one memory; the memory in each of them is not used. What is stored at
an address is a byte of a caller's or a link, which takes the 8 bytes from there on. -/
structure HashBucket where
  memory : Words
  pools : Fin HashBucket.memoryPoolNum → MemoryPool
  large : List Large

namespace HashBucket

def initMemoryPool (m : Words) : HashBucket := ⟨m, fun _ => MemoryPool.init m, []⟩

def view (i : Fin memoryPoolNum) (s : HashBucket) : MemoryPool := { s.pools i with memory := s.memory }

def putBack (i : Fin memoryPoolNum) (p : MemoryPool) (s : HashBucket) : HashBucket :=
  { s with
    memory := p.memory
    pools := Function.update s.pools i p }

def onPool (i : Fin memoryPoolNum) (act : MemoryPool.Act) (s : HashBucket) : Option HashBucket :=
  (MemoryPool.step (configOf i) act (s.view i)).map (fun p => s.putBack i p)

def Fresh (s : HashBucket) (p n : Nat) : Prop :=
  p ≠ 0 ∧ p + n ≤ 2 ^ 64 ∧ (∀ i, ∀ b ∈ (s.pools i).blocks, Apart (p, n) (b, 4096)) ∧
    ∀ g ∈ s.large, Apart (p, n) (g.start, g.size)

instance (s : HashBucket) (p n : Nat) : Decidable (Fresh s p n) := inferInstanceAs (Decidable (_ ∧ _))

def operatorNew (answer : Option Nat) (n : Nat) (s : HashBucket) : Option Nat := answer.filter (fun p => Fresh s p n)

def Idle (s : HashBucket) (t : Nat) : Prop := ∀ i, (s.pools i).pc t = .idle

instance (s : HashBucket) (t : Nat) : Decidable (Idle s t) := inferInstanceAs (Decidable (∀ _, _))

def Holds (s : HashBucket) (t ptr nbytes : Nat) : Prop :=
  if h : nbytes ≤ maxSlotSize then 0 < nbytes ∧ ptr ∈ (s.pools (poolOf nbytes h)).owned t
  else ⟨t, ptr, nbytes⟩ ∈ s.large

instance (s : HashBucket) (t ptr nbytes : Nat) : Decidable (Holds s t ptr nbytes) :=
  inferInstanceAs (Decidable (dite _ _ _))

inductive Act
  | useMemory (t nbytes : Nat) (answer : Option Nat)
  | freeMemory (t ptr size : Nat)
  | advance (i : Fin memoryPoolNum) (t : Nat) (spurious : Bool) (answer : Option Nat)
  | hand (t u ptr size : Nat)
  | write (t ptr size a v : Nat)

/-- A call of useMemory or freeMemory, or the next access of one that is under way in a pool.
Threads may hand memory to each other and store anything in what they have. -/
def step : Act → HashBucket → Option HashBucket
  | .useMemory t nbytes answer, s =>
      if Idle s t then
        if nbytes = 0 then some s
        else if h : nbytes ≤ maxSlotSize then s.onPool (poolOf nbytes h) (.allocate t)
        else
          match operatorNew answer nbytes s with
          | some p => some { s with large := ⟨t, p, nbytes⟩ :: s.large }
          | none => some s
      else none
  | .freeMemory t ptr size, s =>
      if ptr = 0 then some s
      else if Idle s t ∧ Holds s t ptr size then
        if h : size ≤ maxSlotSize then s.onPool (poolOf size h) (.deallocate t ptr)
        else some { s with large := s.large.erase ⟨t, ptr, size⟩ }
      else none
  | .advance i t spurious answer, s => s.onPool i (.advance t spurious (operatorNew answer 4096 s))
  | .hand t u ptr size, s =>
      if t ≠ u ∧ Holds s t ptr size then
        if h : size ≤ maxSlotSize then s.onPool (poolOf size h) (.hand t u ptr)
        else some { s with large := ⟨u, ptr, size⟩ :: s.large.erase ⟨t, ptr, size⟩ }
      else none
  | .write t ptr size a v, s =>
      if Holds s t ptr size ∧ ptr ≤ a ∧ a < ptr + size then some { s with memory := Function.update s.memory a v }
      else none

def start (s : HashBucket) : Prop := ∃ m, s = initMemoryPool m

/-- No two calls are under way in one pool at once. -/
def Alone : Act → HashBucket → Prop
  | .useMemory _ nbytes _, s => ∀ h : nbytes ≤ maxSlotSize, nbytes ≠ 0 → ∀ u, (s.pools (poolOf nbytes h)).pc u = .idle
  | .freeMemory _ _ size, s => ∀ h : size ≤ maxSlotSize, ∀ u, (s.pools (poolOf size h)).pc u = .idle
  | _, _ => True

variable {s s' : HashBucket} {i : Fin memoryPoolNum} {t u ptr nbytes : Nat}

/-- What holds between any two accesses. -/
structure Inv (s : HashBucket) : Prop where
  pools : ∀ i, ∃ l, MemoryPool.Inv (configOf i) (s.view i) l ∧
    Kept (s.pools i).carved (MemoryPool.spots l (s.pools i).owned (s.pools i).pc)
  calm : ∀ i, MemoryPool.Calm (s.view i)
  blocks : ∀ i j, i ≠ j → ∀ a ∈ (s.pools i).blocks, ∀ b ∈ (s.pools j).blocks, Apart (a, 4096) (b, 4096)
  large_blocks : ∀ g ∈ s.large, ∀ i, ∀ b ∈ (s.pools i).blocks, Apart (g.start, g.size) (b, 4096)
  large : s.large.Pairwise (fun g k => Apart (g.start, g.size) (k.start, k.size))

theorem Inv.init (m : Words) : Inv (initMemoryPool m) :=
  ⟨fun i => ⟨[], MemoryPool.Inv.init (configOf i) m, nofun⟩, fun _ => ⟨nofun, nofun, nofun, nofun⟩, nofun, nofun, .nil⟩

theorem Inv.carved_untouched (h : Inv s) {m : Words}
    (hm : ∀ a, m a ≠ s.memory a → ∀ b ∈ (s.pools i).blocks, Apart (a, 1) (b, 4096)) {q : Nat}
    (hq : q ∈ (s.pools i).carved) : m q = s.memory q := by
  obtain ⟨l, hl, -⟩ := h.pools i
  by_contra hne
  obtain ⟨b, hb, hin⟩ := hl.carving.inside q hq
  have hap := hm q hne b hb
  have hsize := MemoryPool.eight_le (configOf i)
  have hblock : (configOf i).blockSize = 4096 := rfl
  simp only [Within, Apart, hblock] at hin hap
  omega

/-- What is true of a pool stays so when the memory changes elsewhere. -/
structure PoolInv (i : Fin memoryPoolNum) (p : MemoryPool) : Prop where
  inv : ∃ l, MemoryPool.Inv (configOf i) p l ∧ Kept p.carved (MemoryPool.spots l p.owned p.pc)
  calm : MemoryPool.Calm p

theorem Inv.pool_congr (h : Inv s) {m : Words}
    (hm : ∀ a, m a ≠ s.memory a → ∀ b ∈ (s.pools i).blocks, Apart (a, 1) (b, 4096)) :
    PoolInv i { s.pools i with memory := m } := by
  obtain ⟨l, hl, hkept⟩ := h.pools i
  refine ⟨⟨l, hl.memory_congr (m := m) fun q hq => h.carved_untouched hm hq, hkept⟩, ?_⟩
  exact (h.calm i).memory_congr hl (fun q hq => h.carved_untouched hm (hl.custody.known .free q hq))

@[simp] theorem pools_putBack_self (i : Fin memoryPoolNum) (p : MemoryPool) (s : HashBucket) :
    (s.putBack i p).pools i = p := Function.update_self ..

theorem pools_putBack_of_ne {j : Fin memoryPoolNum} (hj : j ≠ i) (p : MemoryPool) (s : HashBucket) :
    (s.putBack i p).pools j = s.pools j := Function.update_of_ne hj ..

/-- A step of one pool, as the others see it. -/
structure PoolStep (i : Fin memoryPoolNum) (s s' : HashBucket) : Prop where
  inv : PoolInv i (s'.view i)
  large : s'.large = s.large
  others : ∀ j, j ≠ i → s'.pools j = s.pools j
  blocks : ∀ b ∈ (s'.pools i).blocks, b ∈ (s.pools i).blocks ∨ Fresh s b 4096
  changed : ∀ a, s'.memory a ≠ s.memory a → (∃ b ∈ (s'.pools i).blocks, Within (a, 8) (b, 4096)) ∧
    ∀ u q, q ∈ (s'.pools i).owned u → Apart (a, 8) (q, (configOf i).slotSize)

theorem poolStep_of_onPool (h : Inv s) (act : MemoryPool.Act) (hw : act.isWrite = false)
    (hbegins : act.Begins (s.view i)) (hfresh : ∀ b, act.answer = some b → Fresh s b 4096)
    (hs : s.onPool i act = some s') : PoolStep i s s' := by
  obtain ⟨p, hp, rfl⟩ := Option.map_eq_some_iff.mp hs
  obtain ⟨l, hl, hkept⟩ := h.pools i
  have hkeeps := (h.calm i).keeps (c := configOf i) act
  obtain ⟨l', hl', hkept'⟩ := MemoryPool.step_sound hl (MemoryPool.keeps_behind _ _ hkeeps) hp
  have hcalm := (h.calm i).step hw hbegins hp
  have hlinks := MemoryPool.links_step hw hp
  have hview : (s.putBack i p).view i = p := by
    rw [view, pools_putBack_self]
    rfl
  refine ⟨hview.symm ▸ ⟨⟨l', hl', hkept' hkept hkeeps⟩, hcalm⟩, rfl, fun j hj => pools_putBack_of_ne hj p s,
    fun b hb => ?_, fun a ha => ?_⟩
  · rw [pools_putBack_self] at hb
    cases hlinks with
    | none hm hblocks => exact .inl (hblocks ▸ hb)
    | slot v slot old hpc hm hblocks ho => exact .inl (hblocks ▸ hb)
    | block d hd hm hblocks =>
        rw [hblocks] at hb
        rcases List.mem_cons.mp hb with rfl | hb
        · exact .inr (hfresh b (Option.filter_eq_some_iff.mp hd).1)
        · exact .inl hb
  · rw [pools_putBack_self]
    exact MemoryPool.frame hl hl' hlinks ha

theorem PoolStep.keeps (hs : PoolStep i s s') (h : Inv s) : Inv s' := by
  have hblock : ∀ j, j ≠ i → ∀ a ∈ (s'.pools i).blocks, ∀ b ∈ (s.pools j).blocks, Apart (a, 4096) (b, 4096) := by
    intro j hj a ha b hb
    rcases hs.blocks a ha with ha | hfresh
    · exact h.blocks i j hj.symm a ha b hb
    · exact hfresh.2.2.1 j b hb
  have hpool : ∀ j, PoolInv j (s'.view j) := by
    intro j
    by_cases hj : j = i
    · subst hj
      exact hs.inv
    · rw [view, hs.others j hj]
      refine h.pool_congr fun a ha b hb => ?_
      obtain ⟨⟨d, hd, hin⟩, -⟩ := hs.changed a ha
      have hbyte : Within (a, 1) (d, 4096) := by
        simp only [Within] at hin ⊢
        omega
      exact hbyte.apart (hblock j hj d hd b hb)
  refine ⟨fun j => (hpool j).inv, fun j => (hpool j).calm, fun j k hjk a ha b hb => ?_, fun g hg j b hb => ?_,
    hs.large ▸ h.large⟩
  · by_cases hj : j = i
    · subst hj
      rw [hs.others k hjk.symm] at hb
      exact hblock k hjk.symm a ha b hb
    · rw [hs.others j hj] at ha
      by_cases hk : k = i
      · subst hk
        exact (hblock j hj b hb a ha).symm
      · rw [hs.others k hk] at hb
        exact h.blocks j k hjk a ha b hb
  · rw [hs.large] at hg
    by_cases hj : j = i
    · subst hj
      rcases hs.blocks b hb with hb | hfresh
      · exact h.large_blocks g hg j b hb
      · exact (hfresh.2.2.2 g hg).symm
    · rw [hs.others j hj] at hb
      exact h.large_blocks g hg j b hb

theorem holds_small (h : nbytes ≤ maxSlotSize) :
    Holds s t ptr nbytes ↔ 0 < nbytes ∧ ptr ∈ (s.pools (poolOf nbytes h)).owned t := by
  rw [Holds, dif_pos h]

theorem holds_large (h : ¬ nbytes ≤ maxSlotSize) : Holds s t ptr nbytes ↔ ⟨t, ptr, nbytes⟩ ∈ s.large := by
  rw [Holds, dif_neg h]

theorem Holds.mono (h : Holds s t ptr nbytes)
    (hslot : ∀ i, ptr ∈ (s.pools i).owned t → ptr ∈ (s'.pools i).owned t)
    (hlarge : (⟨t, ptr, nbytes⟩ : Large) ∈ s.large → ⟨t, ptr, nbytes⟩ ∈ s'.large) : Holds s' t ptr nbytes := by
  by_cases hn : nbytes ≤ maxSlotSize
  · rw [holds_small hn] at h ⊢
    exact ⟨h.1, hslot _ h.2⟩
  · rw [holds_large hn] at h ⊢
    exact hlarge h

theorem Inv.carved (h : Inv s) {slot : Nat} (hs : slot ∈ (s.pools i).owned t) :
    slot ∈ (s.pools i).carved ∧ ∃ b ∈ (s.pools i).blocks, Within (slot, (configOf i).slotSize) (b + 8, 4096 - 8) := by
  obtain ⟨l, hl, -⟩ := h.pools i
  have hcarved := hl.custody.known (.caller t) slot hs
  exact ⟨hcarved, hl.carving.inside slot hcarved⟩

theorem Inv.write (h : Inv s) (hold : Holds s t ptr nbytes) {a v : Nat} (ha : ptr ≤ a) (ha' : a < ptr + nbytes) :
    Inv { s with memory := Function.update s.memory a v } := by
  have honly : ∀ x, Function.update s.memory a v x ≠ s.memory x → x = a := by
    intro x hx
    by_contra hne
    exact hx (Function.update_of_ne hne _ _)
  have hpool : ∀ j, PoolInv j { s.pools j with memory := Function.update s.memory a v } := by
    intro j
    by_cases hn : nbytes ≤ maxSlotSize
    · obtain ⟨hpos, hslot⟩ := (holds_small hn).mp hold
      have hroom := le_slotSize hn
      by_cases hj : j = poolOf nbytes hn
      · subst hj
        obtain ⟨l, hl, hkept⟩ := h.pools (poolOf nbytes hn)
        have hsound := MemoryPool.write_sound (v := v) hl hslot ha (by omega)
        obtain ⟨l', hl', hkept'⟩ := hsound
        refine ⟨⟨l', hl', hkept' hkept trivial⟩, (h.calm _).memory_congr hl fun q hq => ?_⟩
        -- a free slot is not the one that is written to
        refine Function.update_of_ne ?_ _ _
        rintro rfl
        have hne : ptr ≠ q := by
          rintro rfl
          cases hl.custody.sole (.caller t) .free ptr hslot hq
        have hap := hl.carving.slot_apart (hl.custody.known (.caller t) ptr hslot) (hl.custody.known .free q hq) hne
        have hsize := MemoryPool.eight_le (configOf (poolOf nbytes hn))
        simp only [Apart] at hap
        omega
      · refine h.pool_congr fun x hx b hb => ?_
        obtain rfl := honly x hx
        obtain ⟨-, d, hd, hin⟩ := h.carved hslot
        have hap := h.blocks j _ hj b hb d hd
        simp only [Within, Apart] at hin hap ⊢
        omega
    · refine h.pool_congr fun x hx b hb => ?_
      obtain rfl := honly x hx
      have hap := h.large_blocks _ ((holds_large hn).mp hold) j b hb
      simp only [Apart] at hap ⊢
      omega
  exact ⟨fun j => (hpool j).inv, fun j => (hpool j).calm, h.blocks, h.large_blocks, h.large⟩

theorem Inv.step {act : Act} (h : Inv s) (hb : Alone act s) (hs : step act s = some s') : Inv s' := by
  cases act with
  | useMemory t nbytes answer =>
      obtain ⟨-, hs⟩ := Option.ite_none_right_eq_some.mp hs
      split at hs
      next => cases hs; exact h
      next h0 =>
        split at hs
        next hn => exact (poolStep_of_onPool h (.allocate t) rfl (hb hn h0) nofun hs).keeps h
        next =>
          split at hs
          next p hp =>
            cases hs
            have hfresh := (Option.filter_eq_some_iff.mp hp).2
            simp only [decide_eq_true_eq] at hfresh
            refine ⟨h.pools, h.calm, h.blocks, fun g hg i b hb => ?_, List.pairwise_cons.mpr ⟨hfresh.2.2.2, h.large⟩⟩
            rcases List.mem_cons.mp hg with rfl | hg
            · exact hfresh.2.2.1 i b hb
            · exact h.large_blocks g hg i b hb
          next => cases hs; exact h
  | freeMemory t ptr size =>
      simp only [HashBucket.step] at hs
      split at hs
      next => cases hs; exact h
      next =>
        obtain ⟨-, hs⟩ := Option.ite_none_right_eq_some.mp hs
        split at hs
        next hn => exact (poolStep_of_onPool h (.deallocate t ptr) rfl (hb hn) nofun hs).keeps h
        next =>
          cases hs
          exact ⟨h.pools, h.calm, h.blocks, fun g hg => h.large_blocks g (List.mem_of_mem_erase hg),
            h.large.sublist List.erase_sublist⟩
  | advance i t spurious answer =>
      refine (poolStep_of_onPool h (.advance t spurious (operatorNew answer 4096 s)) rfl trivial ?_ hs).keeps h
      intro b hfresh
      simpa using (Option.filter_eq_some_iff.mp hfresh).2
  | hand t u ptr size =>
      obtain ⟨⟨-, hold⟩, hs⟩ := Option.ite_none_right_eq_some.mp hs
      split at hs
      next hn => exact (poolStep_of_onPool h (.hand t u ptr) rfl trivial nofun hs).keeps h
      next hn =>
        cases hs
        have hmem := (holds_large hn).mp hold
        refine ⟨h.pools, h.calm, h.blocks, fun g hg => ?_, List.pairwise_cons.mpr ⟨fun g hg => ?_, ?_⟩⟩
        · rcases List.mem_cons.mp hg with rfl | hg
          · exact h.large_blocks ⟨t, ptr, size⟩ hmem
          · exact h.large_blocks g (List.mem_of_mem_erase hg)
        · have hperm := List.perm_cons_erase hmem
          exact (List.pairwise_cons.mp ((hperm.pairwise_iff fun h => h.symm).mp h.large)).1 g hg
        · exact h.large.sublist List.erase_sublist
  | write t ptr size a v =>
      obtain ⟨⟨hold, ha, ha'⟩, he⟩ := Option.ite_none_right_eq_some.mp hs
      cases he
      exact h.write hold ha ha'

theorem inv_of_reachable (h : Reachable start step Alone s) : Inv s := by
  apply h.invariant (I := Inv) ?_ (fun _ _ _ hi hb hs => hi.step hb hs)
  rintro _ ⟨m, rfl⟩
  exact Inv.init m

/-- The slot or the large piece that a request has got. -/
inductive Piece (s : HashBucket) (t ptr nbytes : Nat) : Prop
  | slot (i : Fin memoryPoolNum) (hsize : nbytes ≤ (configOf i).slotSize) (hmem : ptr ∈ (s.pools i).owned t)
  | large (hmem : ⟨t, ptr, nbytes⟩ ∈ s.large)

theorem Holds.piece (h : Holds s t ptr nbytes) : Piece s t ptr nbytes := by
  by_cases hn : nbytes ≤ maxSlotSize
  · exact .slot _ (le_slotSize hn) ((holds_small hn).mp h).2
  · exact .large ((holds_large hn).mp h)

/-- Pieces of two requests do not overlap, whichever pools they are from. -/
theorem Inv.pieces_apart (h : Inv s) {p q m n : Nat} (hp : Piece s t p n) (hq : Piece s u q m) (hne : (t, p) ≠ (u, q)) :
    Apart (p, n) (q, m) := by
  have hslot_large : ∀ {t u p q m n} (i : Fin memoryPoolNum), n ≤ (configOf i).slotSize → p ∈ (s.pools i).owned t →
      ⟨u, q, m⟩ ∈ s.large → Apart (p, n) (q, m) := by
    intro t u p q m n i hsize hmem hlarge
    obtain ⟨-, b, hb, hin⟩ := h.carved hmem
    have hap := h.large_blocks _ hlarge i b hb
    simp only [Within, Apart] at hin hap ⊢
    omega
  cases hp with
  | slot i hsize hmem =>
      cases hq with
      | slot j hsize' hmem' =>
          obtain ⟨hcarved, b, hb, hin⟩ := h.carved hmem
          obtain ⟨hcarved', d, hd, hin'⟩ := h.carved hmem'
          by_cases hij : i = j
          · subst hij
            obtain ⟨l, hl, -⟩ := h.pools i
            have hpq : p ≠ q := by
              rintro rfl
              have hsame := hl.custody.sole (.caller t) (.caller u) p hmem hmem'
              cases hsame
              exact hne rfl
            have hap := hl.carving.slot_apart hcarved hcarved' hpq
            simp only [Apart] at hap ⊢
            omega
          · have hap := h.blocks i j hij b hb d hd
            simp only [Within, Apart] at hin hin' hap ⊢
            omega
      | large hmem' => exact hslot_large i hsize hmem hmem'
  | large hmem =>
      cases hq with
      | slot j hsize' hmem' => exact (hslot_large j hsize' hmem' hmem).symm
      | large hmem' =>
          have hsym : Std.Symm (fun g k : Large => Apart (g.start, g.size) (k.start, k.size)) := ⟨fun _ _ h => h.symm⟩
          refine h.large.forall hmem hmem' ?_
          rintro ⟨⟩
          exact hne rfl

/-- Over whatever pools and threads the requests go, no two pieces of memory that threads hold overlap,
and every slot that was cut is held, in the hands of one call, or free, as long as the calls in one pool
do not overlap. -/
theorem held_memory_apart (s : HashBucket) (h : Reachable start step Alone s) :
    (∀ t u p q n m, Holds s t p n → Holds s u q m → (t, p) ≠ (u, q) → Apart (p, n) (q, m)) ∧
      ∀ i, ∀ slot ∈ (s.pools i).carved, MemoryPool.Accounted (s.view i) slot := by
  have hinv := inv_of_reachable h
  refine ⟨fun t u p q n m hp hq hne => hinv.pieces_apart hp.piece hq.piece hne, fun i slot hslot => ?_⟩
  obtain ⟨l, hl, hkept⟩ := hinv.pools i
  obtain ⟨spot, hspot⟩ := hkept slot hslot
  cases spot with
  | free => exact .inr (.inr (hl.chain.reaches_iff.mpr hspot))
  | caller t => exact .inl ⟨t, hspot⟩
  | moving t =>
      refine .inr (.inl ⟨t, hspot, fun u hu => ?_⟩)
      simpa using hl.custody.sole (.moving u) (.moving t) slot hu hspot

def Act.threads : Act → List Nat
  | .useMemory t _ _ | .freeMemory t _ _ | .advance _ t _ _ => [t]
  | .hand t u _ _ => [t, u]
  | .write .. => []

def Among (n : Nat) (act : Act) (s : HashBucket) : Prop :=
  (∀ t ∈ act.threads, t < n) ∧
    match act with
    | .useMemory _ nbytes _ => ∀ h : nbytes ≤ maxSlotSize, ∀ u < n, (s.pools (poolOf nbytes h)).pc u = .idle
    | .freeMemory _ _ size => ∀ h : size ≤ maxSlotSize, ∀ u < n, (s.pools (poolOf size h)).pc u = .idle
    | _ => True

instance (n : Nat) : (act : Act) → (s : HashBucket) → Decidable (Among n act s)
  | .useMemory .., _ | .freeMemory .., _ => inferInstanceAs (Decidable (_ ∧ ∀ _, _))
  | .advance .., _ | .hand .., _ | .write .., _ => inferInstanceAs (Decidable (_ ∧ True))

theorem pc_onPool {n : Nat} (act : MemoryPool.Act) (hs : s.onPool i act = some s') (hact : ∀ t ∈ act.threads, t < n)
    (h : ∀ j u, n ≤ u → (s.pools j).pc u = .idle) (j : Fin memoryPoolNum) (u : Nat) (hu : n ≤ u) :
    (s'.pools j).pc u = .idle := by
  obtain ⟨p, hp, rfl⟩ := Option.map_eq_some_iff.mp hs
  by_cases hj : j = i
  · subst hj
    rw [pools_putBack_self]
    exact (MemoryPool.step_other hp fun hmem => absurd (hact u hmem) (Nat.not_lt_of_le hu)).2.trans (h j u hu)
  · rw [pools_putBack_of_ne hj]
    exact h j u hu

theorem pc_step {n : Nat} {act : Act} (hs : step act s = some s') (hact : ∀ t ∈ act.threads, t < n)
    (h : ∀ j u, n ≤ u → (s.pools j).pc u = .idle) : ∀ j u, n ≤ u → (s'.pools j).pc u = .idle := by
  cases act with
  | useMemory t nbytes answer =>
      obtain ⟨-, hs⟩ := Option.ite_none_right_eq_some.mp hs
      split at hs
      next => cases hs; exact h
      next =>
        split at hs
        next hn => exact pc_onPool (.allocate t) hs hact h
        next => split at hs <;> cases hs <;> exact h
  | freeMemory t ptr size =>
      simp only [step] at hs
      split at hs
      next => cases hs; exact h
      next =>
        obtain ⟨-, hs⟩ := Option.ite_none_right_eq_some.mp hs
        split at hs
        next hn => exact pc_onPool (.deallocate t ptr) hs hact h
        next => cases hs; exact h
  | advance i t spurious answer => exact pc_onPool (.advance t spurious (operatorNew answer 4096 s)) hs hact h
  | hand t u ptr size =>
      obtain ⟨-, hs⟩ := Option.ite_none_right_eq_some.mp hs
      split at hs
      next hn => exact pc_onPool (.hand t u ptr) hs hact h
      next => cases hs; exact h
  | write =>
      obtain ⟨-, he⟩ := Option.ite_none_right_eq_some.mp hs
      cases he
      exact h

theorem Among.alone {n : Nat} {act : Act} (hact : Among n act s) (h : ∀ j u, n ≤ u → (s.pools j).pc u = .idle) :
    Alone act s := by
  have hall : ∀ j, (∀ u < n, (s.pools j).pc u = .idle) → ∀ u, (s.pools j).pc u = .idle :=
    fun j hlt u => (Nat.lt_or_ge u n).elim (hlt u) (h j u)
  cases act with
  | useMemory t nbytes answer => exact fun hn _ => hall _ (hact.2 hn)
  | freeMemory t ptr size => exact fun hn => hall _ (hact.2 hn)
  | _ => trivial

theorem alone_of_among {n : Nat} {init : HashBucket → Prop} {cond : Act → HashBucket → Prop}
    (hinit : ∀ s, init s → ∀ j u, n ≤ u → (s.pools j).pc u = .idle)
    (h : Reachable init step (fun act s => Among n act s ∧ cond act s) s) :
    Reachable init step (fun act s => Alone act s ∧ cond act s) s ∧ ∀ j u, n ≤ u → (s.pools j).pc u = .idle := by
  induction h with
  | start h => exact ⟨.start h, hinit _ h⟩
  | next act _ hc hs ih => exact ⟨.next act ih.1 ⟨hc.1.alone ih.2, hc.2⟩ hs, pc_step hs hc.1.1 ih.2⟩

def requests : List Act :=
  [.useMemory 1 20 none, .useMemory 2 8 none, .advance (poolOf 20 (by decide)) 1 false none,
    .advance (poolOf 8 (by decide)) 2 false none, .advance (poolOf 8 (by decide)) 2 false (some 16384),
    .advance (poolOf 20 (by decide)) 1 false (some 4096), .useMemory 3 1000 (some 8192)]

theorem alone_of_run {as : List Act} {m : Words}
    (hr : run (guarded step fun act s => Among 4 act s ∧ True) as (initMemoryPool m) = some s) :
    Reachable start step Alone s ∧ ∀ j u, 4 ≤ u → (s.pools j).pc u = .idle := by
  have hstart : Reachable start step (fun act s => Among 4 act s ∧ True) (initMemoryPool m) := .start ⟨m, rfl⟩
  have hinit : ∀ s, start s → ∀ j u, 4 ≤ u → (s.pools j).pc u = .idle := by
    rintro _ ⟨m, rfl⟩ j u -
    rfl
  obtain ⟨h, hidle⟩ := alone_of_among hinit (hstart.run as hr)
  exact ⟨h.weaken fun _ _ h => h.1, hidle⟩

theorem held_memory_apart_three :
    ∃ s, Reachable start step Alone s ∧ (Holds s 1 4120 20 ∧ Holds s 2 16392 8 ∧ Holds s 3 8192 1000) ∧
      Apart (4120, 20) (8192, 1000) := by
  have hrun : (run (guarded step fun act s => Among 4 act s ∧ True) requests (initMemoryPool fun _ => 0)).map
      (fun s => decide (Holds s 1 4120 20 ∧ Holds s 2 16392 8 ∧ Holds s 3 8192 1000)) = some true := by decide +kernel
  obtain ⟨s, hs, he⟩ := Option.map_eq_some_iff.mp hrun
  have hr := (alone_of_run hs).1
  have hheld := of_decide_eq_true he
  exact ⟨s, hr, hheld, (held_memory_apart s hr).1 1 3 4120 8192 20 1000 hheld.1 hheld.2.2 (by decide)⟩

/-- What a thread does with other memory than a given piece. -/
def Spares (t ptr : Nat) : Act → HashBucket → Prop
  | .freeMemory u p _, _ => (u, p) ≠ (t, ptr)
  | .hand u _ p _, _ => (u, p) ≠ (t, ptr)
  | .write u p _ _ _, _ => (u, p) ≠ (t, ptr)
  | _, _ => True

instance (t ptr : Nat) : (act : Act) → (s : HashBucket) → Decidable (Spares t ptr act s)
  | .freeMemory u p _, _ | .hand u _ p _, _ | .write u p _ _ _, _ => inferInstanceAs (Decidable ((u, p) ≠ (t, ptr)))
  | .useMemory .., _ | .advance .., _ => .isTrue trivial

theorem owned_onPool {j : Fin memoryPoolNum} {act : MemoryPool.Act} (hs : s.onPool i act = some s')
    (h : ptr ∈ (s.pools j).owned t) (ha : j = i → act.Spares t ptr) : ptr ∈ (s'.pools j).owned t := by
  obtain ⟨p, hp, rfl⟩ := Option.map_eq_some_iff.mp hs
  by_cases hj : j = i
  · subst hj
    rw [pools_putBack_self]
    exact MemoryPool.owned_step hp h (ha rfl)
  · rwa [pools_putBack_of_ne hj]

theorem holds_onPool {act : MemoryPool.Act} (hs : s.onPool i act = some s') (h : Holds s t ptr nbytes)
    (ha : act.Spares t ptr) : Holds s' t ptr nbytes := by
  refine h.mono (fun j hmem => owned_onPool hs hmem (fun _ => ha)) (fun hmem => ?_)
  obtain ⟨p, -, rfl⟩ := Option.map_eq_some_iff.mp hs
  exact hmem

/-- The accesses of the pools leave what threads hold alone. -/
theorem PoolStep.untouched (hs : PoolStep i s s') (h' : Inv s') (hp : Piece s' t ptr nbytes) {a : Nat} (ha : ptr ≤ a)
    (ha' : a < ptr + nbytes) : s'.memory a = s.memory a := by
  by_contra hne
  obtain ⟨⟨d, hd, hin⟩, hslots⟩ := hs.changed a hne
  cases hp with
  | slot j hsize hmem =>
      by_cases hj : j = i
      · subst hj
        have hap := hslots t ptr hmem
        simp only [Apart] at hap
        omega
      · obtain ⟨-, b, hb, hin'⟩ := h'.carved hmem
        have hap := h'.blocks j i hj b hb d hd
        simp only [Within, Apart] at hin hin' hap
        omega
  | large hmem =>
      have hap := h'.large_blocks _ hmem i d hd
      simp only [Within, Apart] at hin hap
      omega

theorem step_spares {act : Act} (h : Inv s) (hb : Alone act s) (hspares : Spares t ptr act s)
    (hs : step act s = some s') (hold : Holds s t ptr nbytes) :
    Holds s' t ptr nbytes ∧ ∀ a, ptr ≤ a → a < ptr + nbytes → s'.memory a = s.memory a := by
  have h' := h.step hb hs
  have hpool : ∀ {i} (act : MemoryPool.Act), s.onPool i act = some s' → act.Spares t ptr → PoolStep i s s' →
      Holds s' t ptr nbytes ∧ ∀ a, ptr ≤ a → a < ptr + nbytes → s'.memory a = s.memory a := by
    intro i act hs ha hstep
    have hold' := holds_onPool hs hold ha
    exact ⟨hold', fun a ha ha' => hstep.untouched h' hold'.piece ha ha'⟩
  cases act with
  | useMemory u nbytes' answer =>
      obtain ⟨-, hs⟩ := Option.ite_none_right_eq_some.mp hs
      split at hs
      next => cases hs; exact ⟨hold, fun _ _ _ => rfl⟩
      next h0 =>
        split at hs
        next hn =>
          exact hpool (.allocate u) hs trivial (poolStep_of_onPool h (.allocate u) rfl (hb hn h0) nofun hs)
        next =>
          split at hs
          next p hp =>
            cases hs
            exact ⟨hold.mono (fun _ hmem => hmem) (List.mem_cons_of_mem _), fun _ _ _ => rfl⟩
          next => cases hs; exact ⟨hold, fun _ _ _ => rfl⟩
  | freeMemory u p size =>
      simp only [HashBucket.step] at hs
      split at hs
      next => cases hs; exact ⟨hold, fun _ _ _ => rfl⟩
      next =>
        obtain ⟨-, hs⟩ := Option.ite_none_right_eq_some.mp hs
        split at hs
        next hn =>
          exact hpool (.deallocate u p) hs hspares
            (poolStep_of_onPool h (.deallocate u p) rfl (hb hn) nofun hs)
        next =>
          cases hs
          refine ⟨hold.mono (fun _ hmem => hmem) (fun hmem => (List.mem_erase_of_ne ?_).mpr hmem), fun _ _ _ => rfl⟩
          rintro ⟨⟩
          exact hspares rfl
  | advance i u spurious answer =>
      have hstep : PoolStep i s s' := by
        refine poolStep_of_onPool h (.advance u spurious (operatorNew answer 4096 s)) rfl trivial ?_ hs
        intro b hfresh
        simpa using (Option.filter_eq_some_iff.mp hfresh).2
      exact hpool (.advance u spurious (operatorNew answer 4096 s)) hs trivial hstep
  | hand u v p size =>
      obtain ⟨⟨-, hheld⟩, hs⟩ := Option.ite_none_right_eq_some.mp hs
      split at hs
      next hn =>
        exact hpool (.hand u v p) hs hspares (poolStep_of_onPool h (.hand u v p) rfl trivial nofun hs)
      next =>
        cases hs
        refine ⟨hold.mono (fun _ hmem => hmem) fun hmem =>
          List.mem_cons_of_mem _ ((List.mem_erase_of_ne ?_).mpr hmem), fun _ _ _ => rfl⟩
        rintro ⟨⟩
        exact hspares rfl
  | write u p size b v =>
      obtain ⟨⟨hheld, hb, hb'⟩, he⟩ := Option.ite_none_right_eq_some.mp hs
      cases he
      refine ⟨hold, fun a ha ha' => Function.update_of_ne ?_ _ _⟩
      have hap := h.pieces_apart hheld.piece hold.piece hspares
      simp only [Apart] at hap
      omega

/-- What a thread holds stays with it, and what is stored there stays as it is, over all calls and
stores of others and its own elsewhere. -/
theorem held_memory_stays (s : HashBucket) (h : Reachable start step Alone s) (t ptr nbytes : Nat)
    (hold : Holds s t ptr nbytes) (s' : HashBucket)
    (hr : Reachable (· = s) step (fun act s => Alone act s ∧ Spares t ptr act s) s') :
    Holds s' t ptr nbytes ∧ ∀ a, ptr ≤ a → a < ptr + nbytes → s'.memory a = s.memory a := by
  have hinv := hr.invariant (I := fun s' => Inv s' ∧ Holds s' t ptr nbytes ∧
    ∀ a, ptr ≤ a → a < ptr + nbytes → s'.memory a = s.memory a) ?_ ?_
  · exact hinv.2
  · rintro _ rfl
    exact ⟨inv_of_reachable h, hold, fun _ _ _ => rfl⟩
  · rintro act s₁ s₂ ⟨h₁, hold₁, hsame⟩ ⟨hb, hspares⟩ hs
    obtain ⟨hold₂, hstep⟩ := step_spares h₁ hb hspares hs hold₁
    exact ⟨h₁.step hb hs, hold₂, fun a ha ha' => (hstep a ha ha').trans (hsame a ha ha')⟩

def givingBack : List Act :=
  .freeMemory 2 16392 8 :: List.replicate 3 (.advance (poolOf 8 (by decide)) 2 false none)

theorem held_memory_stays_beside_free :
    ∃ s s', Reachable start step Alone s ∧ Holds s 2 16392 8 ∧
      Reachable (· = s) step (fun act s => Alone act s ∧ Spares 1 4120 act s) s' ∧ ¬ Holds s' 2 16392 8 ∧
      Holds s' 1 4120 20 ∧ ∀ a, 4120 ≤ a → a < 4120 + 20 → s'.memory a = s.memory a := by
  have hrun : ((run (guarded step fun act s => Among 4 act s ∧ True) requests (initMemoryPool fun _ => 0)).bind fun s =>
      (run (guarded step fun act s => Among 4 act s ∧ Spares 1 4120 act s) givingBack s).map fun s' =>
        (decide (Holds s 1 4120 20 ∧ Holds s 2 16392 8), decide (Holds s' 2 16392 8))) = some (true, false) := by
    decide +kernel
  obtain ⟨s, hs, hrest⟩ := Option.bind_eq_some_iff.mp hrun
  obtain ⟨s', hs', he⟩ := Option.map_eq_some_iff.mp hrest
  obtain ⟨hheld, hgone⟩ := Prod.mk.inj he
  have hheld := of_decide_eq_true hheld
  obtain ⟨hr, hidle⟩ := alone_of_run hs
  have hself : Reachable (· = s) step (fun act s => Among 4 act s ∧ Spares 1 4120 act s) s := .start rfl
  have hr' := (alone_of_among (by rintro _ rfl; exact hidle) (hself.run givingBack hs')).1
  exact ⟨s, s', hr, hheld.2, hr', of_decide_eq_false hgone, held_memory_stays s hr 1 4120 20 hheld.1 s' hr'⟩

end HashBucket

end LearnNote.Memory
