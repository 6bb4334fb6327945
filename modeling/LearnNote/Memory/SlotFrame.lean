import LearnNote.Memory.SlotRuns

namespace LearnNote.Memory

open Lib Linked Extents Transition

namespace MemoryPool

variable {c : SlotConfig} {s s' : MemoryPool} {l : List Nat} {t : Nat}

theorem Inv.memory_congr (h : Inv c s l) {m : Words} (hm : ∀ q ∈ s.carved, m q = s.memory q) :
    Inv c { s with memory := m } l := by
  refine ⟨h.chain.congr fun q hq => hm q (h.custody.known .free q hq), h.custody, fun t q old hpc => ?_, h.seen,
    h.carving⟩
  have hq : q ∈ spots l s.owned s.pc (.moving t) := by
    have hpc : s.pc t = .pushCas q old := hpc
    simp [spots, hpc, slotOf]
  exact (hm q (h.custody.known _ q hq)).trans (h.stored t q old hpc)

/-- What the calls of the pool do to the memory: nothing, the link of a slot that is given back is
stored, or that of a new block. -/
inductive Links (c : SlotConfig) (answer : Option Nat) (s s' : MemoryPool) : Prop
  | none (hm : s'.memory = s.memory) (hb : s'.blocks = s.blocks)
  | slot (t slot old : Nat) (hpc : s.pc t = .pushStore slot old) (hm : s'.memory = Function.update s.memory slot old)
      (hb : s'.blocks = s.blocks) (ho : s'.owned = s.owned)
  | block (b : Nat) (hfresh : operatorNew c answer s.blocks = some b)
      (hm : s'.memory = Function.update s.memory b s.firstBlock) (hb : s'.blocks = b :: s.blocks)

theorem links_advance {spurious : Bool} {answer : Option Nat} (hs : s.advance c t spurious answer = some s') :
    Links c answer s s' := by
  rw [advance] at hs
  cases hpc : s.pc t with
  | idle =>
      rw [hpc] at hs
      cases hs
  | popLoad | popNext | pushLoad =>
      rw [hpc] at hs
      cases hs
      exact .none rfl rfl
  | popCas | pushCas =>
      rw [hpc] at hs
      dsimp only at hs
      split at hs <;> cases hs <;> exact .none rfl rfl
  | pushStore slot old =>
      rw [hpc] at hs
      cases hs
      exact .slot t slot old hpc rfl rfl rfl
  | blockSection =>
      rw [hpc] at hs
      dsimp only at hs
      split at hs
      · cases hb : operatorNew c answer s.blocks with
        | none =>
            rw [hb] at hs
            cases hs
            exact .none rfl rfl
        | some b =>
            rw [hb] at hs
            cases hs
            exact .block b hb rfl rfl
      · cases hs
        exact .none rfl rfl

theorem eight_le (c : SlotConfig) : 8 ≤ c.slotSize := Nat.le_of_dvd c.pos c.whole

/-- A word that changes lies in a block, and outside of every slot with an owner. -/
theorem frame {answer : Option Nat} {l' : List Nat} (h : Inv c s l) (h' : Inv c s' l') (hl : Links c answer s s')
    {a : Nat} (ha : s'.memory a ≠ s.memory a) :
    (∃ b ∈ s'.blocks, Within (a, 8) (b, c.blockSize)) ∧
      ∀ u q, q ∈ s'.owned u → Apart (a, 8) (q, c.slotSize) := by
  have hsize := eight_le c
  have hroom := c.room
  cases hl with
  | none hm hb =>
      rw [hm] at ha
      exact absurd rfl ha
  | slot t slot old hpc hm hb ho =>
      have haslot : a = slot := by
        by_contra hne
        rw [hm, Function.update_of_ne hne] at ha
        exact ha rfl
      subst haslot
      have hmoving : a ∈ spots l s.owned s.pc (.moving t) := by simp [spots, hpc, slotOf]
      have hcarved := h.custody.known _ a hmoving
      obtain ⟨b, hbmem, hin⟩ := h.carving.inside a hcarved
      refine ⟨⟨b, hb ▸ hbmem, ?_⟩, fun u q hq => ?_⟩
      · simp only [Within] at hin ⊢
        omega
      · have howned : q ∈ spots l s.owned s.pc (.caller u) := by
          rw [ho] at hq
          exact hq
        have hne : a ≠ q := by
          rintro rfl
          cases h.custody.sole _ _ a hmoving howned
        have hap := h.carving.slot_apart hcarved (h.custody.known _ q howned) hne
        simp only [Apart] at hap ⊢
        omega
  | block b hfresh hm hb =>
      have hab : a = b := by
        by_contra hne
        rw [hm, Function.update_of_ne hne] at ha
        exact ha rfl
      subst hab
      refine ⟨⟨a, hb ▸ List.mem_cons_self, ?_⟩, fun u q hq => ?_⟩
      · simp only [Within]
        omega
      · obtain ⟨d, hd, hin⟩ := h'.carving.inside q (h'.custody.known (.caller u) q hq)
        rw [hb] at hd
        rcases List.mem_cons.mp hd with rfl | hd
        · simp only [Within, Apart] at hin ⊢
          omega
        · have hapart := (Option.filter_eq_some_iff.mp hfresh).2
          simp only [decide_eq_true_eq] at hapart
          have hap := hapart.2.2.2 d hd
          simp only [Within, Apart] at hin hap ⊢
          omega

def Act.answer : Act → Option Nat
  | .advance _ _ answer => answer
  | _ => none

def Act.isWrite : Act → Bool
  | .write .. => true
  | _ => false

theorem links_step {a : Act} (ha : a.isWrite = false) (hs : step c a s = some s') : Links c a.answer s s' := by
  cases a with
  | advance t spurious answer => exact links_advance hs
  | allocate | deallocate | hand =>
      obtain ⟨-, he⟩ := Option.ite_none_right_eq_some.mp hs
      cases he
      exact .none rfl rfl
  | write => cases ha

def Act.Spares (t slot : Nat) : Act → Prop
  | .deallocate u q => (u, q) ≠ (t, slot)
  | .hand u _ q => (u, q) ≠ (t, slot)
  | _ => True

theorem mem_setOwned_cons {u q slot : Nat} {r : List Nat} (hs : slot ∈ s.owned t) (hr : u = t → slot ∈ r) :
    slot ∈ (s.setOwned u (q :: r)).owned t := by
  by_cases hut : t = u
  · subst hut
    simp [setOwned, hr rfl]
  · simpa [setOwned, hut] using hs

theorem mem_setOwned_erase {u q slot : Nat} (hs : slot ∈ s.owned t) (hne : (u, q) ≠ (t, slot)) :
    slot ∈ (s.setOwned u ((s.owned u).erase q)).owned t := by
  by_cases hut : t = u
  · subst hut
    have hq : slot ≠ q := by
      rintro rfl
      exact hne rfl
    simpa [setOwned] using (List.mem_erase_of_ne hq).mpr hs
  · simpa [setOwned, hut] using hs

theorem owned_advance {u slot : Nat} {spurious : Bool} {answer : Option Nat}
    (hs : s.advance c u spurious answer = some s') (h : slot ∈ s.owned t) : slot ∈ s'.owned t := by
  have htake : ∀ s : MemoryPool, slot ∈ s.owned t → slot ∈ (s.takeSlot c u).owned t := by
    intro s h
    exact mem_setOwned_cons h (fun he => he ▸ h)
  rw [advance] at hs
  cases hpc : s.pc u with
  | idle =>
      rw [hpc] at hs
      cases hs
  | popLoad | popNext | pushLoad | pushStore =>
      rw [hpc] at hs
      cases hs
      exact h
  | popCas old new =>
      rw [hpc] at hs
      dsimp only at hs
      split at hs <;> cases hs
      · exact mem_setOwned_cons h (fun he => he ▸ h)
      · exact h
  | pushCas =>
      rw [hpc] at hs
      dsimp only at hs
      split at hs <;> cases hs <;> exact h
  | blockSection =>
      rw [hpc] at hs
      dsimp only at hs
      split at hs
      · split at hs <;> cases hs
        · exact h
        · exact htake _ h
      · cases hs
        exact htake s h

theorem owned_step {slot : Nat} {a : Act} (hs : step c a s = some s') (h : slot ∈ s.owned t) (ha : a.Spares t slot) :
    slot ∈ s'.owned t := by
  cases a with
  | allocate u =>
      obtain ⟨-, he⟩ := Option.ite_none_right_eq_some.mp hs
      cases he
      exact h
  | deallocate u q =>
      obtain ⟨-, he⟩ := Option.ite_none_right_eq_some.mp hs
      cases he
      exact mem_setOwned_erase h ha
  | advance u spurious answer => exact owned_advance hs h
  | hand u v q =>
      obtain ⟨-, he⟩ := Option.ite_none_right_eq_some.mp hs
      cases he
      refine mem_setOwned_cons (mem_setOwned_erase h ha) (fun he => he ▸ h)
  | write u q a v =>
      obtain ⟨-, he⟩ := Option.ite_none_right_eq_some.mp hs
      cases he
      exact h

/-- A pool in which no two calls are under way at once: what the call has read is still so. -/
structure Calm (s : MemoryPool) : Prop where
  sole : ∀ t u, s.pc t ≠ .idle → s.pc u ≠ .idle → t = u
  popNext : ∀ t old, s.pc t = .popNext old → s.freeList = old
  popCas : ∀ t old new, s.pc t = .popCas old new → s.freeList = old ∧ s.memory old = new
  block : ∀ t, s.pc t = .blockSection → s.freeList = 0

def Act.Begins (s : MemoryPool) : Act → Prop
  | .allocate _ | .deallocate _ _ => ∀ u, s.pc u = .idle
  | _ => True

theorem Calm.keeps (h : Calm s) (a : Act) : Keeps c a s := by
  cases a with
  | advance t spurious answer =>
      cases hpc : s.pc t with
      | popCas old new =>
          simp only [Keeps, hpc]
          exact fun _ _ => (h.popCas t old new hpc).2
      | blockSection =>
          simp only [Keeps, hpc]
          exact fun _ _ => h.block t hpc
      | _ => simp only [Keeps, hpc]
  | _ => trivial

theorem Calm.only (h : ∀ u, u ≠ t → s.pc u = .idle) {p : SlotPc} (hpc : s'.pc = Function.update s.pc t p)
    (hnext : ∀ old, p = .popNext old → s'.freeList = old)
    (hcas : ∀ old new, p = .popCas old new → s'.freeList = old ∧ s'.memory old = new)
    (hblock : p = .blockSection → s'.freeList = 0) : Calm s' := by
  have hidle : ∀ u, s'.pc u ≠ .idle → u = t := by
    intro u hu
    by_contra hne
    rw [hpc, Function.update_of_ne hne, h u hne] at hu
    exact hu rfl
  have hat : ∀ u q, s'.pc u = q → q ≠ .idle → p = q := by
    intro u q hu hq
    obtain rfl := hidle u (hu ▸ hq)
    rw [hpc, Function.update_self] at hu
    exact hu
  exact ⟨fun u v hu hv => (hidle u hu).trans (hidle v hv).symm, fun u old hu => hnext old (hat u _ hu nofun),
    fun u old new hu => hcas old new (hat u _ hu nofun), fun u hu => hblock (hat u _ hu nofun)⟩

theorem Calm.congr (h : Calm s) (hpc : s'.pc = s.pc) (hfree : s'.freeList = s.freeList)
    (hm : ∀ t old new, s.pc t = .popCas old new → s'.memory old = s.memory old) : Calm s' := by
  refine ⟨fun t u => ?_, fun t old => ?_, fun t old new ht => ?_, fun t => ?_⟩
  · rw [hpc]
    exact h.sole t u
  · rw [hpc, hfree]
    exact h.popNext t old
  · rw [hpc] at ht
    rw [hfree, hm t old new ht]
    exact h.popCas t old new ht
  · rw [hpc, hfree]
    exact h.block t

theorem Calm.advance {spurious : Bool} {answer : Option Nat} (h : Calm s)
    (hs : s.advance c t spurious answer = some s') : Calm s' := by
  have hothers : s.pc t ≠ .idle → ∀ u, u ≠ t → s.pc u = .idle := by
    intro ht u hu
    by_contra hne
    exact hu (h.sole u t hne ht)
  rw [MemoryPool.advance] at hs
  cases hpc : s.pc t with
  | idle =>
      rw [hpc] at hs
      cases hs
  | popLoad =>
      rw [hpc] at hs
      cases hs
      refine Calm.only (hothers (by simp [hpc])) rfl ?_ ?_ ?_
      · intro old he
        split at he <;> cases he
        rfl
      · intro old new he
        split at he <;> cases he
      · intro he
        split at he
        · assumption
        · cases he
  | popNext old =>
      rw [hpc] at hs
      cases hs
      refine Calm.only (hothers (by simp [hpc])) rfl (by simp) ?_ (by simp)
      rintro _ _ ⟨⟩
      exact ⟨h.popNext t old hpc, rfl⟩
  | popCas old new =>
      rw [hpc] at hs
      dsimp only at hs
      split at hs <;> cases hs <;> exact Calm.only (hothers (by simp [hpc])) rfl (by simp) (by simp) (by simp)
  | blockSection =>
      rw [hpc] at hs
      dsimp only at hs
      split at hs
      · split at hs <;> cases hs <;> exact Calm.only (hothers (by simp [hpc])) rfl (by simp) (by simp) (by simp)
      · cases hs
        exact Calm.only (hothers (by simp [hpc])) rfl (by simp) (by simp) (by simp)
  | pushLoad slot =>
      rw [hpc] at hs
      cases hs
      exact Calm.only (hothers (by simp [hpc])) rfl (by simp) (by simp) (by simp)
  | pushStore slot old =>
      rw [hpc] at hs
      cases hs
      exact Calm.only (hothers (by simp [hpc])) rfl (by simp) (by simp) (by simp)
  | pushCas slot old =>
      rw [hpc] at hs
      dsimp only at hs
      split at hs <;> cases hs <;> exact Calm.only (hothers (by simp [hpc])) rfl (by simp) (by simp) (by simp)

theorem Calm.step {a : Act} (h : Calm s) (ha : a.isWrite = false) (hbegin : a.Begins s) (hs : step c a s = some s') :
    Calm s' := by
  cases a with
  | allocate t =>
      obtain ⟨-, he⟩ := Option.ite_none_right_eq_some.mp hs
      cases he
      exact Calm.only (fun u _ => hbegin u) rfl nofun nofun nofun
  | deallocate t slot =>
      obtain ⟨-, he⟩ := Option.ite_none_right_eq_some.mp hs
      cases he
      exact Calm.only (fun u _ => hbegin u) rfl nofun nofun nofun
  | advance t spurious answer => exact h.advance hs
  | hand t u slot =>
      obtain ⟨-, he⟩ := Option.ite_none_right_eq_some.mp hs
      cases he
      exact h.congr rfl rfl (fun _ _ _ _ => rfl)
  | write => cases ha

theorem Calm.memory_congr (h : Calm s) (hinv : Inv c s l) {m : Words} (hm : ∀ q ∈ l, m q = s.memory q) :
    Calm { s with memory := m } := by
  refine h.congr rfl rfl (fun t old new ht => hm old ?_)
  have hfree := (h.popCas t old new ht).1
  have hseen := hinv.seen t
  rw [ht] at hseen
  have hne : s.freeList ≠ 0 := by
    intro h0
    exact hseen (congrArg some (hfree.symm.trans h0))
  obtain ⟨k, rfl, -⟩ := hinv.chain.exists_cons hne
  rw [hfree]
  exact List.mem_cons_self

end MemoryPool

end LearnNote.Memory
