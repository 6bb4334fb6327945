import LearnNote.Lib.Transition
import LearnNote.Memory.SlotInvariant

namespace LearnNote.Memory.MemoryPool

open Lib Linked Extents Transition

/-- The invariant after a step, with no slot lost if none was before and the step
loses none. -/
def Sound (c : SlotConfig) (s s' : MemoryPool) (l : List Nat) (keeps : Prop) : Prop :=
  ∃ l', Inv c s' l' ∧ (Kept s.carved (spots l s.owned s.pc) → keeps → Kept s'.carved (spots l' s'.owned s'.pc))

section steps

variable {c : SlotConfig} {s s' : MemoryPool} {l : List Nat} {t u slot old new : Nat} {p : SlotPc}

theorem setPc_sound (h : Inv c s l) (hslot : slotOf p = slotOf (s.pc t))
    (hstored : ∀ q old, p = .pushCas q old → s.memory q = old) (hseen : headOf p ≠ some 0) :
    Sound c s (s.setPc t p) l True := by
  refine ⟨l, h.setPc hslot hstored hseen, fun hk _ => ?_⟩
  have hspots : spots l (s.setPc t p).owned (s.setPc t p).pc = spots l s.owned s.pc := spots_still hslot
  rw [hspots]
  exact hk

/-- A pop that succeeds takes the head, and what the new head was read to be is
behind it on the free list. What lies between them is lost. -/
theorem popCas_sound (h : Inv c s l) (hpc : s.pc t = .popCas old new) (hold : s.freeList = old)
    (hlink : new = 0 ∨ Reaches s.memory (s.memory old) new) :
    Sound c s (({ s with freeList := new }.setOwned t (old :: s.owned t)).setPc t .idle) l (s.memory old = new) := by
  have h0 : s.freeList ≠ 0 := by
    intro h0
    have hs := h.seen t
    rw [hpc] at hs
    exact hs (congrArg some (hold.symm.trans h0))
  obtain ⟨k, rfl, hk⟩ := h.chain.exists_cons h0
  rw [hold] at hk
  obtain ⟨v, hv, hsub⟩ : ∃ v, Chain s.memory new v ∧ v.Sublist k := by
    rcases hlink with rfl | hr
    · exact ⟨[], rfl, List.nil_sublist k⟩
    · obtain ⟨u, v, rfl⟩ := List.append_of_mem ((hk.reaches_iff).mp hr)
      exact ⟨new :: v, hk.tail_of_append, List.sublist_append_right u _⟩
  have hcut : Custody s.carved (spots (s.freeList :: v) s.owned s.pc) := by
    have hdrop := h.custody.drop (i := .free) (hsub.cons_cons s.freeList).subperm
    rwa [← spots_free] at hdrop
  have hspots : spots v (Function.update s.owned t (old :: s.owned t)) (Function.update s.pc t .idle) =
      Function.update (Function.update (spots (s.freeList :: v) s.owned s.pc) .free v) (.caller t)
        (s.freeList :: s.owned t) := by
    rw [spots_still (by simp [hpc, slotOf]), spots_caller, ← spots_free, hold]
  have hperm : (spots (s.freeList :: v) s.owned s.pc .free).Perm (s.freeList :: v) := .refl _
  have hcust := hcut.move (j := .caller t) hperm (by simp)
  refine ⟨v, ⟨hv, hspots ▸ hcust, h.stored_update (by simp), h.seen_update (by simp [headOf]), h.carving⟩,
    fun hkept hsame => ?_⟩
  obtain rfl : k = v := hk.unique (hsame ▸ hv)
  have hmove := hkept.move (j := .caller t) hperm (by simp)
  exact hspots ▸ hmove

theorem deallocate_sound (h : Inv c s l) (hpc : s.pc t = .idle) (hs : slot ∈ s.owned t) :
    Sound c s ((s.setOwned t ((s.owned t).erase slot)).setPc t (.pushLoad slot)) l True := by
  have hspots : spots l (Function.update s.owned t ((s.owned t).erase slot)) (Function.update s.pc t (.pushLoad slot)) =
      Function.update (Function.update (spots l s.owned s.pc) (.caller t) ((s.owned t).erase slot)) (.moving t)
        (slot :: spots l s.owned s.pc (.moving t)) := by
    rw [spots_moving, spots_caller]
    simp [slotOf, spots, hpc]
  have hperm : (spots l s.owned s.pc (.caller t)).Perm (slot :: (s.owned t).erase slot) := List.perm_cons_erase hs
  have hcust := h.custody.move (j := .moving t) hperm (by simp)
  refine ⟨l, ⟨h.chain, hspots ▸ hcust, h.stored_update (by simp), h.seen_update (by simp [headOf]), h.carving⟩,
    fun hkept _ => ?_⟩
  have hmove := hkept.move (j := .moving t) hperm (by simp)
  exact hspots ▸ hmove

theorem hand_sound (h : Inv c s l) (htu : t ≠ u) (hs : slot ∈ s.owned t) :
    Sound c s ((s.setOwned t ((s.owned t).erase slot)).setOwned u (slot :: s.owned u)) l True := by
  have hspots : spots l (Function.update (Function.update s.owned t ((s.owned t).erase slot)) u (slot :: s.owned u)) s.pc =
      Function.update (Function.update (spots l s.owned s.pc) (.caller t) ((s.owned t).erase slot)) (.caller u)
        (slot :: spots l s.owned s.pc (.caller u)) := by
    rw [spots_caller, spots_caller]
    rfl
  have hperm : (spots l s.owned s.pc (.caller t)).Perm (slot :: (s.owned t).erase slot) := List.perm_cons_erase hs
  have hcust := h.custody.move (j := .caller u) hperm (by simpa using htu)
  refine ⟨l, ⟨h.chain, hspots ▸ hcust, h.stored, h.seen, h.carving⟩, fun hkept _ => ?_⟩
  have hmove := hkept.move (j := .caller u) hperm (by simpa using htu)
  exact hspots ▸ hmove

theorem pushStore_sound (h : Inv c s l) (hpc : s.pc t = .pushStore slot old) :
    Sound c s ({ s with memory := Function.update s.memory slot old }.setPc t (.pushCas slot old)) l True := by
  have hspots : spots l s.owned (Function.update s.pc t (.pushCas slot old)) = spots l s.owned s.pc :=
    spots_still (by rw [hpc]; rfl)
  have hin : slot ∈ spots l s.owned s.pc (.moving t) := by simp [spots, hpc, slotOf]
  have hfree : slot ∉ l := by
    intro hl
    have he := h.custody.sole .free (.moving t) slot hl hin
    cases he
  refine ⟨l, ⟨h.chain.update hfree, hspots ▸ h.custody, ?_, h.seen_update (by simp [headOf]), h.carving⟩,
    fun hkept _ => hspots ▸ hkept⟩
  intro v q old' hv
  by_cases hvt : v = t
  · subst hvt
    simp only [MemoryPool.setPc, Function.update_self, SlotPc.pushCas.injEq] at hv
    simp [← hv.1, hv.2, MemoryPool.setPc]
  · simp only [MemoryPool.setPc, Function.update_of_ne hvt] at hv
    have hq : q ≠ slot := by
      rintro rfl
      have he := h.custody.sole (.moving v) (.moving t) q (by simp [spots, hv, slotOf]) hin
      simp only [Spot.moving.injEq] at he
      exact hvt he
    simp only [MemoryPool.setPc, Function.update_of_ne hq]
    exact h.stored v q old' hv

theorem pushCas_sound (h : Inv c s l) (hpc : s.pc t = .pushCas slot old) (hold : s.freeList = old) :
    Sound c s ({ s with freeList := slot }.setPc t .idle) l True := by
  have hspots : spots (slot :: l) s.owned (Function.update s.pc t .idle) =
      Function.update (Function.update (spots l s.owned s.pc) (.moving t) []) .free
        (slot :: spots l s.owned s.pc .free) := by
    rw [spots_moving, spots_free (l := l)]
    exact Function.update_comm (by simp) _ _ _
  have hperm : (spots l s.owned s.pc (.moving t)).Perm (slot :: []) := by simp [spots, hpc, slotOf]
  have hin : slot ∈ spots l s.owned s.pc (.moving t) := by simp [spots, hpc, slotOf]
  have hcust := h.custody.move (j := .free) hperm (by simp)
  have hchain : Chain s.memory slot (slot :: l) := by
    refine ⟨rfl, h.carving.slot_pos (h.custody.known _ _ hin), ?_⟩
    rw [h.stored t slot old hpc, ← hold]
    exact h.chain
  refine ⟨slot :: l, ⟨hchain, hspots ▸ hcust, h.stored_update (by simp), h.seen_update (by simp [headOf]), h.carving⟩,
    fun hkept _ => ?_⟩
  have hmove := hkept.move (j := .free) hperm (by simp)
  exact hspots ▸ hmove

theorem takeSlot_sound (h : Inv c s l) (hpc : slotOf (s.pc t) = []) (hcur : s.curSlot < s.lastSlot) :
    Sound c s (s.takeSlot c t) l True := by
  have hspots : spots l (Function.update s.owned t (s.curSlot :: s.owned t)) (Function.update s.pc t .idle) =
      Function.update (spots l s.owned s.pc) (.caller t) (s.curSlot :: spots l s.owned s.pc (.caller t)) := by
    rw [spots_still (by rw [hpc]; rfl), spots_caller]
    rfl
  have hcust := h.custody.add (i := .caller t) (h.carving.fresh hcur)
  refine ⟨l, ⟨h.chain, hspots ▸ hcust, h.stored_update (by simp), h.seen_update (by simp [headOf]),
    h.carving.take hcur⟩, fun hkept _ => ?_⟩
  have hadd := hkept.add (a := s.curSlot) (i := .caller t)
  exact hspots ▸ hadd

/-- A new block makes the pool forget its free list. -/
theorem allocateNewBlock_inv (h : Inv c s l) {b : Nat} (hb : ∀ a ∈ s.blocks, Apart (b, c.blockSize) (a, c.blockSize)) :
    Inv c (s.allocateNewBlock c b) [] ∧ (s.allocateNewBlock c b).curSlot < (s.allocateNewBlock c b).lastSlot ∧
      (Kept s.carved (spots l s.owned s.pc) → l = [] →
        Kept (s.allocateNewBlock c b).carved (spots [] s.owned s.pc)) := by
  obtain ⟨hcarving, hlt⟩ := h.carving.refill hb
  have hroom := c.room
  have hoff : ∀ a ∈ s.carved, a ≠ b := by
    intro a ha he
    obtain ⟨d, hd, hw⟩ := h.carving.inside a ha
    have hap := hb d hd
    have hpos := c.pos
    simp only [Within, Apart] at hw hap
    omega
  have hcust := h.custody.drop (i := .free) (l := []) (List.nil_subperm)
  rw [← spots_free] at hcust
  refine ⟨⟨rfl, hcust, ?_, h.seen, hcarving⟩, hlt, ?_⟩
  · intro u q old hu
    have hq : q ≠ b := hoff q (h.custody.known (.moving u) q (by
      have hu' : s.pc u = .pushCas q old := hu
      simp [spots, hu', slotOf]))
    exact (Function.update_of_ne hq _ _).trans (h.stored u q old hu)
  · rintro hkept rfl
    exact hkept

theorem write_sound (h : Inv c s l) (hs : slot ∈ s.owned t) {a v : Nat} (ha : slot ≤ a) (ha' : a < slot + c.slotSize) :
    Sound c s { s with memory := Function.update s.memory a v } l True := by
  have hin : slot ∈ spots l s.owned s.pc (.caller t) := hs
  have hoff : ∀ i q, i ≠ .caller t → q ∈ spots l s.owned s.pc i → q ≠ a := by
    rintro i q hi hq rfl
    have hne : slot ≠ q := by
      rintro rfl
      exact hi (h.custody.sole i (.caller t) slot hq hin)
    have hap := h.carving.slot_apart (h.custody.known _ _ hin) (h.custody.known _ _ hq) hne
    have hpos := c.pos
    simp only [Apart] at hap
    omega
  refine ⟨l, ⟨?_, h.custody, ?_, h.seen, h.carving⟩, fun hkept _ => hkept⟩
  · exact h.chain.update (fun hl => hoff .free a (by simp) hl rfl)
  · intro u q old hu
    have hu' : s.pc u = .pushCas q old := hu
    have hq : q ≠ a := hoff (.moving u) q (by simp) (by simp [spots, hu', slotOf])
    exact (Function.update_of_ne hq _ _).trans (h.stored u q old hu)

/-- Where a pop succeeds, the new head it read is null or on the free list behind
the old one. -/
def Behind : Act → MemoryPool → Prop
  | .advance t spurious _, s =>
      match s.pc t with
      | .popCas old new => s.freeList = old → spurious = false → new = 0 ∨ Reaches s.memory (s.memory old) new
      | _ => True
  | _, _ => True

/-- Where a pop succeeds, the head's link is still the one it read; and where a
thread gets a new block, no slot is free. -/
def Keeps (c : SlotConfig) : Act → MemoryPool → Prop
  | .advance t spurious answer, s =>
      match s.pc t with
      | .popCas old new => s.freeList = old → spurious = false → s.memory old = new
      | .blockSection => s.lastSlot ≤ s.curSlot → operatorNew c answer s.blocks ≠ none → s.freeList = 0
      | _ => True
  | _, _ => True

instance (c : SlotConfig) (a : Act) (s : MemoryPool) : Decidable (Keeps c a s) := by
  unfold Keeps
  split
  · split <;> infer_instance
  · infer_instance

theorem keeps_behind (a : Act) (s : MemoryPool) (hk : Keeps c a s) : Behind a s := by
  cases a with
  | advance t spurious answer =>
      cases hpc : s.pc t with
      | popCas old new =>
          simp only [Keeps, Behind, hpc] at hk ⊢
          intro hold hspur
          obtain rfl := hk hold hspur
          exact or_iff_not_imp_left.mpr (fun h0 => .here h0)
      | _ => simp only [Behind, hpc]
  | _ => trivial

theorem blockSection_sound (h : Inv c s l) (hpc : s.pc t = .blockSection) {spurious : Bool} {answer : Option Nat}
    (hs : s.advance c t spurious answer = some s') :
    Sound c s s' l (Keeps c (.advance t spurious answer) s) := by
  have hslot : slotOf (s.pc t) = [] := by rw [hpc]; rfl
  simp only [advance, hpc] at hs
  by_cases hcur : s.curSlot < s.lastSlot
  · rw [if_neg (not_le.mpr hcur), Option.some.injEq] at hs
    subst hs
    obtain ⟨l', hinv, hk⟩ := takeSlot_sound h hslot hcur
    exact ⟨l', hinv, fun hkept _ => hk hkept trivial⟩
  · rw [if_pos (not_lt.mp hcur)] at hs
    cases hb : operatorNew c answer s.blocks with
    | none =>
        simp only [hb, Option.some.injEq] at hs
        subst hs
        obtain ⟨l', hinv, hk⟩ := setPc_sound h (t := t) (p := .idle) (by rw [hpc]; rfl) (by simp) (by simp [headOf])
        exact ⟨l', hinv, fun hkept _ => hk hkept trivial⟩
    | some b =>
        simp only [hb, Option.some.injEq] at hs
        subst hs
        have hfresh := (Option.filter_eq_some_iff.mp hb).2
        simp only [decide_eq_true_eq] at hfresh
        obtain ⟨hinv, hlt, hkeep⟩ := allocateNewBlock_inv h hfresh.2.2.2
        obtain ⟨l', hinv', hk⟩ := takeSlot_sound hinv hslot hlt
        refine ⟨l', hinv', fun hkept hkeeps => hk (hkeep hkept ?_) trivial⟩
        simp only [Keeps, hpc] at hkeeps
        have h0 := hkeeps (not_lt.mp hcur) (by simp [hb])
        have hc := h.chain
        rwa [h0, chain_null] at hc

theorem advance_sound (h : Inv c s l) {spurious : Bool} {answer : Option Nat}
    (hless : Behind (.advance t spurious answer) s) (hs : s.advance c t spurious answer = some s') :
    Sound c s s' l (Keeps c (.advance t spurious answer) s) := by
  have hweak : ∀ {s'}, Sound c s s' l True → Sound c s s' l (Keeps c (.advance t spurious answer) s) :=
    fun ⟨l', hinv, hk⟩ => ⟨l', hinv, fun hkept _ => hk hkept trivial⟩
  cases hpc : s.pc t with
  | idle => simp [advance, hpc] at hs
  | popLoad =>
      simp only [advance, hpc, Option.some.injEq] at hs
      subst hs
      apply hweak
      by_cases h0 : s.freeList = 0
      · rw [if_pos h0]
        exact setPc_sound h (by rw [hpc]; rfl) (by simp) (by simp [headOf])
      · rw [if_neg h0]
        exact setPc_sound h (by rw [hpc]; rfl) (by simp) (by simpa [headOf] using h0)
  | popNext old =>
      simp only [advance, hpc, Option.some.injEq] at hs
      subst hs
      have hseen := h.seen t
      rw [hpc] at hseen
      exact hweak (setPc_sound h (by rw [hpc]; rfl) (by simp) hseen)
  | popCas old new =>
      simp only [advance, hpc] at hs
      split at hs
      · rename_i hgo
        cases hs
        have hspur : spurious = false := by simpa using hgo.2
        simp only [Behind, Keeps, hpc] at hless ⊢
        obtain ⟨l', hinv, hk⟩ := popCas_sound h hpc hgo.1 (hless hgo.1 hspur)
        exact ⟨l', hinv, fun hkept hkeeps => hk hkept (hkeeps hgo.1 hspur)⟩
      · cases hs
        exact hweak (setPc_sound h (by rw [hpc]; rfl) (by simp) (by simp [headOf]))
  | blockSection => exact blockSection_sound h hpc hs
  | pushLoad slot =>
      simp only [advance, hpc, Option.some.injEq] at hs
      subst hs
      exact hweak (setPc_sound h (by rw [hpc]; rfl) (by simp) (by simp [headOf]))
  | pushStore slot old =>
      simp only [advance, hpc, Option.some.injEq] at hs
      subst hs
      exact hweak (pushStore_sound h hpc)
  | pushCas slot old =>
      simp only [advance, hpc] at hs
      split at hs
      · rename_i hgo
        cases hs
        exact hweak (pushCas_sound h hpc hgo.1)
      · cases hs
        exact hweak (setPc_sound h (by rw [hpc]; rfl) (by simp) (by simp [headOf]))

theorem step_sound (h : Inv c s l) {a : Act} (hless : Behind a s) (hs : step c a s = some s') :
    Sound c s s' l (Keeps c a s) := by
  have hweak : ∀ {s'}, Sound c s s' l True → Sound c s s' l (Keeps c a s) :=
    fun ⟨l', hinv, hk⟩ => ⟨l', hinv, fun hkept _ => hk hkept trivial⟩
  cases a with
  | allocate t =>
      simp only [step, Option.ite_none_right_eq_some, Option.some.injEq] at hs
      obtain ⟨hpc, rfl⟩ := hs
      exact hweak (setPc_sound h (by rw [hpc]; rfl) (by simp) (by simp [headOf]))
  | deallocate t slot =>
      simp only [step, Option.ite_none_right_eq_some, Option.some.injEq] at hs
      obtain ⟨⟨hpc, hm⟩, rfl⟩ := hs
      exact hweak (deallocate_sound h hpc hm)
  | advance t spurious answer => exact advance_sound h hless hs
  | hand t u slot =>
      simp only [step, Option.ite_none_right_eq_some, Option.some.injEq] at hs
      obtain ⟨⟨htu, hm⟩, rfl⟩ := hs
      exact hweak (hand_sound h htu hm)
  | write t slot a v =>
      simp only [step, Option.ite_none_right_eq_some, Option.some.injEq] at hs
      obtain ⟨⟨hm, ha, ha'⟩, rfl⟩ := hs
      exact hweak (write_sound h hm ha ha')

end steps

/-- A slot has one owner, and a slot with an owner is not free. -/
structure SoleOwner (s : MemoryPool) : Prop where
  once : ∀ t, (s.owned t).Nodup
  sole : ∀ t u slot, slot ∈ s.owned t → slot ∈ s.owned u → t = u
  not_free : ∀ t slot, slot ∈ s.owned t → ¬ Reaches s.memory s.freeList slot

/-- A carved slot is owned, in the hands of one unfinished operation, or free. -/
def Accounted (s : MemoryPool) (slot : Nat) : Prop :=
  (∃ t, slot ∈ s.owned t) ∨ (∃ t, slot ∈ slotOf (s.pc t) ∧ ∀ u, slot ∈ slotOf (s.pc u) → u = t) ∨
    Reaches s.memory s.freeList slot

section runs

variable {c : SlotConfig} {s : MemoryPool} {l : List Nat}

theorem reachable_inv (h : Reachable start (step c) Behind s) : ∃ l, Inv c s l := by
  refine h.invariant (I := fun s => ∃ l, Inv c s l) ?_ ?_
  · rintro s ⟨m, rfl⟩
    exact ⟨_, Inv.init c m⟩
  · rintro a s t ⟨l, hinv⟩ hc hs
    obtain ⟨l', hinv', -⟩ := step_sound hinv hc hs
    exact ⟨l', hinv'⟩

theorem reachable_kept (h : Reachable start (step c) (Keeps c) s) :
    ∃ l, Inv c s l ∧ Kept s.carved (spots l s.owned s.pc) := by
  refine h.invariant (I := fun s => ∃ l, Inv c s l ∧ Kept s.carved (spots l s.owned s.pc)) ?_ ?_
  · rintro s ⟨m, rfl⟩
    exact ⟨_, Inv.init c m, by simp [Kept, init]⟩
  · rintro a s t ⟨l, hinv, hk⟩ hc hs
    obtain ⟨l', hinv', hk'⟩ := step_sound hinv (keeps_behind a s hc) hs
    exact ⟨l', hinv', hk' hk hc⟩

/-- No slot gets a second owner while every pop puts a free slot at the head. -/
theorem slots_sole_owner (h : Reachable start (step c) Behind s) : SoleOwner s := by
  obtain ⟨l, hinv⟩ := reachable_inv h
  refine ⟨fun t => hinv.custody.once (.caller t), ?_, ?_⟩
  · intro t u slot ht hu
    have he := hinv.custody.sole (.caller t) (.caller u) slot ht hu
    simpa using he
  · intro t slot ht hr
    have he := hinv.custody.sole (.caller t) .free slot ht (hinv.chain.reaches_iff.mp hr)
    cases he

/-- No slot is lost while also no list in use is cleared. -/
theorem slots_accounted (h : Reachable start (step c) (Keeps c) s) : ∀ slot ∈ s.carved, Accounted s slot := by
  obtain ⟨l, hinv, hk⟩ := reachable_kept h
  intro slot hs
  obtain ⟨i, hi⟩ := hk slot hs
  cases i with
  | free => exact .inr (.inr (hinv.chain.reaches_iff.mpr hi))
  | caller t => exact .inl ⟨t, hi⟩
  | moving t =>
      refine .inr (.inl ⟨t, hi, fun u hu => ?_⟩)
      have he := hinv.custody.sole (.moving u) (.moving t) slot hu hi
      simpa using he

end runs

section frame

variable {c : SlotConfig} {s s' : MemoryPool} {u : Nat}

def Act.threads : Act → List Nat
  | .allocate t => [t]
  | .deallocate t _ => [t]
  | .advance t _ _ => [t]
  | .hand t u _ => [t, u]
  | .write .. => []

theorem advance_other {t : Nat} {spurious : Bool} {answer : Option Nat} (h : s.advance c t spurious answer = some s')
    (hu : u ≠ t) : s'.owned u = s.owned u ∧ s'.pc u = s.pc u := by
  cases hpc : s.pc t with
  | idle => simp [advance, hpc] at h
  | popCas old new =>
      simp only [advance, hpc] at h
      split at h <;> (cases h; simp [setPc, setOwned, hu])
  | blockSection =>
      simp only [advance, hpc] at h
      split at h
      · split at h <;> (cases h; simp [setPc, takeSlot, allocateNewBlock, hu])
      · cases h
        simp [takeSlot, hu]
  | pushCas slot old =>
      simp only [advance, hpc] at h
      split at h <;> (cases h; simp [setPc, hu])
  | _ =>
      simp only [advance, hpc, Option.some.injEq] at h
      subst h
      simp [setPc, hu]

theorem step_other {a : Act} (h : step c a s = some s') (hu : u ∉ a.threads) :
    s'.owned u = s.owned u ∧ s'.pc u = s.pc u := by
  cases a with
  | allocate t =>
      simp only [step, Option.ite_none_right_eq_some, Option.some.injEq] at h
      obtain ⟨-, rfl⟩ := h
      have hne : u ≠ t := by simpa [Act.threads] using hu
      simp [setPc, hne]
  | deallocate t slot =>
      simp only [step, Option.ite_none_right_eq_some, Option.some.injEq] at h
      obtain ⟨-, rfl⟩ := h
      have hne : u ≠ t := by simpa [Act.threads] using hu
      simp [setPc, setOwned, hne]
  | advance t spurious answer => exact advance_other h (by simpa [Act.threads] using hu)
  | hand t v slot =>
      simp only [step, Option.ite_none_right_eq_some, Option.some.injEq] at h
      obtain ⟨-, rfl⟩ := h
      have hne : u ≠ t ∧ u ≠ v := by simpa [Act.threads] using hu
      simp [setOwned, hne]
  | write t slot a v =>
      simp only [step, Option.ite_none_right_eq_some, Option.some.injEq] at h
      obtain ⟨-, rfl⟩ := h
      exact ⟨rfl, rfl⟩

theorem run_other {as : List Act} (h : run (step c) as s = some s') (hu : ∀ a ∈ as, u ∉ a.threads) :
    s'.owned u = s.owned u ∧ s'.pc u = s.pc u := by
  induction as generalizing s with
  | nil =>
      cases h
      exact ⟨rfl, rfl⟩
  | cons a as ih =>
      obtain ⟨v, hs, hr⟩ := Option.bind_eq_some_iff.mp h
      have h1 := step_other hs (hu a List.mem_cons_self)
      have h2 := ih hr (fun b hb => hu b (List.mem_cons_of_mem _ hb))
      exact ⟨h2.1.trans h1.1, h2.2.trans h1.2⟩

end frame

section examples

def small : SlotConfig := HashBucket.config 0 (by decide)

def large : SlotConfig := HashBucket.config 63 (by decide)

def blank : MemoryPool := init (fun _ => 0)

def take (t : Nat) (answer : Option Nat) : List Act :=
  [.allocate t, .advance t false none, .advance t false answer]

def give (t slot : Nat) : List Act :=
  [.deallocate t slot, .advance t false none, .advance t false none, .advance t false none]

def pop (t : Nat) : List Act :=
  [.allocate t, .advance t false none, .advance t false none, .advance t false none]

def exchange : List Act := take 2 (some 4096) ++ take 2 none ++ give 2 4112 ++ give 2 4104 ++ pop 1

/-- Thread 1 has read the head and its link; thread 2 takes both slots and frees the first. -/
def swap : List Act :=
  take 2 (some 4096) ++ take 2 none ++ give 2 4112 ++ give 2 4104 ++
    [.allocate 1, .advance 1 false none, .advance 1 false none] ++ pop 2 ++ pop 2 ++ give 2 4104 ++
    [.advance 1 false none]

/-- Seven slots fill the block; thread 1 finds no free slot, thread 2 frees one, and
thread 1 gets a new block. -/
def refill : List Act :=
  take 2 (some 4096) ++ (List.replicate 6 (take 1 none)).flatten ++ [.allocate 1, .advance 1 false none] ++
    give 2 4608 ++ [.advance 1 false (some 8192)]

theorem slots_sole_owner_exchange :
    ∃ s, Reachable start (step small) Behind s ∧ s.owned 1 = [4104] ∧ s.freeList = 4112 ∧ SoleOwner s := by
  have hrun : (run (guarded (step small) (Keeps small)) exchange blank).map (fun s => (s.owned 1, s.freeList)) =
      some ([4104], 4112) := by decide +kernel
  obtain ⟨s, hr, he⟩ := reachable_of_run start hrun ⟨_, rfl⟩
  have hr : Reachable start (step small) Behind s := hr.weaken keeps_behind
  exact ⟨s, hr, congrArg Prod.fst he, congrArg Prod.snd he, slots_sole_owner hr⟩

/-- The compare-exchange of thread 1 succeeds and puts a slot of thread 2 on the free list. -/
theorem swapped_slot_has_owner :
    ¬ ∀ c s, Reachable start (step c) always s → SoleOwner s := by
  intro h
  have hrun : (run (guarded (step small) always) swap blank).map (fun s => (s.owned 2, s.freeList)) =
      some ([4112], 4112) := by decide +kernel
  obtain ⟨s, hr, he⟩ := reachable_of_run start hrun ⟨_, rfl⟩
  simp only [Prod.mk.injEq] at he
  refine (h small s hr).not_free 2 4112 (by simp [he.1]) ?_
  rw [he.2]
  exact .here (by decide)

theorem slots_accounted_exchange :
    ∃ s, Reachable start (step small) (Keeps small) s ∧ s.carved = [4112, 4104] ∧ ∀ slot ∈ s.carved, Accounted s slot := by
  have hrun : (run (guarded (step small) (Keeps small)) exchange blank).map (fun s => s.carved) =
      some [4112, 4104] := by decide +kernel
  obtain ⟨s, hr, he⟩ := reachable_of_run start hrun ⟨_, rfl⟩
  exact ⟨s, hr, he, slots_accounted hr⟩

/-- The slot freed before the new block is nowhere. -/
theorem cleared_slot_lost :
    ¬ ∀ c s, Reachable start (step c) always s → ∀ slot ∈ s.carved, Accounted s slot := by
  intro h
  have hrun : (run (guarded (step large) always) refill blank).map
      (fun s => (decide (4608 ∈ s.carved), decide (4608 ∈ s.owned 1 ++ s.owned 2), s.pc 1, s.pc 2, s.freeList)) =
      some (true, false, .idle, .idle, 0) := by decide +kernel
  obtain ⟨s, hs, he⟩ := Option.map_eq_some_iff.mp hrun
  simp only [Prod.mk.injEq, decide_eq_true_eq, decide_eq_false_iff_not, List.mem_append, not_or] at he
  obtain ⟨hcarved, ⟨ho1, ho2⟩, hp1, hp2, hfree⟩ := he
  have hthreads : ∀ a ∈ refill, a.threads = [1] ∨ a.threads = [2] := by decide +kernel
  have hother : ∀ u, u ≠ 1 → u ≠ 2 → s.owned u = [] ∧ s.pc u = .idle := by
    intro u h1 h2
    refine run_other (guarded_always ▸ hs) ?_
    intro a ha
    rcases hthreads a ha with ht | ht
    · simpa [ht] using h1
    · simpa [ht] using h2
  rcases h large s (Reachable.run (.start ⟨_, rfl⟩) _ hs) 4608 hcarved with ⟨t, ht⟩ | ⟨t, ht, -⟩ | hr
  · by_cases h1 : t = 1
    · exact ho1 (h1 ▸ ht)
    · by_cases h2 : t = 2
      · exact ho2 (h2 ▸ ht)
      · rw [(hother t h1 h2).1] at ht
        cases ht
  · have hidle : s.pc t = .idle := by
      by_cases h1 : t = 1
      · exact h1 ▸ hp1
      · by_cases h2 : t = 2
        · exact h2 ▸ hp2
        · exact (hother t h1 h2).2
    rw [hidle] at ht
    cases ht
  · rw [hfree] at hr
    cases hr with
    | next h0 _ => exact h0 rfl

end examples

end LearnNote.Memory.MemoryPool
