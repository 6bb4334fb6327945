import LearnNote.Memory.PoolRuns

namespace LearnNote.Memory

open Lib Linked Extents Transition SizeClass ThreadCache

namespace CentralCache

variable {i p a : Nat} {m : Words} {c : CentralCache}

theorem publish_off (ha : a ∉ LeveledMemoryPool.blocks i p) : (publish i p m c).1 a = m a := by
  obtain ⟨l, hl⟩ := LeveledMemoryPool.blocks_eq i p
  have hp : a ≠ p := by
    rintro rfl
    exact ha (by rw [hl]; exact List.mem_cons_self)
  rw [publish]
  split
  next hn =>
    have hoff : ∀ j < blockNum i, a ≠ p + j * blockSize i := by
      rintro j hj rfl
      refine ha (List.mem_map.mpr ⟨j, List.mem_range.mpr ?_, rfl⟩)
      exact Nat.lt_of_lt_of_le hj (Nat.le_max_left _ _)
    change Function.update (carve p (blockSize i) (blockNum i) m) p 0 a = m a
    rw [Function.update_of_ne hp, carve_off (by omega) hoff]
  next => rfl

end CentralCache

namespace LeveledMemoryPool

variable {s s' : LeveledMemoryPool} {lists : Place → List Nat} {act : Act} {t p size a : Nat}

def Act.isWrite : Act → Bool
  | .write .. => true
  | _ => false

def Act.freed : Act → Option Nat
  | .deallocate _ p _ => some p
  | _ => none

/-- Where a step of the allocator stores: the links of blocks on a list, that of a block being freed,
those of a span being carved, and a mapping that is new. -/
inductive Stores (s : LeveledMemoryPool) (lists : Place → List Nat) (freed : Option Nat) (a : Nat) : Prop
  | listed (k : Place) (h : a ∈ lists k)
  | freed (h : freed = some a)
  | carved (t i p : Nat) (h : (s.pc t).span = some (p, spanBytes i)) (ha : a ∈ blocks i p)
  | mapped (r : Nat × Nat) (h : ∀ w ∈ s.os.mapped, Apart r w) (ha : Covers r a)

theorem beginDeallocate_memory (h : Inv s lists) (hp : (p, size) ∈ s.held)
    (ha : (s.beginDeallocate t p size).os.memory a ≠ s.os.memory a) : Stores s lists (some p) a := by
  have hgiven := h.shelf.given _ hp
  have hp0 : p ≠ 0 := h.ground.block_pos hgiven
  have htake := h.shelf.take (i := Place.cache t (getIndex size)) hp hp0 rfl
  obtain ⟨tc, m, -, hm, hd⟩ := deallocate_cases p size s.os.memory (s.thread t)
  change Shelf (Function.update s.os.memory p ((s.thread t).freeList (getIndex size))) _ _ _ _ _ at htake
  rw [← hm] at htake
  have hchain := htake.owned.chain (.cache t (getIndex size))
  simp only [Function.update_self] at hchain
  by_cases hap : a = p
  · exact .freed (by rw [hap])
  have hma : m a = s.os.memory a := by rw [hm, Function.update_of_ne hap]
  rcases hd with ⟨hd, -⟩ | ⟨node, hnode, hn0, -, -, hd⟩
  · simp only [beginDeallocate, hd] at ha
    exact absurd hma ha
  · obtain ⟨u, r, hl, -⟩ := splitNode_spec hchain hp0 _ (hnode ▸ hn0)
    rw [← hnode] at hl
    simp only [beginDeallocate, hd] at ha
    have han : a = node := by
      by_contra hne
      exact ha ((Function.update_of_ne hne 0 m).trans hma)
    have hmem : node ∈ p :: lists (.cache t (getIndex size)) := by
      rw [hl]
      exact List.mem_append_right u List.mem_cons_self
    exact .listed (.cache t (getIndex size)) (List.mem_of_ne_of_mem hap (han ▸ hmem))

theorem advance_memory (h : Inv s lists) {env : Env} {fuel : Nat} (hs : s.advance t env fuel = some s')
    (ha : s'.os.memory a ≠ s.os.memory a) : Stores s lists none a := by
  cases hpc : s.pc t with
  | idle => simp [advance, hpc] at hs
  | fetchRange size i =>
      obtain ⟨hi, -⟩ := h.index_eq (t := t) (i := i) (by rw [hpc]; rfl)
      simp only [advance, hpc] at hs
      cases hb : s.central.beginFetch i s.os with
      | none => simp [hb] at hs
      | some r =>
          obtain ⟨-, ⟨h0, rfl⟩ | ⟨-, rfl⟩⟩ := CentralCache.beginFetch_cases hi hb
          · simp only [hb, h0, ↓reduceIte, Option.some.injEq] at hs
            subst hs
            have hat : a = s.central.centralFreeList i := by
              by_contra hne
              exact ha (Function.update_of_ne hne _ _)
            rw [hat]
            exact .listed (.central i) (h.shelf.head_mem (i := Place.central i) h0)
          · simp only [hb, Option.some.injEq] at hs
            subst hs
            exact absurd rfl ha
  | fetchSpan size i =>
      simp only [advance, hpc] at hs
      cases hf : CentralCache.fetchFromPageCache env (blockSize i) s.os s.page with
      | none => simp [hf] at hs
      | some r =>
          obtain ⟨r, os, page⟩ := r
          simp only [hf, Option.some.injEq] at hs
          subst hs
          obtain ⟨-, ⟨-, rfl⟩ | ⟨q, hfresh, rfl, -⟩⟩ := PageCache.allocateSpan_empty h.page hf
          · exact absurd rfl ha
          · refine .mapped _ hfresh.2.2.2.2 ?_
            by_contra hcov
            refine ha (memset_of_notMem ?_)
            simp only [Covers] at hcov
            omega
  | fetchDone size i r =>
      simp only [advance, hpc] at hs
      cases r with
      | badAlloc =>
          simp only [CentralCache.endFetch, Option.some.injEq] at hs
          subst hs
          exact absurd rfl ha
      | ptr p =>
          by_cases hp : p = 0
          · simp only [CentralCache.endFetch, hp, ↓reduceIte, Option.some.injEq] at hs
            subst hs
            exact absurd rfl ha
          · simp only [CentralCache.endFetch, if_neg hp, Option.some.injEq] at hs
            subst hs
            refine .carved t i p (by simp [hpc, Pc.span, hp]) ?_
            by_contra hoff
            exact ha (CentralCache.publish_off hoff)
  | fetched size i start =>
      simp only [advance, hpc, Option.map_eq_some_iff] at hs
      obtain ⟨tc, -, rfl⟩ := hs
      exact absurd rfl ha
  | returnRange start limit i =>
      obtain ⟨h0, hi⟩ := (h.busy t).back start limit i hpc
      have hchain := h.shelf.owned.chain (.transit t)
      simp only [headOf, hpc, Pc.block] at hchain
      obtain ⟨u, k, hl, -⟩ := CentralCache.lastOf_spec hchain h0 (limit - 1)
      simp only [advance, hpc, Option.map_eq_some_iff] at hs
      obtain ⟨r, hr, rfl⟩ := hs
      obtain ⟨-, rfl⟩ := CentralCache.returnRange_eq h0 hi hr
      have hat : a = CentralCache.lastOf s.os.memory (limit - 1) start := by
        by_contra hne
        exact ha (Function.update_of_ne hne _ _)
      refine .listed (.transit t) ?_
      rw [hat, hl]
      exact List.mem_append_right u List.mem_cons_self

theorem step_memory (h : Inv s lists) (hw : act.isWrite = false) (hs : step act s = some s')
    (ha : s'.os.memory a ≠ s.os.memory a) : Stores s lists act.freed a := by
  cases act with
  | allocate t size =>
      simp only [step, Option.ite_none_right_eq_some, Option.some.injEq] at hs
      obtain ⟨-, rfl⟩ := hs
      refine absurd ?_ ha
      simp only [beginAllocate]
      split <;> rfl
  | deallocate t p size =>
      simp only [step, Option.ite_none_right_eq_some, Option.some.injEq] at hs
      obtain ⟨⟨-, hp⟩, rfl⟩ := hs
      exact beginDeallocate_memory h hp ha
  | «continue» t env fuel => exact advance_memory h hs ha
  | write => cases hw

theorem advance_held {env : Env} {fuel : Nat} (hs : s.advance t env fuel = some s') : s.held ⊆ s'.held := by
  cases hpc : s.pc t with
  | idle => simp [advance, hpc] at hs
  | fetchRange size i =>
      simp only [advance, hpc] at hs
      split at hs
      · cases hs
      · cases hs
        exact List.Subset.refl _
      · split at hs <;> (cases hs; exact List.Subset.refl _)
  | fetchSpan size i =>
      simp only [advance, hpc] at hs
      split at hs
      · cases hs
      · cases hs
        exact List.Subset.refl _
  | fetchDone size i r =>
      simp only [advance, hpc] at hs
      split at hs
      · cases hs
        exact List.Subset.refl _
      · split at hs <;> (cases hs; exact List.Subset.refl _)
  | fetched size i start =>
      simp only [advance, hpc, Option.map_eq_some_iff] at hs
      obtain ⟨tc, -, rfl⟩ := hs
      exact List.subset_cons_self _ _
  | returnRange start limit i =>
      simp only [advance, hpc, Option.map_eq_some_iff] at hs
      obtain ⟨r, -, rfl⟩ := hs
      exact List.Subset.refl _

def Spares (p size : Nat) : Act → LeveledMemoryPool → Prop
  | .deallocate _ q n, _ => (q, n) ≠ (p, size)
  | .write q n _ _, _ => (q, n) ≠ (p, size)
  | _, _ => True

instance (p size : Nat) : (act : Act) → (s : LeveledMemoryPool) → Decidable (Spares p size act s)
  | .deallocate .., _ | .write .., _ => inferInstanceAs (Decidable (_ ≠ _))
  | .allocate .., _ | .continue .., _ => .isTrue trivial

theorem step_held (hp : (p, size) ∈ s.held) (hspares : Spares p size act s) (hs : step act s = some s') :
    (p, size) ∈ s'.held := by
  cases act with
  | allocate t n =>
      simp only [step, Option.ite_none_right_eq_some, Option.some.injEq] at hs
      obtain ⟨-, rfl⟩ := hs
      simp only [beginAllocate]
      split
      · exact List.mem_cons_of_mem _ hp
      · exact hp
  | deallocate t q n =>
      simp only [step, Option.ite_none_right_eq_some, Option.some.injEq] at hs
      obtain ⟨-, rfl⟩ := hs
      rw [(beginDeallocate_held s t q n).2]
      exact (List.mem_erase_of_ne (Ne.symm hspares)).mpr hp
  | «continue» t env fuel => exact advance_held hs hp
  | write q n b v =>
      simp only [step, Option.ite_none_right_eq_some, Option.some.injEq] at hs
      obtain ⟨-, rfl⟩ := hs
      exact hp

/-- A store that leaves a block alone: a link of eight bytes apart from it, or one of those that clear
a new mapping apart from it. -/
def Beside (s : LeveledMemoryPool) (b : Nat × Nat) (a : Nat) : Prop :=
  Apart (a, 8) (extent b) ∨ ∃ r, (∀ w ∈ s.os.mapped, Apart r w) ∧ Covers r a ∧ Apart r (extent b)

theorem Beside.not_covers {b : Nat × Nat} (h : Beside s b a) : ¬ Covers (extent b) a := by
  rcases h with h | ⟨r, -, hcov, hap⟩
  · exact h.not_covers ⟨le_rfl, by simp only; omega⟩
  · exact hap.not_covers hcov

theorem link_apart (h : Inv s lists) {b c : Nat × Nat} (hb : b ∈ s.carved) (hc : c ∈ s.carved) (hne : b.1 ≠ c.1) :
    Apart (b.1, 8) (extent c) := by
  have hap := h.ground.apart hb hc fun he => hne (congrArg Prod.fst he)
  refine Within.apart ?_ hap
  simp only [Within, extent, blockSize, alignment]
  omega

theorem Stores.beside {freed : Option Nat} (hstores : Stores s lists freed a) (h : Inv s lists)
    (hp : (p, size) ∈ s.held) (hfreed : ∀ q, freed = some q → q ≠ p ∧ ∃ i, (q, i) ∈ s.carved) :
    Beside s (p, getIndex size) a := by
  have hgiven := h.shelf.given _ hp
  cases hstores with
  | listed k hk =>
      refine .inl (link_apart h (h.mem_carved hk) hgiven ?_)
      rintro rfl
      exact h.shelf.off _ hp k hk
  | freed he =>
      obtain ⟨hne, i, hi⟩ := hfreed a he
      exact .inl (link_apart h hi hgiven hne)
  | carved t i q hspan hmem =>
      have hap := h.spare.apart t _ hspan _ hgiven
      refine .inl (Within.apart ?_ hap.symm)
      have hin := blocks_within hmem
      have hsize : 8 ≤ blockSize i := by
        simp only [blockSize, alignment]
        omega
      simp only [Within]
      omega
  | mapped r hfresh hcov =>
      obtain ⟨w, hw, hin⟩ := h.ground.carved_span _ hgiven
      exact .inr ⟨r, hfresh, hcov, (hin.apart (hfresh w (h.ground.spans_mapped w hw)).symm).symm⟩

theorem step_beside (h : Inv s lists) (hp : (p, size) ∈ s.held) (hspares : Spares p size act s)
    (hw : act.isWrite = false) (hs : step act s = some s') (ha : s'.os.memory a ≠ s.os.memory a) :
    Beside s (p, getIndex size) a := by
  refine (step_memory h hw hs ha).beside h hp ?_
  intro q hq
  cases act with
  | deallocate t b n =>
      cases hq
      simp only [step, Option.ite_none_right_eq_some] at hs
      refine ⟨?_, _, h.shelf.given _ hs.1.2⟩
      rintro rfl
      exact hspares (List.inj_on_of_nodup_map h.shelf.once hs.1.2 hp rfl)
  | allocate | «continue» | write => cases hq

theorem step_keeps (h : Inv s lists) (hp : (p, size) ∈ s.held) (hspares : Spares p size act s)
    (hs : step act s = some s') (hcov : Covers (extent (p, getIndex size)) a) : s'.os.memory a = s.os.memory a := by
  by_contra ha
  cases hw : act.isWrite with
  | false => exact (step_beside h hp hspares hw hs ha).not_covers hcov
  | true =>
      cases act with
      | write q n b v =>
          simp only [step, Option.ite_none_right_eq_some, Option.some.injEq] at hs
          obtain ⟨⟨hq, hle, hlt⟩, rfl⟩ := hs
          have hab : a = b := by
            by_contra hne
            exact ha (Function.update_of_ne hne _ _)
          have hne : (q, getIndex n) ≠ (p, getIndex size) := by
            intro he
            have hqp : q = p := congrArg Prod.fst he
            exact hspares (List.inj_on_of_nodup_map h.shelf.once hq hp hqp)
          have hown : Covers (extent (q, getIndex n)) a := by
            have hsize := le_blockSize n
            simp only [Covers, extent]
            omega
          exact (h.ground.apart (h.shelf.given _ hq) (h.shelf.given _ hp) hne).not_covers hown hcov
      | allocate | deallocate | «continue» => cases hw

/-- A block that a caller owns is its own: no store of the allocator comes near it, and over all calls
and stores of others the caller keeps it with what is in it. -/
theorem held_blocks_stay (s : LeveledMemoryPool) (h : Reachable start step always s) (p size : Nat)
    (hp : (p, size) ∈ s.held) :
    (∀ act s' a, Spares p size act s → act.isWrite = false → step act s = some s' →
        s'.os.memory a ≠ s.os.memory a → Beside s (p, getIndex size) a) ∧
      ∀ s', Reachable (· = s) step (Spares p size) s' →
        (p, size) ∈ s'.held ∧ ∀ a, Covers (extent (p, getIndex size)) a → s'.os.memory a = s.os.memory a := by
  obtain ⟨lists, hinv⟩ := reachable_inv h
  refine ⟨fun act s' a hspares hw hs ha => step_beside hinv hp hspares hw hs ha, fun s' hr => ?_⟩
  have hall := hr.invariant (I := fun s' => (∃ lists, Inv s' lists) ∧ (p, size) ∈ s'.held ∧
    ∀ a, Covers (extent (p, getIndex size)) a → s'.os.memory a = s.os.memory a) ?_ ?_
  · exact hall.2
  · rintro _ rfl
    exact ⟨⟨lists, hinv⟩, hp, fun _ _ => rfl⟩
  · rintro act s₁ s₂ ⟨⟨lists₁, h₁⟩, hheld, hsame⟩ hspares hs
    obtain ⟨lists₂, h₂, -⟩ := step_sound h₁ hs
    exact ⟨⟨lists₂, h₂⟩, step_held hheld hspares hs,
      fun a ha => (step_keeps h₁ hheld hspares hs ha).trans (hsame a ha)⟩

def sharing : List Act :=
  [.allocate 0 16384, .continue 0 ⟨none, none⟩ 0, .continue 0 ⟨some 4096, some 1⟩ 0, .continue 0 ⟨none, none⟩ 0,
    .continue 0 ⟨none, none⟩ 2, .allocate 1 16380, .continue 1 ⟨none, none⟩ 0, .continue 1 ⟨none, none⟩ 2,
    .write 20480 16380 20488 9]

def around : List Act :=
  [.write 4096 16384 20479 7, .deallocate 1 4096 16384, .allocate 1 16384, .allocate 0 64,
    .continue 0 ⟨none, none⟩ 0, .continue 0 ⟨some 36864, some 2⟩ 0]

theorem held_blocks_stay_around :
    ∃ s s', Reachable start step always s ∧ (20480, 16380) ∈ s.held ∧ s.os.memory 20488 = 9 ∧
      Reachable (· = s) step (Spares 20480 16380) s' ∧ s'.spans = [(36864, 32768), (4096, 32768)] ∧
      (20480, 16380) ∈ s'.held ∧ s'.os.memory 20488 = 9 := by
  have hrun : ((run (guarded step always) sharing zeros).bind fun s =>
      (run (guarded step (Spares 20480 16380)) around s).map fun s' =>
        (decide ((20480, 16380) ∈ s.held), s.os.memory 20488, s'.spans)) =
      some (true, 9, [(36864, 32768), (4096, 32768)]) := by decide +kernel
  obtain ⟨s, hs, hrest⟩ := Option.bind_eq_some_iff.mp hrun
  obtain ⟨s', hs', he⟩ := Option.map_eq_some_iff.mp hrest
  simp only [Prod.mk.injEq] at he
  obtain ⟨hheld, h9, hspans⟩ := he
  have hheld := of_decide_eq_true hheld
  have hr : Reachable start step always s := Reachable.run (.start ⟨_, rfl⟩) sharing hs
  have hself : Reachable (· = s) step (Spares 20480 16380) s := .start rfl
  have hr' := hself.run around hs'
  obtain ⟨hheld', hsame⟩ := (held_blocks_stay s hr 20480 16380 hheld).2 s' hr'
  have hcov : Covers (extent (20480, getIndex 16380)) 20488 := by
    simp only [Covers, extent, show blockSize (getIndex 16380) = 16384 by decide]
    omega
  exact ⟨s, s', hr, hheld, h9, hr', hspans, hheld', (hsame 20488 hcov).trans h9⟩

end LeveledMemoryPool

end LearnNote.Memory
