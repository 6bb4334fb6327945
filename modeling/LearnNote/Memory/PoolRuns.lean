import LearnNote.Memory.PoolSteps

namespace LearnNote.Memory.LeveledMemoryPool

open Lib Linked Extents Transition SizeClass ThreadCache

/-- The condition under which a step loses no block: a freed block does not make
its list so long, against its count, that handing back its end drops a part. -/
def Keeps : Act → LeveledMemoryPool → Prop
  | .deallocate t _ size, s => Lossless t size s
  | _, _ => True

theorem advance_quiet {s s' : LeveledMemoryPool} {lists : Place → List Nat} {t fuel : Nat} {env : Env}
    (h : Inv s lists) (hs : s.advance t env fuel = some s') : Quiet s s' lists := by
  cases hpc : s.pc t with
  | idle => simp [advance, hpc] at hs
  | fetchRange size i => exact fetchRange_quiet h hpc hs
  | fetchSpan size i => exact fetchSpan_quiet h hpc hs
  | fetchDone size i r =>
      simp only [advance, hpc] at hs
      cases r with
      | badAlloc =>
          simp only [CentralCache.endFetch, Option.some.injEq] at hs
          exact hs ▸ fetchDone_none_quiet h hpc
      | ptr p =>
          by_cases hp : p = 0
          · simp only [CentralCache.endFetch, hp, ↓reduceIte, Option.some.injEq] at hs
            exact hs ▸ fetchDone_none_quiet h hpc
          · simp only [CentralCache.endFetch, if_neg hp, Option.some.injEq] at hs
            exact hs ▸ fetchDone_some_quiet h hpc hp rfl
  | fetched size i start => exact fetched_quiet h hpc hs
  | returnRange start limit i => exact returnRange_quiet h hpc hs

theorem step_sound {s s' : LeveledMemoryPool} {lists : Place → List Nat} {a : Act} (h : Inv s lists)
    (hs : step a s = some s') : Sound s s' lists (Keeps a s) := by
  cases a with
  | allocate t size =>
      simp only [step, Option.ite_none_right_eq_some, Option.some.injEq] at hs
      obtain ⟨⟨hpc, hsize⟩, rfl⟩ := hs
      exact beginAllocate_sound h hpc hsize
  | deallocate t p size =>
      simp only [step, Option.ite_none_right_eq_some, Option.some.injEq] at hs
      obtain ⟨⟨hpc, hp⟩, rfl⟩ := hs
      exact beginDeallocate_sound h hpc hp
  | «continue» t env fuel => exact (advance_quiet h hs).sound
  | write p size a v =>
      simp only [step, Option.ite_none_right_eq_some, Option.some.injEq] at hs
      obtain ⟨⟨hp, ha, ha'⟩, rfl⟩ := hs
      exact ⟨lists, h.write hp ha ha', fun hw _ => ⟨hw.placed, hw.short⟩⟩

theorem reachable_inv {s : LeveledMemoryPool} (h : Reachable start step always s) : ∃ lists, Inv s lists := by
  refine h.invariant (I := fun s => ∃ lists, Inv s lists) ?_ ?_
  · rintro s ⟨m, rfl⟩
    exact ⟨_, Inv.initial m⟩
  · rintro a s t ⟨lists, hinv⟩ - hs
    obtain ⟨lists', hinv', -⟩ := step_sound hinv hs
    exact ⟨lists', hinv'⟩

theorem reachable_whole {s : LeveledMemoryPool} (h : Reachable start step Keeps s) :
    ∃ lists, Inv s lists ∧ Whole s.carved s.held s.pc lists := by
  refine h.invariant (I := fun s => ∃ lists, Inv s lists ∧ Whole s.carved s.held s.pc lists) ?_ ?_
  · rintro s ⟨m, rfl⟩
    exact ⟨_, Inv.initial m, by simp [initial], by simp [initial]⟩
  · rintro a s t ⟨lists, hinv, hw⟩ hc hs
    obtain ⟨lists', hinv', hw'⟩ := step_sound hinv hs
    exact ⟨lists', hinv', hw' hw hc⟩

inductive Owner
  | caller
  | cache (t index : Nat)
  | central (index : Nat)
deriving DecidableEq

def OnList (m : Words) (head b : Nat) : Prop := ∃ l, Chain m head l ∧ b ∈ l

def Owns (s : LeveledMemoryPool) : Owner → Nat × Nat → Prop
  | .caller, b => ∃ size, (b.1, size) ∈ s.held ∧ getIndex size = b.2
  | .cache t i, b => b.2 = i ∧ OnList s.os.memory ((s.thread t).freeList i) b.1
  | .central i, b => b.2 = i ∧ OnList s.os.memory (s.central.centralFreeList i) b.1

def Owner.place : Owner → Option Place
  | .caller => none
  | .cache t i => some (.cache t i)
  | .central i => some (.central i)

structure Disjoint (s : LeveledMemoryPool) : Prop where
  cache_chain : ∀ t i, ∃ l, Chain s.os.memory ((s.thread t).freeList i) l
  central_chain : ∀ i, ∃ l, Chain s.os.memory (s.central.centralFreeList i) l
  once : (s.held.map Prod.fst).Nodup
  carved : ∀ x b, Owns s x b → b ∈ s.carved
  apart : ∀ x y b c, Owns s x b → Owns s y c → (x = y ∧ b = c) ∨ Apart (extent b) (extent c)
  held : ∀ r ∈ s.held, Owns s .caller (r.1, getIndex r.2) ∧ max r.2 1 ≤ (extent (r.1, getIndex r.2)).2 ∧
    ∃ sp ∈ s.spans, Within (extent (r.1, getIndex r.2)) sp

structure Conserved (s : LeveledMemoryPool) (i : Nat) : Prop where
  union : ∀ b, (b, i) ∈ s.carved ↔
    Owns s .caller (b, i) ∨ (∃ t, Owns s (.cache t i) (b, i)) ∨ Owns s (.central i) (b, i)
  disjoint : ∀ x y b, Owns s x (b, i) → Owns s y (b, i) → x = y
  once : (s.held.map Prod.fst).Nodup

section owners

variable {s : LeveledMemoryPool} {lists : Place → List Nat} {b : Nat × Nat} {x y : Owner}

theorem onList_iff (h : Inv s lists) (k : Place) {a : Nat} :
    OnList s.os.memory (headOf s.thread s.central.centralFreeList s.pc k) a ↔ a ∈ lists k := by
  constructor
  · rintro ⟨l, hl, ha⟩
    rwa [(h.shelf.owned.chain k).unique hl]
  · intro ha
    exact ⟨_, h.shelf.owned.chain k, ha⟩

theorem owns_place (h : Inv s lists) {k : Place} (hk : x.place = some k) :
    Owns s x b ↔ b.2 = classOf s.pc k ∧ b.1 ∈ lists k := by
  cases x with
  | caller => cases hk
  | cache t i =>
      obtain rfl : Place.cache t i = k := Option.some.inj hk
      exact and_congr_right (fun _ => onList_iff h (.cache t i))
  | central i =>
      obtain rfl : Place.central i = k := Option.some.inj hk
      exact and_congr_right (fun _ => onList_iff h (.central i))

theorem owns_carved (h : Inv s lists) (hb : Owns s x b) : b ∈ s.carved := by
  cases hx : x.place with
  | none =>
      cases x with
      | caller =>
          obtain ⟨size, hheld, hc⟩ := hb
          have hg := h.shelf.given _ hheld
          rwa [hc] at hg
      | cache t i => cases hx
      | central i => cases hx
  | some k =>
      obtain ⟨hc, hm⟩ := (owns_place h hx).mp hb
      have hl := h.mem_carved hm
      rwa [← hc] at hl

theorem place_inj (h : x.place = y.place) : x = y := by
  cases x <;> cases y <;> simp_all [Owner.place]

theorem owner_unique (h : Inv s lists) (hx : Owns s x b) (hy : Owns s y b) : x = y := by
  apply place_inj
  cases hpx : x.place with
  | none =>
      cases hpy : y.place with
      | none => rfl
      | some k =>
          cases x with
          | caller =>
              obtain ⟨size, hheld, -⟩ := hx
              exact absurd ((owns_place h hpy).mp hy).2 (h.shelf.off _ hheld k)
          | cache t i => cases hpx
          | central i => cases hpx
  | some j =>
      have hj := ((owns_place h hpx).mp hx).2
      cases hpy : y.place with
      | none =>
          cases y with
          | caller =>
              obtain ⟨size, hheld, -⟩ := hy
              exact absurd hj (h.shelf.off _ hheld j)
          | cache t i => cases hpy
          | central i => cases hpy
      | some k =>
          have hk := ((owns_place h hpy).mp hy).2
          rw [h.shelf.owned.apart j k b.1 hj hk]

theorem inv_disjoint (h : Inv s lists) : Disjoint s := by
  refine ⟨fun t i => ⟨_, h.shelf.owned.chain (.cache t i)⟩, fun i => ⟨_, h.shelf.owned.chain (.central i)⟩,
    h.shelf.once, fun x b hb => owns_carved h hb, ?_, ?_⟩
  · intro x y b c hb hc
    by_cases hbc : b = c
    · subst hbc
      exact .inl ⟨owner_unique h hb hc, rfl⟩
    · exact .inr (h.ground.apart (owns_carved h hb) (owns_carved h hc) hbc)
  · intro r hr
    exact ⟨⟨r.2, hr, rfl⟩, le_blockSize r.2, h.ground.carved_span _ (h.shelf.given r hr)⟩

theorem whole_conserved (h : Inv s lists) (hw : Whole s.carved s.held s.pc lists) (hidle : ∀ t, s.pc t = .idle)
    (i : Nat) : Conserved s i := by
  refine ⟨?_, fun x y b hx hy => owner_unique h hx hy, h.shelf.once⟩
  intro b
  constructor
  · intro hb
    rcases hw.placed _ hb with hheld | ⟨k, hk⟩
    · obtain ⟨⟨p, size⟩, hr, rfl⟩ := List.mem_map.mp hheld
      have he := h.ground.block_unique (h.shelf.given _ hr) hb rfl
      exact .inl ⟨size, hr, congrArg Prod.snd he⟩
    · have he := h.ground.block_unique (h.mem_carved hk) hb rfl
      have hc : classOf s.pc k = i := congrArg Prod.snd he
      cases k with
      | cache t j =>
          obtain rfl : j = i := hc
          exact .inr (.inl ⟨t, (owns_place h (x := Owner.cache t j) rfl).mpr ⟨rfl, hk⟩⟩)
      | central j =>
          obtain rfl : j = i := hc
          exact .inr (.inr ((owns_place h (x := Owner.central j) rfl).mpr ⟨rfl, hk⟩))
      | transit t =>
          rw [h.transit_nil (by rw [hidle t]; rfl)] at hk
          cases hk
  · rintro (hb | ⟨t, hb⟩ | hb)
    · exact owns_carved h hb
    · exact owns_carved h hb
    · exact owns_carved h hb

end owners

section loss

variable {s s' : LeveledMemoryPool} {lists : Place → List Nat} {t p size : Nat}

theorem drop_loses (h : Inv s lists) {start n i fuel : Nat} {env : Env} (hpc : s.pc t = .returnRange start n i)
    (hlong : max n 1 < (lists (.transit t)).length) (hs : s.advance t env fuel = some s') :
    ∃ b, (b, i) ∈ s'.carved ∧ ∀ x, ¬ Owns s' x (b, i) := by
  simp only [advance, hpc, Option.map_eq_some_iff] at hs
  obtain ⟨r, hr, rfl⟩ := hs
  obtain ⟨u, q, k, hl, hdrop, hinv⟩ := returnRange_drop h hpc hr
  have hk : k ≠ [] := fun hk => absurd (hdrop.mp hk) (not_le.mpr hlong)
  obtain ⟨b, k, rfl⟩ := List.exists_cons_of_ne_nil hk
  have hmem : b ∈ lists (.transit t) := by simp [hl]
  have hclass : classOf s.pc (.transit t) = i := by simp only [classOf, hpc, Pc.index]
  have hnodup := (h.shelf.owned.chain (.transit t)).nodup
  rw [hl, ← List.singleton_append, ← List.append_assoc] at hnodup
  have hfront : b ∉ u ++ [q] := fun hb =>
    (List.nodup_append.mp hnodup).2.2 b hb b List.mem_cons_self rfl
  refine ⟨b, hclass ▸ h.mem_carved hmem, ?_⟩
  intro x hx
  cases hp : x.place with
  | none =>
      cases x with
      | caller =>
          obtain ⟨n, hheld, -⟩ := hx
          exact h.shelf.off _ hheld _ hmem
      | cache t i => cases hp
      | central i => cases hp
  | some j =>
      have hj := ((owns_place hinv hp).mp hx).2
      rcases mem_update_place hj with ⟨-, hb⟩ | ⟨-, hj⟩
      · have hb' : b ∈ (u ++ [q]) ++ lists (.central i) := by simpa using hb
        rcases List.mem_append.mp hb' with hb | hb
        · exact hfront hb
        · exact absurd (h.shelf.owned.apart _ _ b hb hmem) (by simp)
      · rcases mem_update_place hj with ⟨-, hb⟩ | ⟨hne, hb⟩
        · simp at hb
        · exact hne (h.shelf.owned.apart _ _ b hb hmem)

theorem beginDeallocate_central (s : LeveledMemoryPool) (t p size : Nat) :
    (s.beginDeallocate t p size).central = s.central := by
  simp only [beginDeallocate]
  split <;> rfl

/-- A free that does not meet the condition loses a block as soon as the thread
has the lock. -/
theorem lossy_free_loses (h : Inv s lists) (hpc : s.pc t = .idle) (hp : (p, size) ∈ s.held)
    (hfree : s.central.locks (getIndex size) = false) (hless : ¬ Lossless t size s) (env : Env) (fuel : Nat) :
    ∃ s', run step [.deallocate t p size, .continue t env fuel] s = some s' ∧ s'.pc = s.pc ∧
      ¬ Conserved s' (getIndex size) := by
  simp only [Lossless, not_forall, not_le] at hless
  obtain ⟨l, hl, hcount, hlong⟩ := hless
  rw [hl.unique (h.shelf.owned.chain (.cache t (getIndex size)))] at hlong
  have hcentral := beginDeallocate_central s t p size
  rcases beginDeallocate_cases h hpc hp with ⟨hno, -⟩ | ⟨u, node, r, q, hu, hulen, -, hpc', hinv⟩
  · exact absurd ⟨hcount, by omega⟩ hno
  · have hback : (s.beginDeallocate t p size).pc t = .returnRange q
        (limit size (counted (getIndex size) (s.thread t))) (getIndex size) := by
      rw [hpc']
      exact Function.update_self ..
    obtain ⟨hq, hi⟩ := (hinv.busy t).back _ _ _ hback
    have hgo : ¬ (q = 0 ∨ getIndex size ≥ freeListSize) := by
      rintro (h0 | h0)
      · exact hq h0
      · exact absurd hi (not_lt.mpr h0)
    obtain ⟨w, hw⟩ : ∃ w, (s.beginDeallocate t p size).central.returnRange q
        (limit size (counted (getIndex size) (s.thread t))) (getIndex size) (s.beginDeallocate t p size).os = some w := by
      simp [CentralCache.returnRange, hgo, CentralCache.acquire, hcentral, hfree]
    have hadv : (s.beginDeallocate t p size).advance t env fuel =
        some ({ s.beginDeallocate t p size with os := w.1, central := w.2 }.setPc t .idle) := by
      simp only [advance, hback, hw, Option.map_some]
    have hsum := congrArg List.length hu
    simp only [List.length_cons, List.length_append] at hsum
    obtain ⟨b, hb, hnone⟩ := drop_loses hinv hback (by rw [Function.update_self]; omega) hadv
    have hrun : run step [.deallocate t p size, .continue t env fuel] s =
        some ({ s.beginDeallocate t p size with os := w.1, central := w.2 }.setPc t .idle) := by
      simp only [run, step, hpc, hp, and_self, ↓reduceIte, Option.bind_some, hadv]
    refine ⟨_, hrun, ?_, ?_⟩
    · simp only [setPc, hpc', Function.update_idem]
      exact Function.update_eq_self_iff.mpr hpc.symm
    · intro hc
      rcases (hc.union b).mp hb with ho | ⟨u, ho⟩ | ho
      · exact hnone _ ho
      · exact hnone _ ho
      · exact hnone _ ho

end loss

section frame

variable {s s' : LeveledMemoryPool} {t u : Nat}

def Act.thread : Act → Option Nat
  | .allocate t _ => some t
  | .deallocate t _ _ => some t
  | .continue t _ _ => some t
  | .write .. => none

theorem advance_pc {env : Env} {fuel : Nat} (h : s.advance t env fuel = some s') :
    ∃ p, s'.pc = Function.update s.pc t p := by
  cases hpc : s.pc t with
  | idle => simp [advance, hpc] at h
  | fetchRange size i =>
      simp only [advance, hpc] at h
      split at h
      · cases h
      · cases h; exact ⟨_, rfl⟩
      · split at h <;> (cases h; exact ⟨_, rfl⟩)
  | fetchSpan size i =>
      simp only [advance, hpc] at h
      split at h
      · cases h
      · cases h; exact ⟨_, rfl⟩
  | fetchDone size i r =>
      simp only [advance, hpc] at h
      split at h
      · cases h; exact ⟨_, rfl⟩
      · split at h <;> (cases h; exact ⟨_, rfl⟩)
  | fetched size i start =>
      simp only [advance, hpc, Option.map_eq_some_iff] at h
      obtain ⟨tc, -, rfl⟩ := h
      exact ⟨_, rfl⟩
  | returnRange start limit i =>
      simp only [advance, hpc, Option.map_eq_some_iff] at h
      obtain ⟨r, -, rfl⟩ := h
      exact ⟨_, rfl⟩

theorem step_pc_other {a : Act} (h : step a s = some s') (hu : a.thread ≠ some u) : s'.pc u = s.pc u := by
  cases a with
  | allocate t size =>
      simp only [step, Option.ite_none_right_eq_some, Option.some.injEq] at h
      obtain ⟨-, rfl⟩ := h
      have hne : u ≠ t := fun he => hu (he ▸ rfl)
      simp only [beginAllocate]
      split
      · rfl
      · exact Function.update_of_ne hne _ _
  | deallocate t p size =>
      simp only [step, Option.ite_none_right_eq_some, Option.some.injEq] at h
      obtain ⟨-, rfl⟩ := h
      have hne : u ≠ t := fun he => hu (he ▸ rfl)
      simp only [beginDeallocate]
      split
      · rfl
      · exact Function.update_of_ne hne _ _
  | «continue» t env fuel =>
      have hne : u ≠ t := fun he => hu (he ▸ rfl)
      obtain ⟨p, hp⟩ := advance_pc h
      rw [hp, Function.update_of_ne hne]
  | write p size a v =>
      simp only [step, Option.ite_none_right_eq_some, Option.some.injEq] at h
      obtain ⟨-, rfl⟩ := h
      rfl

theorem run_pc_other {cond : Act → LeveledMemoryPool → Prop} [∀ a s, Decidable (cond a s)] {as : List Act}
    (h : run (guarded step cond) as s = some s') (hu : ∀ a ∈ as, a.thread ≠ some u) : s'.pc u = s.pc u := by
  induction as generalizing s with
  | nil =>
      cases h
      rfl
  | cons a as ih =>
      obtain ⟨v, hs, hr⟩ := Option.bind_eq_some_iff.mp h
      simp only [guarded, Option.ite_none_right_eq_some] at hs
      rw [ih hr (fun b hb => hu b (List.mem_cons_of_mem _ hb)), step_pc_other hs.2 (hu a List.mem_cons_self)]

end frame

/-- In every state the blocks of callers and free lists do not overlap. -/
theorem blocks_disjoint {s : LeveledMemoryPool} (h : Reachable start step always s) : Disjoint s := by
  obtain ⟨lists, hinv⟩ := reachable_inv h
  exact inv_disjoint hinv

def zeros : LeveledMemoryPool := initial (fun _ => 0)

theorem blocks_disjoint_two_threads :
    ∃ s, Reachable start step always s ∧ s.held = [(20480, 16380)] ∧ (s.thread 1).freeList 2047 = 4096 ∧ Disjoint s := by
  have hrun : (run (guarded step always) [.allocate 0 16384, .continue 0 ⟨none, none⟩ 0,
      .continue 0 ⟨some 4096, some 1⟩ 0, .allocate 1 16380, .continue 0 ⟨none, none⟩ 0, .continue 0 ⟨none, none⟩ 2,
      .continue 1 ⟨none, none⟩ 0, .continue 1 ⟨none, none⟩ 2, .write 4096 16384 4096 7,
      .deallocate 1 4096 16384] zeros).map (fun s => (s.held, (s.thread 1).freeList 2047)) =
      some ([(20480, 16380)], 4096) := by decide +kernel
  obtain ⟨s, hr, he⟩ := reachable_of_run start hrun ⟨_, rfl⟩
  exact ⟨s, hr, congrArg Prod.fst he, congrArg Prod.snd he, blocks_disjoint hr⟩

/-- Between operations every block has an owner, if no free lost one. -/
theorem blocks_conserved {s : LeveledMemoryPool} (h : Reachable start step Keeps s) (hidle : ∀ t, s.pc t = .idle) :
    ∀ i, Conserved s i := by
  obtain ⟨lists, hinv, hw⟩ := reachable_whole h
  exact whole_conserved hinv hw hidle

/-- A free after which the list is counted within the threshold. -/
def Uncut : Act → LeveledMemoryPool → Prop
  | .deallocate t _ size, s => counted (getIndex size) (s.thread t) ≤ threshold
  | _, _ => True

instance (a : Act) (s : LeveledMemoryPool) : Decidable (Uncut a s) :=
  match a with
  | .deallocate .. => inferInstanceAs (Decidable (_ ≤ _))
  | .allocate .. => .isTrue trivial
  | .continue .. => .isTrue trivial
  | .write .. => .isTrue trivial

theorem uncut_keeps (a : Act) (s : LeveledMemoryPool) (h : Uncut a s) : Keeps a s := by
  cases a with
  | deallocate t p size => exact fun l _ hc => absurd h (not_le.mpr hc)
  | allocate t size => trivial
  | «continue» t env fuel => trivial
  | write p size a v => trivial

theorem blocks_conserved_short_lists :
    ∃ s, Reachable start step Keeps s ∧ s.held = [(20480, 16384)] ∧ ∀ i, Conserved s i := by
  have hrun : (run (guarded step Uncut) [.allocate 0 16384, .continue 0 ⟨none, none⟩ 0,
      .continue 0 ⟨some 4096, some 1⟩ 0, .continue 0 ⟨none, none⟩ 0, .continue 0 ⟨none, none⟩ 2,
      .allocate 0 16384, .continue 0 ⟨none, none⟩ 0, .continue 0 ⟨none, none⟩ 2,
      .deallocate 0 4096 16384] zeros).map (fun s => (s.held, s.pc 0)) =
      some ([(20480, 16384)], .idle) := by decide +kernel
  obtain ⟨s, hs, he⟩ := Option.map_eq_some_iff.mp hrun
  have hr : Reachable start step Keeps s := (Reachable.run (.start ⟨_, rfl⟩) _ hs).weaken uncut_keeps
  refine ⟨s, hr, congrArg Prod.fst he, blocks_conserved hr ?_⟩
  intro t
  by_cases ht : t = 0
  · exact ht ▸ congrArg Prod.snd he
  · refine (run_pc_other hs ?_).trans rfl
    simp [Act.thread, Ne.symm ht]

def granted : LeveledMemoryPool where
  os := ⟨memset (fun _ => 0) 4096 32768, [(4096, 32768)]⟩
  page := ⟨Function.update (fun _ => none) 1 (some ⟨4096, 8, 0⟩), .empty, OrdMap.empty.insert 4096 1⟩
  central := ⟨fun _ => 0, Function.update (fun _ => false) 0 true⟩
  thread := Function.update (fun _ => .initial) 0 (ThreadCache.initial.decrement 0)
  pc := Function.update (Function.update (Function.update (fun _ => .idle) 0 (.fetchRange 0 0)) 0 (.fetchSpan 0 0)) 0
    (.fetchDone 0 0 (.ptr 4096))
  held := []
  carved := []
  spans := [(4096, 32768)]

def stocked : LeveledMemoryPool :=
  { granted with
    os := ⟨fun a => if 4096 < a ∧ a + 8 < 36864 ∧ 8 ∣ a then a + 8 else 0, [(4096, 32768)]⟩
    central := ⟨Function.update (fun _ => 0) 0 4104, Function.update (Function.update (fun _ => false) 0 true) 0 false⟩
    pc := Function.update granted.pc 0 (.fetched 0 0 4096)
    carved := carvedBlocks 0 4096 ++ granted.carved }

theorem stocked_memory :
    Function.update (CentralCache.carve 4096 8 4096 granted.os.memory) 4096 0 = stocked.os.memory := by
  funext a
  simp only [stocked]
  by_cases h0 : a = 4096
  · subst h0
    simp
  · rw [Function.update_of_ne h0]
    by_cases ha : ∃ j < 4096, a = 4096 + j * 8
    · obtain ⟨j, hj, rfl⟩ := ha
      rw [CentralCache.carve_at (by decide) hj]
      split <;> split <;> omega
    · rw [CentralCache.carve_off (by decide) (fun j hj he => ha ⟨j, hj, he⟩), if_neg]
      · simp [granted, memset]
      · rintro ⟨h1, h2, h3⟩
        exact ha ⟨(a - 4096) / 8, by omega, by omega⟩

theorem stocked_publish : CentralCache.publish 0 4096 granted.os.memory granted.central =
    (stocked.os.memory, ⟨Function.update granted.central.centralFreeList 0 4104, granted.central.locks⟩) := by
  have hn : CentralCache.blockNum 0 = 4096 := by decide
  have hb : blockSize 0 = 8 := by decide
  have hhead : CentralCache.carve 4096 8 4096 granted.os.memory 4096 = 4104 :=
    (CentralCache.carve_at (k := 0) (by decide) (by decide)).trans (if_pos (by decide))
  simp only [CentralCache.publish, hn, hb, hhead, stocked_memory, if_pos (show 4096 > 1 by decide)]

theorem stocked_reachable : Reachable start step always stocked := by
  have hrun : run (guarded step always) [.allocate 0 0, .continue 0 ⟨none, none⟩ 0, .continue 0 ⟨some 4096, some 1⟩ 0]
      zeros = some granted := by rfl
  refine .next (.continue 0 ⟨none, none⟩ 0) (Reachable.run (.start ⟨_, rfl⟩) _ hrun) trivial ?_
  have hpc : granted.pc 0 = .fetchDone 0 0 (.ptr 4096) := by rfl
  simp only [step, advance, hpc, CentralCache.endFetch, stocked_publish, if_neg (show ¬ 4096 = 0 by decide)]
  rfl

def surge : List Act :=
  .continue 0 ⟨none, none⟩ 2 ::
    (List.replicate 64 [.allocate 0 0, .continue 0 ⟨none, none⟩ 0, .continue 0 ⟨none, none⟩ 2]).flatten ++
    (List.range 64).map (fun j => .deallocate 0 (4096 + 8 * j) 0)

theorem surge_run :
    (run (guarded step always) surge stocked).map (fun s => (s.held, s.pc 0, s.central.locks 0,
      (s.thread 0).freeListSize 0, countChain s.os.memory 65 ((s.thread 0).freeList 0))) =
      some ([(4608, 0)], .idle, false, 64, some 64) := by decide +kernel

/-- The pool after these requests, with one block held and 64 on a list, and after that block is freed. -/
structure Surged (s s' : LeveledMemoryPool) (lists : Place → List Nat) : Prop where
  run : Transition.run (guarded step always) surge stocked = some s
  reachable : Reachable start step always s
  inv : Inv s lists
  idle : s.pc 0 = .idle
  held : (4608, 0) ∈ s.held
  size : (s.thread 0).freeListSize 0 = 64
  length : (lists (.cache 0 (getIndex 0))).length = 64
  free : Transition.run step [.deallocate 0 4608 0, .continue 0 ⟨none, none⟩ 0] s = some s'
  freed : Reachable start step always s'
  pc : s'.pc = s.pc
  lost : ¬ Conserved s' (getIndex 0)

theorem exists_surged : ∃ s s' lists, Surged s s' lists := by
  obtain ⟨s, hs, he⟩ := Option.map_eq_some_iff.mp surge_run
  simp only [Prod.mk.injEq] at he
  obtain ⟨hheld, hpc, hlock, hsize, hcount⟩ := he
  have hr := Reachable.run stocked_reachable _ hs
  obtain ⟨lists, hinv⟩ := reachable_inv hr
  obtain ⟨l, hl, hlen⟩ := countChain_spec hcount
  have hless : ¬ Lossless 0 0 s := by
    intro hless
    have hle := hless l hl
    simp only [show getIndex 0 = 0 by decide, counted, hsize, hlen] at hle
    exact absurd (hle (by decide)) (by decide)
  have hmem : (4608, 0) ∈ s.held := by simp [hheld]
  have hlength : (lists (.cache 0 (getIndex 0))).length = 64 := by
    rw [← hlen]
    exact congrArg List.length ((hinv.shelf.owned.chain (.cache 0 (getIndex 0))).unique hl)
  obtain ⟨s', hs', hpc', hlost⟩ := lossy_free_loses hinv hpc hmem
    (show s.central.locks (getIndex 0) = false from hlock) hless ⟨none, none⟩ 0
  have hr' : Reachable start step always s' := by
    apply hr.run [.deallocate 0 4608 0, .continue 0 ⟨none, none⟩ 0]
    rwa [guarded_always]
  exact ⟨s, s', lists, hs, hr, hinv, hpc, hmem, hsize, hlength, hs', hr', hpc', hlost⟩

/-- The next free hands back forty-nine blocks, by a limit of no bytes, and all but one
are dropped. -/
theorem zero_size_free_loses_block :
    ¬ ∀ s, Reachable start step always s → (∀ t, s.pc t = .idle) → ∀ i, Conserved s i := by
  intro h
  obtain ⟨s, s', lists, hsurged⟩ := exists_surged
  refine hsurged.lost (h s' hsurged.freed ?_ 0)
  intro t
  rw [hsurged.pc]
  by_cases ht : t = 0
  · exact ht ▸ hsurged.idle
  · have hthread : ∀ a ∈ surge, a.thread = some 0 := by decide +kernel
    refine (run_pc_other hsurged.run ?_).trans ?_
    · intro a ha
      simpa [hthread a ha] using Ne.symm ht
    · simp [stocked, granted, ht]

end LearnNote.Memory.LeveledMemoryPool
