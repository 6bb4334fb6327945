import LearnNote.Memory.PoolRuns

namespace LearnNote.Memory

open Lib Linked Extents Transition SizeClass ThreadCache

/-- The class whose counter was decremented for a block that is still to come. -/
def Pc.awaits : Pc → Option Nat
  | .fetchRange _ index => some index
  | .fetchSpan _ index => some index
  | .fetchDone _ index (.ptr p) => if p = 0 then none else some index
  | .fetched _ index _ => some index
  | _ => none

def Pc.owed (p : Pc) (i : Nat) : Nat := if p.awaits = some i then 1 else 0

namespace LeveledMemoryPool

def CounterExact (s : LeveledMemoryPool) (t i : Nat) : Prop :=
  ∃ l, Chain s.os.memory ((s.thread t).freeList i) l ∧ (s.thread t).freeListSize i = l.length

/-- The counter is exact once the block that a call waits for is added. -/
def Tallied (s : LeveledMemoryPool) (t i : Nat) : Prop :=
  ∃ l, Chain s.os.memory ((s.thread t).freeList i) l ∧
    sizeT ((s.thread t).freeListSize i + (s.pc t).owed i) = l.length

/-- The system maps the pages of a span, and a Span object can be made. -/
def Supplied (env : Env) (index : Nat) (os : Os) (page : PageCache) : Prop :=
  (∃ a ∈ env.mmap, os.Fresh a (sizeT (CentralCache.numPages (blockSize index) * pageSize))) ∧
    PageCache.newSpan env page ≠ none

instance (env : Env) (index : Nat) (os : Os) (page : PageCache) : Decidable (Supplied env index os page) :=
  inferInstanceAs (Decidable (_ ∧ _))

def Served (env : Env) (os : Os) (page : PageCache) : Pc → Prop
  | .fetchSpan _ index => Supplied env index os page
  | _ => True

/-- No free lets its list be counted beyond the threshold, and no request for a span fails. -/
def Steady : Act → LeveledMemoryPool → Prop
  | .deallocate t _ size, s => counted (getIndex size) (s.thread t) ≤ threshold
  | .continue t env _, s => Served env s.os s.page (s.pc t)
  | _, _ => True

instance (env : Env) (os : Os) (page : PageCache) (p : Pc) : Decidable (Served env os page p) :=
  match p with
  | .fetchSpan _ index => inferInstanceAs (Decidable (Supplied env index os page))
  | .idle => .isTrue trivial
  | .fetchRange .. => .isTrue trivial
  | .fetchDone .. => .isTrue trivial
  | .fetched .. => .isTrue trivial
  | .returnRange .. => .isTrue trivial

instance (a : Act) (s : LeveledMemoryPool) : Decidable (Steady a s) :=
  match a with
  | .deallocate .. => inferInstanceAs (Decidable (_ ≤ _))
  | .continue t env _ => inferInstanceAs (Decidable (Served env s.os s.page (s.pc t)))
  | .allocate .. => .isTrue trivial
  | .write .. => .isTrue trivial

structure Tally (s : LeveledMemoryPool) (lists : Place → List Nat) : Prop where
  count : ∀ t i, sizeT ((s.thread t).freeListSize i + (s.pc t).owed i) = (lists (.cache t i)).length
  short : ∀ t i, (lists (.cache t i)).length ≤ threshold
  word : ∀ t i, (s.thread t).freeListSize i < 2 ^ 64

section tally

variable {s s' : LeveledMemoryPool} {lists lists' : Place → List Nat} {t i size p fuel : Nat} {env : Env}

theorem chain_length_iff (h : Inv s lists) {c : Nat} :
    (∃ l, Chain s.os.memory ((s.thread t).freeList i) l ∧ c = l.length) ↔ c = (lists (.cache t i)).length := by
  constructor
  · rintro ⟨l, hl, hc⟩
    rw [hc, hl.unique (h.shelf.owned.chain (.cache t i))]
  · intro hc
    exact ⟨_, h.shelf.owned.chain (.cache t i), hc⟩

theorem tallied_iff (h : Inv s lists) : Tallied s t i ↔
    sizeT ((s.thread t).freeListSize i + (s.pc t).owed i) = (lists (.cache t i)).length := chain_length_iff h

theorem counterExact_iff (h : Inv s lists) :
    CounterExact s t i ↔ (s.thread t).freeListSize i = (lists (.cache t i)).length := chain_length_iff h

theorem counterExact_of_idle (h : Inv s lists) (ht : Tally s lists) (hpc : s.pc t = .idle) : CounterExact s t i := by
  refine ⟨_, h.shelf.owned.chain (.cache t i), ?_⟩
  rw [← ht.count t i, hpc]
  exact (sizeT_of_lt (ht.word t i)).symm

theorem Tally.step (h : Tally s lists) {c : ThreadCache} {pc : Pc}
    (hthread : s'.thread = Function.update s.thread t c) (hpc : s'.pc = Function.update s.pc t pc)
    (hlists : ∀ u, u ≠ t → ∀ j, lists' (.cache u j) = lists (.cache u j))
    (hown : ∀ j, sizeT (c.freeListSize j + pc.owed j) = (lists' (.cache t j)).length ∧
      (lists' (.cache t j)).length ≤ threshold ∧ c.freeListSize j < 2 ^ 64) : Tally s' lists' := by
  have hsplit (u j : Nat) : sizeT ((s'.thread u).freeListSize j + (s'.pc u).owed j) = (lists' (.cache u j)).length ∧
      (lists' (.cache u j)).length ≤ threshold ∧ (s'.thread u).freeListSize j < 2 ^ 64 := by
    rw [hthread, hpc]
    by_cases hu : u = t
    · subst hu
      simpa using hown j
    · rw [Function.update_of_ne hu, Function.update_of_ne hu, hlists u hu j]
      exact ⟨h.count u j, h.short u j, h.word u j⟩
  exact ⟨fun u j => (hsplit u j).1, fun u j => (hsplit u j).2.1, fun u j => (hsplit u j).2.2⟩

theorem Tally.idle (h : Tally s lists) (hpc : s.pc t = .idle) (i : Nat) :
    (s.thread t).freeListSize i = (lists (.cache t i)).length := by
  have hc := h.count t i
  rw [hpc] at hc
  exact (sizeT_of_lt (h.word t i)).symm.trans hc

theorem cache_list_eq (h : Inv s lists) (h' : Inv s' lists') (hm : s'.os.memory = s.os.memory) {u j : Nat}
    (hh : (s'.thread u).freeList j = (s.thread u).freeList j) : lists' (.cache u j) = lists (.cache u j) := by
  have hc := h'.shelf.owned.chain (.cache u j)
  rw [hm] at hc
  change Chain s.os.memory ((s'.thread u).freeList j) _ at hc
  rw [hh] at hc
  exact hc.unique (h.shelf.owned.chain (.cache u j))

@[simp] theorem decrement_size (index j : Nat) (tc : ThreadCache) : (tc.decrement index).freeListSize j =
    if j = index then sizeT (tc.freeListSize index + (2 ^ 64 - 1)) else tc.freeListSize j :=
  Function.update_apply ..

theorem beginAllocate_tally (h : Inv s lists) (ht : Tally s lists) (hpc : s.pc t = .idle)
    (h' : Inv (s.beginAllocate t size) lists') : Tally (s.beginAllocate t size) lists' := by
  have hcount := ht.idle hpc
  have hchain := h.shelf.owned.chain (.cache t (getIndex size))
  by_cases hi : (s.thread t).freeList (getIndex size) = 0
  · rw [beginAllocate_miss hi] at h' ⊢
    have hsame (u j : Nat) : lists' (.cache u j) = lists (.cache u j) := by
      apply cache_list_eq h h' rfl
      by_cases hu : u = t
      · subst hu
        simp [setThread, setPc]
      · simp [setThread, setPc, hu]
    refine ht.step rfl rfl (fun u _ j => hsame u j) (fun j => ?_)
    have hword := ht.word t j
    rw [hsame t j, decrement_size]
    refine ⟨?_, ht.short t j, ?_⟩
    · by_cases hj : j = getIndex size
      · subst hj
        have hnil : lists (.cache t (getIndex size)) = [] := h.shelf.owned.eq_nil hi
        have hzero := hcount (getIndex size)
        rw [hnil, List.length_nil] at hzero
        rw [hnil, if_pos rfl, hzero, Pc.owed, Pc.awaits, if_pos rfl]
        rfl
      · rw [if_neg hj, Pc.owed, Pc.awaits, if_neg (by simpa using Ne.symm hj), Nat.add_zero, sizeT_of_lt hword,
          hcount j]
    · split
      · exact Nat.mod_lt _ (by decide)
      · exact hword
  · rw [beginAllocate_hit hi] at h' ⊢
    obtain ⟨l, hl, hrest⟩ := hchain.exists_cons hi
    change lists (.cache t (getIndex size)) = (s.thread t).freeList (getIndex size) :: l at hl
    change Chain s.os.memory (s.os.memory ((s.thread t).freeList (getIndex size))) l at hrest
    have hnew : lists' (.cache t (getIndex size)) = l := by
      have hc := h'.shelf.owned.chain (.cache t (getIndex size))
      refine hc.unique ?_
      simpa [headOf, setThread] using hrest
    have hsame (u j : Nat) (hne : u ≠ t ∨ j ≠ getIndex size) : lists' (.cache u j) = lists (.cache u j) := by
      apply cache_list_eq h h' rfl
      by_cases hu : u = t
      · subst hu
        simp [setThread, hne.resolve_left (not_not.mpr rfl)]
      · simp [setThread, hu]
    have hidle : s.pc = Function.update s.pc t .idle := (Function.update_eq_self_iff.mpr hpc.symm).symm
    refine ht.step rfl hidle (fun u hu j => hsame u j (.inl hu)) (fun j => ?_)
    have hword := ht.word t j
    have hshort := ht.short t j
    change sizeT (((s.thread t).decrement (getIndex size)).freeListSize j + 0) = _ ∧ _ ∧
      ((s.thread t).decrement (getIndex size)).freeListSize j < _
    rw [decrement_size]
    by_cases hj : j = getIndex size
    · subst hj
      have hc := hcount (getIndex size)
      rw [hl, List.length_cons] at hc hshort
      rw [hnew, if_pos rfl, hc]
      simp only [sizeT, threshold] at *
      omega
    · rw [if_neg hj, hsame t j (.inr hj), Nat.add_zero, sizeT_of_lt hword, hcount j]
      exact ⟨rfl, hshort, hcount j ▸ hword⟩

theorem beginDeallocate_uncut (huncut : counted (getIndex size) (s.thread t) ≤ threshold) :
    (s.beginDeallocate t p size).thread = Function.update s.thread t
      (((s.thread t).setList (getIndex size) p).setSize (getIndex size) (counted (getIndex size) (s.thread t))) := by
  simp only [beginDeallocate, deallocate_eq, if_neg (not_lt.mpr huncut)]
  rfl

theorem beginDeallocate_tally (h : Inv s lists) (ht : Tally s lists) (hpc : s.pc t = .idle) (hp : (p, size) ∈ s.held)
    (huncut : counted (getIndex size) (s.thread t) ≤ threshold) :
    ∃ lists', Inv (s.beginDeallocate t p size) lists' ∧ Tally (s.beginDeallocate t p size) lists' := by
  rcases beginDeallocate_cases h hpc hp with ⟨-, hpc', hinv⟩ | ⟨_, _, _, _, -, -, hcut, -⟩
  · have hidle : s.pc = Function.update s.pc t .idle := (Function.update_eq_self_iff.mpr hpc.symm).symm
    refine ⟨_, hinv, ht.step (beginDeallocate_uncut huncut) (hpc'.trans hidle) ?_ ?_⟩
    · intro u hu j
      exact Function.update_of_ne (by simp [hu]) _ _
    · intro j
      have hcount := ht.idle hpc j
      have hshort := ht.short t j
      have hword := ht.word t j
      change sizeT (Function.update (s.thread t).freeListSize (getIndex size)
          (counted (getIndex size) (s.thread t)) j + 0) = _ ∧ _ ∧
        Function.update (s.thread t).freeListSize (getIndex size) (counted (getIndex size) (s.thread t)) j < _
      by_cases hj : j = getIndex size
      · subst hj
        rw [Function.update_self, Function.update_self, List.length_cons]
        simp only [counted, sizeT, threshold] at *
        omega
      · rw [Function.update_of_ne hj, Function.update_of_ne (by simp [hj]), Nat.add_zero, sizeT_of_lt hword]
        exact ⟨hcount, hshort, hword⟩
  · exact absurd hcut (not_lt.mpr huncut)

theorem returnToCentralCache_size {start : Nat} {m m' : Words} {tc tc' : ThreadCache} {w : Nat × Nat × Nat}
    (h : returnToCentralCache start size m tc = (m', tc', some w)) :
    tc'.freeListSize (getIndex size) = keepNum (tc.freeListSize (getIndex size)) := by
  simp only [returnToCentralCache] at h
  split at h
  · simp at h
  · split at h
    · simp at h
    · split at h
      · simp only [Prod.mk.injEq] at h
        rw [← h.2.1]
        exact Function.update_self ..
      · simp at h

theorem beginDeallocate_size {pc : Pc} (hcut : threshold < counted (getIndex size) (s.thread t))
    (hidle : s.pc t = .idle) (hpc : (s.beginDeallocate t p size).pc t = pc) (hne : pc ≠ .idle) :
    ((s.beginDeallocate t p size).thread t).freeListSize (getIndex size) =
      keepNum (counted (getIndex size) (s.thread t)) := by
  rcases hd : (s.thread t).deallocate p size s.os.memory with ⟨m, tc, rest⟩
  cases rest with
  | none =>
      simp only [beginDeallocate, hd] at hpc
      exact absurd (hpc.symm.trans hidle) hne
  | some w =>
      have hthread : (s.beginDeallocate t p size).thread t = tc := by
        simp only [beginDeallocate, hd]
        exact Function.update_self ..
      rw [deallocate_eq, if_pos hcut] at hd
      rw [hthread, returnToCentralCache_size hd]
      exact congrArg keepNum (Function.update_self ..)

/-- A list that is cut keeps one block more than is counted. -/
theorem beginDeallocate_cut (h : Inv s lists) (hcount : (s.thread t).freeListSize (getIndex size) =
      (lists (.cache t (getIndex size))).length) (hshort : (lists (.cache t (getIndex size))).length ≤ threshold)
    (hpc : s.pc t = .idle) (hp : (p, size) ∈ s.held) (hcut : threshold < counted (getIndex size) (s.thread t)) :
    ((s.beginDeallocate t p size).pc t).awaits = none ∧ ∃ l, Chain (s.beginDeallocate t p size).os.memory
      (((s.beginDeallocate t p size).thread t).freeList (getIndex size)) l ∧
      l.length = ((s.beginDeallocate t p size).thread t).freeListSize (getIndex size) + 1 ∧ l.length ≤ threshold := by
  rcases beginDeallocate_cases h hpc hp with ⟨hno, -⟩ | ⟨u, node, r, q, -, hu, -, hpc', hinv⟩
  · refine absurd ⟨hcut, ?_⟩ hno
    simp only [counted, keepNum, sizeT, threshold] at *
    omega
  · have hsize := beginDeallocate_size hcut hpc (hpc' ▸ Function.update_self ..) (by simp)
    have hchain := hinv.shelf.owned.chain (.cache t (getIndex size))
    rw [Function.update_of_ne (by simp), Function.update_self] at hchain
    refine ⟨by rw [hpc', Function.update_self]; rfl, _, hchain, ?_, ?_⟩
    · rw [hsize, List.length_append, hu, List.length_singleton]
    · rw [List.length_append, hu, List.length_singleton]
      simp only [counted, keepNum, sizeT, threshold] at *
      omega

theorem beginDeallocate_drifts (h : Inv s lists) (ht : Tally s lists) (hpc : s.pc t = .idle) (hp : (p, size) ∈ s.held)
    (hcut : threshold < counted (getIndex size) (s.thread t)) :
    ¬ Tallied (s.beginDeallocate t p size) t (getIndex size) := by
  obtain ⟨hawaits, l, hl, hlen, hshort⟩ := beginDeallocate_cut h (ht.idle hpc _) (ht.short t _) hpc hp hcut
  rintro ⟨k, hk, hcount⟩
  rw [hk.unique hl, hlen, Pc.owed, hawaits, if_neg (by simp)] at hcount
  simp only [sizeT, threshold] at *
  omega

theorem supplied_iff {os os' : Os} {page page' : PageCache} {r : Ret} (hc : page.freeSpans = .empty)
    (h : CentralCache.fetchFromPageCache env (blockSize i) os page = some (r, os', page')) :
    Supplied env i os page ↔ ∃ p, r = .ptr p ∧ p ≠ 0 := by
  have hnone : page.freeSpans.lowerBound (CentralCache.numPages (blockSize i)) = none := by rw [hc]; rfl
  simp only [CentralCache.fetchFromPageCache, PageCache.allocateSpan, hnone] at h
  by_cases hmap : ∃ a ∈ env.mmap, os.Fresh a (sizeT (CentralCache.numPages (blockSize i) * pageSize))
  · obtain ⟨a, ha, hfresh⟩ := hmap
    have hsys : PageCache.systemAlloc env (CentralCache.numPages (blockSize i)) os =
        (a, ⟨memset os.memory a (sizeT (CentralCache.numPages (blockSize i) * pageSize)),
          (a, sizeT (CentralCache.numPages (blockSize i) * pageSize)) :: os.mapped⟩) := by
      simp only [PageCache.systemAlloc, Os.mmap, Option.mem_def.mp ha, if_pos hfresh]
    simp only [hsys, if_neg hfresh.1] at h
    cases hq : PageCache.newSpan env page with
    | none =>
        simp only [hq, Option.some.injEq, Prod.mk.injEq] at h
        simp [Supplied, hq, ← h.1]
    | some q =>
        simp only [hq, Option.some.injEq, Prod.mk.injEq] at h
        refine iff_of_true ⟨⟨a, ha, hfresh⟩, by simp [hq]⟩ ⟨a, h.1.symm, hfresh.1⟩
  · have hsys : PageCache.systemAlloc env (CentralCache.numPages (blockSize i)) os = (0, os) := by
      rcases PageCache.systemAlloc_eq env (CentralCache.numPages (blockSize i)) os with he | ⟨a, ha, hfresh, -⟩
      · exact he
      · exact absurd ⟨a, ha, hfresh⟩ hmap
    simp only [hsys, if_true, Option.some.injEq, Prod.mk.injEq] at h
    refine iff_of_false (fun hsup => hmap hsup.1) ?_
    rintro ⟨p, rfl, hp⟩
    exact hp (Ret.ptr.inj h.1).symm

/-- What a step of an unfinished call does to the counters: nothing, or it finds
that no block will come, or it adds the block that has come. -/
inductive Advanced (s s' : LeveledMemoryPool) (t : Nat) (env : Env) : Prop
  | still (pc : Pc) (hpc : s'.pc = Function.update s.pc t pc) (hthread : s'.thread = s.thread)
      (hawaits : pc.awaits = (s.pc t).awaits) (hserved : Served env s.os s.page (s.pc t))
  | failed (size i : Nat) (pc : Pc) (hspan : s.pc t = .fetchSpan size i) (hpc : s'.pc = Function.update s.pc t pc)
      (hthread : s'.thread = s.thread) (hawaits : pc.awaits = none) (hsupplied : ¬ Supplied env i s.os s.page)
  | added (size i start : Nat) (hfetched : s.pc t = .fetched size i start)
      (hpc : s'.pc = Function.update s.pc t .idle) (hthread : s'.thread = Function.update s.thread t
        (((s.thread t).setList i 0).setSize i (sizeT ((s.thread t).freeListSize i + 1))))

theorem advance_cases (h : Inv s lists) (hs : s.advance t env fuel = some s') : Advanced s s' t env := by
  cases hpc : s.pc t with
  | idle => simp [advance, hpc] at hs
  | fetchRange size i =>
      obtain ⟨hi, -⟩ := h.index_eq (t := t) (i := i) (by rw [hpc]; rfl)
      simp only [advance, hpc] at hs
      cases hb : s.central.beginFetch i s.os with
      | none => simp [hb] at hs
      | some r =>
          obtain ⟨-, ⟨h0, rfl⟩ | ⟨h0, rfl⟩⟩ := CentralCache.beginFetch_cases hi hb
          · simp only [hb, h0, ↓reduceIte, Option.some.injEq] at hs
            subst hs
            exact .still _ rfl rfl (by rw [hpc]; rfl) (by rw [hpc]; trivial)
          · simp only [hb, Option.some.injEq] at hs
            subst hs
            exact .still _ rfl rfl (by rw [hpc]; rfl) (by rw [hpc]; trivial)
  | fetchSpan size i =>
      simp only [advance, hpc] at hs
      cases ha : CentralCache.fetchFromPageCache env (blockSize i) s.os s.page with
      | none => simp [ha] at hs
      | some r =>
          obtain ⟨r, os, page⟩ := r
          have hiff := supplied_iff h.page ha
          simp only [ha, Option.some.injEq] at hs
          subst hs
          by_cases hsup : Supplied env i s.os s.page
          · obtain ⟨p, rfl, hp⟩ := hiff.mp hsup
            exact .still _ rfl rfl (by rw [hpc]; exact if_neg hp) (by rw [hpc]; exact hsup)
          · refine .failed size i _ hpc rfl rfl ?_ hsup
            cases r with
            | badAlloc => rfl
            | ptr p =>
                have hp : p = 0 := by
                  by_contra hp
                  exact hsup (hiff.mpr ⟨p, rfl, hp⟩)
                exact if_pos hp
  | fetchDone size i r =>
      simp only [advance, hpc] at hs
      cases r with
      | badAlloc =>
          simp only [CentralCache.endFetch, Option.some.injEq] at hs
          subst hs
          exact .still _ rfl rfl (by rw [hpc]; rfl) (by rw [hpc]; trivial)
      | ptr p =>
          by_cases hp : p = 0
          · simp only [CentralCache.endFetch, hp, ↓reduceIte, Option.some.injEq] at hs
            subst hs
            exact .still _ rfl rfl (by rw [hpc]; exact (if_pos hp).symm) (by rw [hpc]; trivial)
          · simp only [CentralCache.endFetch, if_neg hp, Option.some.injEq] at hs
            subst hs
            exact .still _ rfl rfl (by rw [hpc]; exact (if_neg hp).symm) (by rw [hpc]; trivial)
  | fetched size i start =>
      have hlist := (h.busy t).single size i start hpc
      have hchain := h.shelf.owned.chain (.transit t)
      have hhead : headOf s.thread s.central.centralFreeList s.pc (.transit t) = start := by
        simp only [headOf, hpc, Pc.block]
      rw [hlist, hhead] at hchain
      have hnull : s.os.memory start = 0 := hchain.2.2
      simp only [advance, hpc, Option.map_eq_some_iff] at hs
      obtain ⟨tc, had, rfl⟩ := hs
      simp only [ThreadCache.adopt, Option.map_eq_some_iff] at had
      obtain ⟨n, hn, rfl⟩ := had
      obtain ⟨l, hl, rfl⟩ := countChain_spec hn
      rw [hl.unique hchain, hnull]
      exact .added size i start hpc rfl rfl
  | returnRange start limit i =>
      simp only [advance, hpc, Option.map_eq_some_iff] at hs
      obtain ⟨r, -, rfl⟩ := hs
      exact .still _ rfl rfl (by rw [hpc]; rfl) (by rw [hpc]; trivial)

theorem advance_tally (h : Inv s lists) (ht : Tally s lists) (hs : s.advance t env fuel = some s') :
    (Served env s.os s.page (s.pc t) → ∃ lists', Inv s' lists' ∧ Tally s' lists') ∧
      (¬ Served env s.os s.page (s.pc t) → ∃ i, ¬ Tallied s' t i) := by
  obtain ⟨lists', hinv, -, hlists⟩ := advance_quiet h hs
  cases advance_cases h hs with
  | still pc hpc hthread hawaits hserved =>
      refine ⟨fun _ => ⟨lists', hinv, ht.step (c := s.thread t) ?_ hpc (fun u _ j => hlists u j) ?_⟩,
        fun hno => absurd hserved hno⟩
      · rw [Function.update_eq_self]
        exact hthread
      · intro j
        have hcount := ht.count t j
        rw [Pc.owed, ← hawaits] at hcount
        rw [hlists t j]
        exact ⟨hcount, ht.short t j, ht.word t j⟩
  | failed size i pc hspan hpc hthread hawaits hsupplied =>
      refine ⟨fun hserved => ?_, fun _ => ⟨i, ?_⟩⟩
      · rw [hspan] at hserved
        exact absurd hserved hsupplied
      · have hcount := ht.count t i
        have hword := ht.word t i
        rw [hspan, Pc.owed, Pc.awaits, if_pos rfl] at hcount
        rw [tallied_iff hinv, hthread, hpc, Function.update_self, hlists t i, ← hcount, Pc.owed, hawaits,
          if_neg (by simp)]
        simp only [sizeT]
        omega
  | added size i start hfetched hpc hthread =>
      refine ⟨fun _ => ⟨lists', hinv, ht.step hthread hpc (fun u _ j => hlists u j) ?_⟩, fun hno => ?_⟩
      · intro j
        have hcount := ht.count t j
        have hword := ht.word t j
        have hshort := ht.short t j
        rw [hfetched, Pc.owed, Pc.awaits] at hcount
        rw [hlists t j]
        change sizeT (Function.update (s.thread t).freeListSize i
            (sizeT ((s.thread t).freeListSize i + 1)) j + 0) = _ ∧ _ ∧
          Function.update (s.thread t).freeListSize i (sizeT ((s.thread t).freeListSize i + 1)) j < _
        by_cases hj : j = i
        · subst hj
          rw [if_pos rfl] at hcount
          rw [Function.update_self, hcount]
          simp only [sizeT, threshold] at *
          omega
        · rw [if_neg (by simpa using Ne.symm hj)] at hcount
          rw [Function.update_of_ne hj]
          exact ⟨hcount, hshort, hword⟩
      · rw [hfetched] at hno
        exact absurd trivial hno

theorem advance_counterExact (h : Inv s lists) (hawaits : (s.pc t).awaits = none)
    (hs : s.advance t env fuel = some s') :
    CounterExact s' t i ↔ CounterExact s t i := by
  obtain ⟨lists', hinv, -, hlists⟩ := advance_quiet h hs
  cases advance_cases h hs with
  | still pc hpc hthread => rw [counterExact_iff hinv, counterExact_iff h, hthread, hlists t i]
  | failed size i pc hspan =>
      rw [hspan] at hawaits
      cases hawaits
  | added size i start hfetched =>
      rw [hfetched] at hawaits
      cases hawaits

theorem step_tally {a : Act} (h : Inv s lists) (ht : Tally s lists) (hs : step a s = some s') :
    (Steady a s → ∃ lists', Inv s' lists' ∧ Tally s' lists') ∧ (¬ Steady a s → ∃ t i, ¬ Tallied s' t i) := by
  cases a with
  | allocate t size =>
      simp only [step, Option.ite_none_right_eq_some, Option.some.injEq] at hs
      obtain ⟨⟨hpc, hsize⟩, rfl⟩ := hs
      obtain ⟨lists', hinv, -⟩ := beginAllocate_sound h hpc hsize
      exact ⟨fun _ => ⟨lists', hinv, beginAllocate_tally h ht hpc hinv⟩, fun hno => absurd trivial hno⟩
  | deallocate t p size =>
      simp only [step, Option.ite_none_right_eq_some, Option.some.injEq] at hs
      obtain ⟨⟨hpc, hp⟩, rfl⟩ := hs
      exact ⟨beginDeallocate_tally h ht hpc hp, fun hno => ⟨t, _, beginDeallocate_drifts h ht hpc hp (not_le.mp hno)⟩⟩
  | «continue» t env fuel =>
      obtain ⟨hkeep, hbreak⟩ := advance_tally h ht hs
      exact ⟨hkeep, fun hno => ⟨t, hbreak hno⟩⟩
  | write p size a v =>
      simp only [step, Option.ite_none_right_eq_some, Option.some.injEq] at hs
      obtain ⟨⟨hp, ha, ha'⟩, rfl⟩ := hs
      exact ⟨fun _ => ⟨lists, h.write hp ha ha', ht.count, ht.short, ht.word⟩, fun hno => absurd trivial hno⟩

theorem reachable_tally (h : Reachable start step Steady s) : ∃ lists, Inv s lists ∧ Tally s lists := by
  refine h.invariant (I := fun s => ∃ lists, Inv s lists ∧ Tally s lists) ?_ ?_
  · rintro s ⟨m, rfl⟩
    exact ⟨_, Inv.initial m, fun _ _ => rfl, fun _ _ => Nat.zero_le _,
      fun _ _ => by simp [initial, ThreadCache.initial]⟩
  · rintro a s t ⟨lists, hinv, ht⟩ hc hs
    exact (step_tally hinv ht hs).1 hc

end tally

/-- In every run whose steps meet the condition the counters are exact between calls,
and the first step that does not meet it puts one wrong. -/
theorem counters_exact {s : LeveledMemoryPool} (h : Reachable start step Steady s) :
    (∀ t, s.pc t = .idle → ∀ i, CounterExact s t i) ∧
    ∀ a s', step a s = some s' → ((∀ t i, Tallied s' t i) ↔ Steady a s) := by
  obtain ⟨lists, hinv, ht⟩ := reachable_tally h
  constructor
  · intro t hpc i
    exact counterExact_of_idle hinv ht hpc
  · intro a s' hs
    obtain ⟨hkeep, hbreak⟩ := step_tally hinv ht hs
    constructor
    · intro htallied
      by_contra hno
      obtain ⟨t, i, hwrong⟩ := hbreak hno
      exact hwrong (htallied t i)
    · intro hsteady t i
      obtain ⟨lists', hinv', ht'⟩ := hkeep hsteady
      exact (tallied_iff hinv').mpr (ht'.count t i)

theorem counters_exact_one_cached :
    ∃ s s', Reachable start step Steady s ∧ (s.thread 0).freeListSize 2047 = 1 ∧ (∀ i, CounterExact s 0 i) ∧
      step (.allocate 0 16384) s = some s' ∧ ∀ t i, Tallied s' t i := by
  have hrun : (run (guarded step Steady) [.allocate 0 16384, .continue 0 ⟨none, none⟩ 0,
      .continue 0 ⟨some 4096, some 1⟩ 0, .continue 0 ⟨none, none⟩ 0, .continue 0 ⟨none, none⟩ 2,
      .deallocate 0 4096 16384] zeros).map (fun s => ((s.thread 0).freeListSize 2047, s.pc 0)) =
      some (1, .idle) := by decide +kernel
  obtain ⟨s, hr, he⟩ := reachable_of_run start hrun ⟨_, rfl⟩
  obtain ⟨hsize, hpc⟩ := Prod.mk.inj he
  have hnext : step (.allocate 0 16384) s = some (s.beginAllocate 0 16384) := if_pos ⟨hpc, by decide⟩
  exact ⟨s, _, hr, hsize, (counters_exact hr).1 0 hpc, hnext, ((counters_exact hr).2 _ _ hnext).mpr trivial⟩

/-- A list that is cut at 65 blocks keeps 17 and counts 16, and a request that
gets no span leaves the counter of an empty list at the largest number. -/
theorem counters_drift :
    (∃ s, Reachable start step always s ∧ s.pc 0 = .idle ∧ ¬ CounterExact s 0 0) ∧
    ∃ s, Reachable start step always s ∧ s.pc 0 = .idle ∧ (s.thread 0).freeListSize 0 = 2 ^ 64 - 1 ∧
      ¬ CounterExact s 0 0 := by
  constructor
  · obtain ⟨s, s', lists, hsurged⟩ := exists_surged
    have hcut : threshold < counted (getIndex 0) (s.thread 0) := by
      simp only [counted, show getIndex 0 = 0 by decide, hsurged.size]
      decide
    obtain ⟨s₁, h₁, hrest⟩ := Option.bind_eq_some_iff.mp hsurged.free
    obtain ⟨s₂, h₂, he⟩ := Option.bind_eq_some_iff.mp hrest
    obtain rfl : s₂ = s' := Option.some.inj he
    obtain ⟨lists', hinv', -⟩ := step_sound hsurged.inv h₁
    simp only [step, Option.ite_none_right_eq_some, Option.some.injEq] at h₁
    obtain ⟨-, rfl⟩ := h₁
    have hcounted : (s.thread 0).freeListSize (getIndex 0) = 64 := hsurged.size
    obtain ⟨hawaits, k, hk, hlong, -⟩ := beginDeallocate_cut hsurged.inv (by rw [hsurged.length]; exact hcounted)
      (by rw [hsurged.length]; decide) hsurged.idle hsurged.held hcut
    refine ⟨s₂, hsurged.freed, by rw [hsurged.pc, hsurged.idle], fun hexact => ?_⟩
    obtain ⟨l', hl', hlen'⟩ := (advance_counterExact (i := getIndex 0) hinv' hawaits h₂).mp hexact
    rw [hl'.unique hk, hlong] at hlen'
    exact Nat.succ_ne_self _ hlen'.symm
  · have hrun : (run (guarded step always) [.allocate 0 1, .continue 0 ⟨none, none⟩ 0, .continue 0 ⟨none, none⟩ 0,
        .continue 0 ⟨none, none⟩ 0] zeros).map
        (fun s => (s.pc 0, (s.thread 0).freeListSize 0, (s.thread 0).freeList 0)) =
        some (.idle, 2 ^ 64 - 1, 0) := by decide +kernel
    obtain ⟨s, hs, he⟩ := Option.map_eq_some_iff.mp hrun
    simp only [Prod.mk.injEq] at he
    obtain ⟨hpc, hsize, hhead⟩ := he
    refine ⟨s, Reachable.run (.start ⟨_, rfl⟩) _ hs, hpc, hsize, ?_⟩
    rintro ⟨l, hl, hlen⟩
    rw [hhead, chain_null] at hl
    rw [hl, hsize] at hlen
    exact absurd hlen (by decide)

end LeveledMemoryPool

end LearnNote.Memory
