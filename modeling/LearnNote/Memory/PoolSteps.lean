import LearnNote.Memory.PoolInvariant

namespace LearnNote.Memory.LeveledMemoryPool

open Lib Linked Extents SizeClass ThreadCache

/-- The blocks of a pool in a state where the invariant holds, and none lost if
none was before and the step loses none. -/
def Sound (s s' : LeveledMemoryPool) (lists : Place → List Nat) (keeps : Prop) : Prop :=
  ∃ lists', Inv s' lists' ∧
    (Whole s.carved s.held s.pc lists → keeps → Whole s'.carved s'.held s'.pc lists')

/-- A step of an unfinished operation: it loses no block, and the lists of the
threads are as before. -/
def Quiet (s s' : LeveledMemoryPool) (lists : Place → List Nat) : Prop :=
  ∃ lists', Inv s' lists' ∧ (Whole s.carved s.held s.pc lists → Whole s'.carved s'.held s'.pc lists') ∧
    ∀ u i, lists' (.cache u i) = lists (.cache u i)

theorem Quiet.sound {s s' : LeveledMemoryPool} {lists : Place → List Nat} {keeps : Prop} (h : Quiet s s' lists) :
    Sound s s' lists keeps := by
  obtain ⟨lists', hinv, hwhole, -⟩ := h
  exact ⟨lists', hinv, fun hw _ => hwhole hw⟩

section threads

variable {s : LeveledMemoryPool} {lists : Place → List Nat} {t p size : Nat}

theorem other_cache {i u : Nat} {l : List Nat} (lists : Place → List Nat) :
    Function.update lists (.cache t i) l (.transit u) = lists (.transit u) := by
  simp

theorem beginAllocate_miss (hi : (s.thread t).freeList (getIndex size) = 0) :
    s.beginAllocate t size = (s.setThread t ((s.thread t).decrement (getIndex size))).setPc t
      (.fetchRange size (getIndex size)) := by
  simp [beginAllocate, ThreadCache.requestIndex_eq, ThreadCache.popLocal, hi]

theorem beginAllocate_hit (hi : (s.thread t).freeList (getIndex size) ≠ 0) :
    s.beginAllocate t size =
      { s.setThread t (((s.thread t).decrement (getIndex size)).setList (getIndex size)
          (s.os.memory ((s.thread t).freeList (getIndex size)))) with
        held := ((s.thread t).freeList (getIndex size), size) :: s.held } := by
  simp [beginAllocate, ThreadCache.requestIndex_eq, ThreadCache.popLocal, hi, setThread]

theorem beginAllocate_sound (h : Inv s lists) (hpc : s.pc t = .idle) (hsize : size ≤ maxBytes) :
    Sound s (s.beginAllocate t size) lists True := by
  have hidle : Function.update s.pc t .idle = s.pc := Function.update_eq_self_iff.mpr hpc.symm
  have hlock : (s.pc t).lock = none := by rw [hpc]; rfl
  by_cases hi : (s.thread t).freeList (getIndex size) = 0
  · rw [beginAllocate_miss hi]
    have hshelf : Shelf s.os.memory
        (headOf (Function.update s.thread t ((s.thread t).decrement (getIndex size))) s.central.centralFreeList
          (Function.update s.pc t (.fetchRange size (getIndex size))))
        (classOf (Function.update s.pc t (.fetchRange size (getIndex size)))) s.held s.carved lists := by
      rw [headOf_cache_eq (by simp), Inv.headOf_still (by rw [hpc]; rfl), Inv.classOf_still (by rw [hpc]; rfl)]
      exact h.shelf
    have hbusy : Busy s.central.centralFreeList ((s.thread t).decrement (getIndex size)) (lists (.transit t))
        (.fetchRange size (getIndex size)) := by
      refine ⟨by simp [Pc.lock], ?_, by simp, by simp⟩
      intro n i hr
      simp only [Pc.request, Option.some.injEq, Prod.mk.injEq] at hr
      obtain ⟨rfl, rfl⟩ := hr
      exact ⟨hsize, rfl, hi⟩
    exact ⟨lists, h.local_step hshelf (fun a => .inl rfl) hlock rfl rfl rfl (fun _ _ => rfl) hbusy (fun _ _ => rfl),
      fun hw _ => hw.next (fun b hb => hb) (by simp) (fun _ _ => rfl)⟩
  · rw [beginAllocate_hit hi]
    obtain ⟨l, hl, hshelf⟩ := h.shelf.give (i := Place.cache t (getIndex size)) hi
      (show classOf s.pc (.cache t (getIndex size)) = getIndex size from rfl)
    have hnext : Shelf s.os.memory
        (headOf (Function.update s.thread t (((s.thread t).decrement (getIndex size)).setList (getIndex size)
          (s.os.memory ((s.thread t).freeList (getIndex size))))) s.central.centralFreeList
          (Function.update s.pc t .idle))
        (classOf (Function.update s.pc t .idle)) (((s.thread t).freeList (getIndex size), size) :: s.held) s.carved
        (Function.update lists (.cache t (getIndex size)) l) := by
      rw [hidle, headOf_cache (i := getIndex size) (v := s.os.memory ((s.thread t).freeList (getIndex size))) (by simp)]
      exact hshelf
    have hinv := h.local_step hnext (fun a => .inl rfl) hlock rfl rfl rfl (fun _ _ => rfl) Busy.idle
      (fun _ _ => other_cache lists)
    have hwhole : Whole s.carved s.held s.pc lists → Whole s.carved
        (((s.thread t).freeList (getIndex size), size) :: s.held) (Function.update s.pc t .idle)
        (Function.update lists (.cache t (getIndex size)) l) :=
      fun hw => hw.next (fun b hb => hb.give hl) (by simp) (fun _ _ => other_cache lists)
    rw [hidle] at hinv hwhole
    exact ⟨_, hinv, fun hw _ => hwhole hw⟩

/-- The blocks behind the cut of a list are no more than returnRange will hand
back, when the list is cut. -/
def Lossless (t size : Nat) (s : LeveledMemoryPool) : Prop :=
  ∀ l, Chain s.os.memory ((s.thread t).freeList (getIndex size)) l →
    threshold < counted (getIndex size) (s.thread t) →
    l.length ≤ keepNum (counted (getIndex size) (s.thread t)) +
      max (limit size (counted (getIndex size) (s.thread t))) 1

theorem beginDeallocate_held (s : LeveledMemoryPool) (t p size : Nat) :
    (s.beginDeallocate t p size).carved = s.carved ∧ (s.beginDeallocate t p size).held = s.held.erase (p, size) := by
  simp only [beginDeallocate]
  split <;> exact ⟨rfl, rfl⟩

theorem beginDeallocate_cases (h : Inv s lists) (hpc : s.pc t = .idle) (hp : (p, size) ∈ s.held) :
    (¬ (threshold < counted (getIndex size) (s.thread t) ∧
        keepNum (counted (getIndex size) (s.thread t)) < (lists (.cache t (getIndex size))).length) ∧
      (s.beginDeallocate t p size).pc = s.pc ∧
      Inv (s.beginDeallocate t p size)
        (Function.update lists (.cache t (getIndex size)) (p :: lists (.cache t (getIndex size))))) ∨
    ∃ u node r q, p :: lists (.cache t (getIndex size)) = u ++ node :: r ∧
      u.length = keepNum (counted (getIndex size) (s.thread t)) ∧
      threshold < counted (getIndex size) (s.thread t) ∧
      (s.beginDeallocate t p size).pc = Function.update s.pc t
        (.returnRange q (limit size (counted (getIndex size) (s.thread t))) (getIndex size)) ∧
      Inv (s.beginDeallocate t p size)
        (Function.update (Function.update (Function.update lists (.cache t (getIndex size))
          (p :: lists (.cache t (getIndex size)))) (.cache t (getIndex size)) (u ++ [node])) (.transit t) r) := by
  have hidle : Function.update s.pc t .idle = s.pc := Function.update_eq_self_iff.mpr hpc.symm
  have hlock : (s.pc t).lock = none := by rw [hpc]; rfl
  have hgiven := h.shelf.given _ hp
  have hp0 : p ≠ 0 := h.ground.block_pos hgiven
  have hnil : lists (.transit t) = [] := h.transit_nil (by rw [hpc]; rfl)
  have htake := h.shelf.take (i := Place.cache t (getIndex size)) hp hp0 rfl
  obtain ⟨tc, m, htc, hm, hd⟩ := deallocate_cases p size s.os.memory (s.thread t)
  change Shelf (Function.update s.os.memory p ((s.thread t).freeList (getIndex size))) _ _ _ _ _ at htake
  rw [← hm] at htake
  have hchain := htake.owned.chain (.cache t (getIndex size))
  simp only [Function.update_self] at hchain
  have hstore : ∀ a, m a = s.os.memory a ∨ ∃ b ∈ s.carved, Covers (extent b) a := by
    intro a
    by_cases ha : a = p
    · subst ha
      exact .inr ⟨_, hgiven, extent_self (a, getIndex size)⟩
    · exact .inl (by rw [hm, Function.update_of_ne ha])
  rcases hd with ⟨hd, hnone⟩ | ⟨node, hnode, hn0, hx, hcount, hd⟩
  · have hnext : Shelf m
        (headOf (Function.update s.thread t tc) s.central.centralFreeList (Function.update s.pc t .idle))
        (classOf (Function.update s.pc t .idle)) (s.held.erase (p, size)) s.carved
        (Function.update lists (.cache t (getIndex size)) (p :: lists (.cache t (getIndex size)))) := by
      rw [hidle, headOf_cache htc]
      exact htake
    have hinv := h.local_step hnext hstore hlock rfl rfl rfl (fun _ _ => rfl) Busy.idle (fun _ _ => other_cache lists)
    rw [hidle] at hinv
    simp only [beginDeallocate, hd]
    refine .inl ⟨?_, rfl, hinv⟩
    rintro ⟨hc, hlong⟩
    have hin := splitNode_inside hchain (keepNum (counted (getIndex size) (s.thread t)))
      (by simpa using hlong)
    rcases hnone hc with h0 | h0
    · exact hin.1 h0
    · exact hin.2 h0
  · obtain ⟨u, r, hl, hu⟩ := splitNode_spec hchain hp0 _ (hnode ▸ hn0)
    rw [← hnode] at hl
    have hcut := htake.cut (i := Place.cache t (getIndex size)) (j := Place.transit t)
      (by rw [Function.update_self]; exact hl) (by simp) (by simpa using hnil)
    have hmem : node ∈ Function.update lists (.cache t (getIndex size)) (p :: lists (.cache t (getIndex size)))
        (.cache t (getIndex size)) := by simp [hl]
    have hstore' : ∀ a, Function.update m node 0 a = s.os.memory a ∨ ∃ b ∈ s.carved, Covers (extent b) a := by
      intro a
      by_cases ha : a = node
      · subst ha
        exact .inr ⟨_, htake.listed _ _ hmem, extent_self (a, _)⟩
      · rw [Function.update_of_ne ha]
        exact hstore a
    have hother : ∀ v, v ≠ t → Function.update (Function.update (Function.update lists (.cache t (getIndex size))
        (p :: lists (.cache t (getIndex size)))) (.cache t (getIndex size)) (u ++ [node])) (.transit t) r (.transit v) =
        lists (.transit v) := by
      intro v hv
      simp [hv]
    have hnext : Shelf (Function.update m node 0)
        (headOf (Function.update s.thread t tc) s.central.centralFreeList (Function.update s.pc t
          (.returnRange (m node) (limit size (counted (getIndex size) (s.thread t))) (getIndex size))))
        (classOf (Function.update s.pc t
          (.returnRange (m node) (limit size (counted (getIndex size) (s.thread t))) (getIndex size))))
        (s.held.erase (p, size)) s.carved
        (Function.update (Function.update (Function.update lists (.cache t (getIndex size))
          (p :: lists (.cache t (getIndex size)))) (.cache t (getIndex size)) (u ++ [node])) (.transit t) r) := by
      rw [headOf_transit, headOf_cache htc, classOf_transit]
      exact hcut
    have hbusy : Busy s.central.centralFreeList tc r
        (.returnRange (m node) (limit size (counted (getIndex size) (s.thread t))) (getIndex size)) := by
      refine ⟨by simp [Pc.lock], by simp [Pc.request], by simp, ?_⟩
      rintro q n i he
      simp only [Pc.returnRange.injEq] at he
      exact ⟨he.1 ▸ hx, he.2.2 ▸ h.ground.carved_class _ hgiven⟩
    have hinv := h.local_step hnext hstore' hlock rfl rfl rfl (fun _ _ => rfl) (by simpa using hbusy) hother
    simp only [beginDeallocate, hd]
    exact .inr ⟨u, node, r, m node, hl, hu, hcount, rfl, hinv⟩

theorem beginDeallocate_sound (h : Inv s lists) (hpc : s.pc t = .idle) (hp : (p, size) ∈ s.held) :
    Sound s (s.beginDeallocate t p size) lists (Lossless t size s) := by
  have hnil : lists (.transit t) = [] := h.transit_nil (by rw [hpc]; rfl)
  have hheld := beginDeallocate_held s t p size
  rcases beginDeallocate_cases h hpc hp with ⟨-, hpc', hinv⟩ | ⟨u, node, r, q, hl, hu, hcount, hpc', hinv⟩
  · refine ⟨_, hinv, fun hw _ => ?_⟩
    rw [hheld.1, hheld.2, hpc']
    have hn : Whole s.carved (s.held.erase (p, size)) (Function.update s.pc t .idle)
        (Function.update lists (.cache t (getIndex size)) (p :: lists (.cache t (getIndex size)))) :=
      hw.next (fun b hb => hb.take) (by simp) (fun _ _ => other_cache lists)
    rwa [Function.update_eq_self_iff.mpr hpc.symm] at hn
  · refine ⟨_, hinv, fun hw hless => ?_⟩
    rw [hheld.1, hheld.2, hpc']
    refine hw.next ?_ ?_ ?_
    · intro b hb
      exact hb.take.cut (by rw [Function.update_self]; exact hl) (by simp) (by simpa using hnil)
    · intro q n i he
      simp only [Pc.returnRange.injEq] at he
      have hlen := hless _ (h.shelf.owned.chain (.cache t (getIndex size))) hcount
      have hsum := congrArg List.length hl
      simp only [List.length_cons, List.length_append] at hsum
      rw [Function.update_self, ← he.2.1]
      omega
    · intro v hv
      simp [hv]

theorem fetchRange_quiet (h : Inv s lists) {i : Nat} (hpc : s.pc t = .fetchRange size i) {env : Env} {fuel : Nat}
    {s' : LeveledMemoryPool} (hs : s.advance t env fuel = some s') : Quiet s s' lists := by
  have hreq : (s.pc t).request = some (size, i) := by rw [hpc]; rfl
  have hlock : (s.pc t).lock = none := by rw [hpc]; rfl
  have hnil : lists (.transit t) = [] := h.transit_nil (by rw [hpc]; rfl)
  obtain ⟨hi, hindex⟩ := h.index_eq hreq
  simp only [advance, hpc] at hs
  cases hb : s.central.beginFetch i s.os with
  | none => simp [hb] at hs
  | some r =>
      obtain ⟨hfree, ⟨h0, rfl⟩ | ⟨h0, rfl⟩⟩ := CentralCache.beginFetch_cases hi hb
      · simp only [hb, h0, ↓reduceIte, Option.some.injEq] at hs
        subst hs
        obtain ⟨l, hl, hmove⟩ := h.shelf.move (i := Place.central i) (j := Place.transit t) h0 (by simp) hnil
        have hother : ∀ u, u ≠ t → Function.update (Function.update lists (.central i) l) (.transit t)
            [s.central.centralFreeList i] (.transit u) = lists (.transit u) := by
          intro u hu
          simp [hu]
        have hnext : Shelf (Function.update s.os.memory (s.central.centralFreeList i) 0)
            (headOf (Function.update s.thread t (s.thread t)) (Function.update s.central.centralFreeList i
              (s.os.memory (s.central.centralFreeList i)))
              (Function.update s.pc t (.fetched size i (s.central.centralFreeList i))))
            (classOf (Function.update s.pc t (.fetched size i (s.central.centralFreeList i)))) s.held s.carved
            (Function.update (Function.update lists (.central i) l) (.transit t) [s.central.centralFreeList i]) := by
          rw [Function.update_eq_self, headOf_transit, headOf_central, classOf_transit]
          exact hmove
        have hstore : ∀ a, Function.update s.os.memory (s.central.centralFreeList i) 0 a = s.os.memory a ∨
            ∃ b ∈ s.carved, Covers (extent b) a := by
          intro a
          by_cases ha : a = s.central.centralFreeList i
          · subst ha
            exact .inr (h.covered (h.shelf.head_mem (i := Place.central i) h0))
          · exact .inl (Function.update_of_ne ha _ _)
        have hbusy : Busy (Function.update s.central.centralFreeList i (s.os.memory (s.central.centralFreeList i)))
            (s.thread t) [s.central.centralFreeList i] (.fetched size i (s.central.centralFreeList i)) := by
          have hold := (h.busy t).request
          rw [hpc] at hold
          refine ⟨by simp [Pc.lock], hold, ?_, by simp⟩
          rintro n j q he
          simp only [Pc.fetched.injEq] at he
          rw [he.2.2]
        have hkept : ∀ j, s.central.locks j = true → Function.update s.central.centralFreeList i
            (s.os.memory (s.central.centralFreeList i)) j = s.central.centralFreeList j := by
          intro j hj
          apply Function.update_of_ne
          rintro rfl
          simp [hfree] at hj
        have hinv := h.local_step (c := ⟨_, s.central.locks⟩) hnext hstore hlock rfl rfl rfl hkept
          (by rw [Function.update_self]; exact hbusy) hother
        rw [Function.update_eq_self] at hinv
        exact ⟨_, hinv, fun hw => hw.next (fun b hb => hb.move hl (by simp) hnil) (by simp) hother,
          fun _ _ => by simp⟩
      · simp only [hb, Option.some.injEq] at hs
        subst hs
        exact ⟨lists, h.acquire hpc hfree h0, fun hw => hw.next (fun b hb => hb) (by simp) (fun _ _ => rfl),
          fun _ _ => rfl⟩

theorem fetched_quiet (h : Inv s lists) {i start : Nat} (hpc : s.pc t = .fetched size i start) {env : Env} {fuel : Nat}
    {s' : LeveledMemoryPool} (hs : s.advance t env fuel = some s') : Quiet s s' lists := by
  have hlock : (s.pc t).lock = none := by rw [hpc]; rfl
  obtain ⟨-, hindex, hempty⟩ := (h.busy t).request size i (by rw [hpc]; rfl)
  have hlist := (h.busy t).single size i start hpc
  have hchain := h.shelf.owned.chain (.transit t)
  have hhead : headOf s.thread s.central.centralFreeList s.pc (.transit t) = start := by
    simp only [headOf, hpc, Pc.block]
  rw [hlist] at hchain
  obtain ⟨-, hstart, hnull⟩ := hchain
  simp only [advance, hpc, Option.map_eq_some_iff] at hs
  obtain ⟨tc, had, rfl⟩ := hs
  obtain ⟨l, hl, hgive⟩ := h.shelf.give (i := Place.transit t) (hhead ▸ hstart)
    (show classOf s.pc (.transit t) = getIndex size by simp only [classOf, hpc, Pc.index, hindex])
  rw [hlist, hhead] at hl
  obtain rfl : [] = l := (List.cons.inj hl).2
  rw [hhead] at hgive
  simp only [ThreadCache.adopt, Option.map_eq_some_iff] at had
  obtain ⟨n, -, rfl⟩ := had
  have hsame : (((s.thread t).setList i (s.os.memory start)).setSize i
      (sizeT ((s.thread t).freeListSize i + n))).freeList = (s.thread t).freeList := by
    simp only [ThreadCache.setSize_freeList, ThreadCache.setList_freeList]
    exact Function.update_eq_self_iff.mpr (hnull.trans hempty.symm)
  have hother : ∀ u, u ≠ t → Function.update lists (.transit t) [] (.transit u) = lists (.transit u) := by
    intro u hu
    simp [hu]
  have hnext : Shelf s.os.memory
      (headOf (Function.update s.thread t (((s.thread t).setList i (s.os.memory start)).setSize i
        (sizeT ((s.thread t).freeListSize i + n)))) s.central.centralFreeList (Function.update s.pc t .idle))
      (classOf (Function.update s.pc t .idle)) ((start, size) :: s.held) s.carved
      (Function.update lists (.transit t) []) := by
    rw [headOf_cache_eq hsame, headOf_transit, classOf_transit]
    rw [hnull] at hgive
    apply hgive.relabel
    intro k hk
    apply Function.update_of_ne
    rintro rfl
    simp at hk
  have hinv := h.local_step hnext (fun a => .inl rfl) hlock rfl rfl rfl (fun _ _ => rfl) Busy.idle hother
  refine ⟨_, hinv, fun hw => hw.next (fun b hb => hb.give ?_) (by simp) hother, fun _ _ => by simp⟩
  exact hlist

/-- The locked section of returnRange: blocks behind the limit are dropped. -/
theorem returnRange_drop (h : Inv s lists) {start limit i : Nat} (hpc : s.pc t = .returnRange start limit i)
    {r : Os × CentralCache} (hr : s.central.returnRange start limit i s.os = some r) :
    ∃ u q k, lists (.transit t) = u ++ q :: k ∧ (k = [] ↔ (lists (.transit t)).length ≤ max limit 1) ∧
      Inv ({ s with os := r.1, central := r.2 }.setPc t .idle)
        (Function.update (Function.update lists (.transit t) []) (.central i) (u ++ q :: lists (.central i))) := by
  have hlock : (s.pc t).lock = none := by rw [hpc]; rfl
  obtain ⟨h0, hi⟩ := (h.busy t).back start limit i hpc
  have hhead : headOf s.thread s.central.centralFreeList s.pc (.transit t) = start := by
    simp only [headOf, hpc, Pc.block]
  have hclass : classOf s.pc (.transit t) = i := by simp only [classOf, hpc, Pc.index]
  obtain ⟨hfree, rfl⟩ := CentralCache.returnRange_eq h0 hi hr
  have hchain := h.shelf.owned.chain (.transit t)
  rw [hhead] at hchain
  obtain ⟨u, k, hl, hshort⟩ := CentralCache.lastOf_spec hchain h0 (limit - 1)
  have hsplice := h.shelf.splice (i := Place.transit t) (j := Place.central i) hl (by simp) hclass
  have hother : ∀ v, v ≠ t → Function.update (Function.update lists (.transit t) []) (.central i)
      (u ++ CentralCache.lastOf s.os.memory (limit - 1) start :: lists (.central i)) (.transit v) =
      lists (.transit v) := by
    intro v hv
    simp [hv]
  have hnext : Shelf (Function.update s.os.memory (CentralCache.lastOf s.os.memory (limit - 1) start)
      (s.central.centralFreeList i))
      (headOf (Function.update s.thread t (s.thread t)) (Function.update s.central.centralFreeList i start)
        (Function.update s.pc t .idle))
      (classOf (Function.update s.pc t .idle)) s.held s.carved
      (Function.update (Function.update lists (.transit t) []) (.central i)
        (u ++ CentralCache.lastOf s.os.memory (limit - 1) start :: lists (.central i))) := by
    rw [Function.update_eq_self, headOf_central, headOf_transit, classOf_transit]
    rw [hhead] at hsplice
    apply hsplice.relabel
    intro j hj
    apply Function.update_of_ne
    rintro rfl
    simp at hj
  have hstore : ∀ a, Function.update s.os.memory (CentralCache.lastOf s.os.memory (limit - 1) start)
      (s.central.centralFreeList i) a = s.os.memory a ∨ ∃ b ∈ s.carved, Covers (extent b) a := by
    intro a
    by_cases ha : a = CentralCache.lastOf s.os.memory (limit - 1) start
    · subst ha
      exact .inr (h.covered (k := Place.transit t) (by rw [hl]; simp))
    · exact .inl (Function.update_of_ne ha _ _)
  have hkept : ∀ j, s.central.locks j = true →
      Function.update s.central.centralFreeList i start j = s.central.centralFreeList j := by
    intro j hj
    apply Function.update_of_ne
    rintro rfl
    simp [hfree] at hj
  have hinv := h.local_step (c := ⟨_, s.central.locks⟩) hnext hstore hlock rfl rfl rfl hkept Busy.idle hother
  rw [Function.update_eq_self] at hinv
  refine ⟨u, _, k, hl, ?_, hinv⟩
  rw [hshort]
  omega

theorem returnRange_quiet (h : Inv s lists) {start limit i : Nat} (hpc : s.pc t = .returnRange start limit i) {env : Env}
    {fuel : Nat} {s' : LeveledMemoryPool} (hs : s.advance t env fuel = some s') : Quiet s s' lists := by
  simp only [advance, hpc, Option.map_eq_some_iff] at hs
  obtain ⟨r, hr, rfl⟩ := hs
  obtain ⟨u, q, k, hl, hdrop, hinv⟩ := returnRange_drop h hpc hr
  refine ⟨_, hinv, fun hw => hw.next (fun b hb => hb.splice ?_) (by simp) ?_, fun _ _ => by simp⟩
  · rw [hl, hdrop.mpr (hw.short t start limit i hpc)]
  · intro v hv
    simp [hv]

theorem fetchSpan_quiet (h : Inv s lists) {i : Nat} (hpc : s.pc t = .fetchSpan size i) {env : Env} {fuel : Nat}
    {s' : LeveledMemoryPool} (hs : s.advance t env fuel = some s') : Quiet s s' lists := by
  obtain ⟨hi, -⟩ := h.index_eq (t := t) (i := i) (by rw [hpc]; rfl)
  have hbytes : sizeT (CentralCache.numPages (blockSize i) * pageSize) = spanBytes i := sizeT_of_lt (spanBytes_lt hi)
  simp only [advance, hpc] at hs
  cases ha : CentralCache.fetchFromPageCache env (blockSize i) s.os s.page with
  | none => simp [ha] at hs
  | some r =>
      obtain ⟨r, os, page⟩ := r
      obtain ⟨hpage, ⟨rfl, rfl⟩ | ⟨a, hfresh, hos, hr⟩⟩ := PageCache.allocateSpan_empty h.page ha
      · simp only [ha, ↓reduceIte, Option.some.injEq] at hs
        subst hs
        exact ⟨lists, h.answer hpc hpage (fun _ _ => rfl) h.ground (h.spare.give (by simp [Pc.span])),
          fun hw => hw.next (fun b hb => hb) (by simp) (fun _ _ => rfl), fun _ _ => rfl⟩
      · rw [hbytes] at hfresh hos
        have hmem : ∀ b ∈ s.carved, os.memory b.1 = s.os.memory b.1 := by
          intro b hb
          obtain ⟨w, hw, hin⟩ := h.ground.carved_span b hb
          have hap := hfresh.2.2.2.2 w (h.ground.spans_mapped w hw)
          have hself := hin.covers (extent_self b)
          rw [hos]
          apply memset_of_notMem
          simp only [Apart, Covers] at hap hself
          omega
        rcases hr with rfl | rfl
        · simp only [ha, Option.some.injEq] at hs
          subst hs hos
          exact ⟨lists, h.answer hpc hpage hmem (h.ground.leak _)
            ((h.spare.map h.ground hfresh.2.2.2.2).give rfl),
            fun hw => hw.next (fun b hb => hb) (by simp) (fun _ _ => rfl), fun _ _ => rfl⟩
        · simp only [ha, if_neg hfresh.1, Option.some.injEq] at hs
          subst hs hos
          have hspare := (h.spare.map h.ground hfresh.2.2.2.2).take (t := t) (p := .fetchDone size i (.ptr a)) h.ground
            (by simp [Pc.span, hfresh.1]) (Nat.pos_of_ne_zero hfresh.2.1) hfresh.2.2.2.2
            (fun x hx => memset_of_mem hx.1 hx.2)
          exact ⟨lists, h.answer hpc hpage hmem (h.ground.map hfresh.1 hfresh.2.2.2.2) hspare,
            fun hw => hw.next (fun b hb => hb) (by simp) (fun _ _ => rfl), fun _ _ => rfl⟩

theorem fetchDone_none_quiet (h : Inv s lists) {i : Nat} {r : Ret} (hpc : s.pc t = .fetchDone size i r) :
    Quiet s ({ s with central := s.central.release i }.setPc t .idle) lists := by
  have hshelf : Shelf s.os.memory (headOf s.thread (Function.update s.central.centralFreeList i
      (s.central.centralFreeList i)) (Function.update s.pc t .idle)) (classOf (Function.update s.pc t .idle)) s.held
      ([] ++ s.carved) lists := by
    rw [Function.update_eq_self, Inv.headOf_still (by rw [hpc]; rfl), Inv.classOf_still (by rw [hpc]; rfl)]
    exact h.shelf
  have hinv := h.release hpc hshelf h.ground (h.spare.give rfl) rfl Busy.idle (fun _ _ => rfl)
  rw [Function.update_eq_self] at hinv
  exact ⟨lists, hinv, fun hw => hw.next (fun b hb => hb) (by simp) (fun _ _ => rfl), fun _ _ => rfl⟩

section carving

variable {i : Nat}

def carvedBlocks (i p : Nat) : List (Nat × Nat) := (blocks i p).map (fun b => (b, i))

theorem mem_carvedBlocks {b : Nat × Nat} (hb : b ∈ carvedBlocks i p) :
    b.2 = i ∧ b.1 ∈ blocks i p ∧ Within (extent b) (p, spanBytes i) := by
  obtain ⟨c, hc, rfl⟩ := List.mem_map.mp hb
  exact ⟨rfl, hc, blocks_within hc⟩

theorem carve_ground (h : Inv s lists) (hspan : (s.pc t).span = some (p, spanBytes i)) (hi : i < freeListSize) :
    Ground (carvedBlocks i p ++ s.carved) s.spans s.os.mapped := by
  refine h.ground.carve (h.spare.obtained t _ hspan) ?_ (fun b hb => (mem_carvedBlocks hb).2.2)
    (fun b hb => (h.spare.apart t _ hspan b hb).symm.symm) (fun b hb => (mem_carvedBlocks hb).1 ▸ hi)
  rw [carvedBlocks, List.pairwise_map]
  exact (blocks_apart i p).imp (fun hle => .inl hle)

theorem carve_off_lists (h : Inv s lists) (hspan : (s.pc t).span = some (p, spanBytes i)) {b : Nat}
    (hb : b ∈ blocks i p) : (∀ k, b ∉ lists k) ∧ ∀ r ∈ s.held, r.1 ≠ b := by
  have hcov : Covers (p, spanBytes i) b := by
    have hw := blocks_within hb
    have hpos := blockSize_pos i
    simp only [Covers]
    omega
  constructor
  · intro k hk
    exact (h.spare.apart t _ hspan _ (h.mem_carved hk)).not_covers (extent_self _) hcov
  · rintro r hr rfl
    exact (h.spare.apart t _ hspan _ (h.shelf.given r hr)).not_covers (extent_self (r.1, _)) hcov

theorem carve_shelf (h : Inv s lists) (hpc : (s.pc t).block = 0) (hspan : (s.pc t).span = some (p, spanBytes i))
    {m : Words} (hm : ∀ a, m a = s.os.memory a ∨ Covers (p, spanBytes i) a) (hchain : Chain m p (blocks i p)) {q : Pc}
    (hq : q.block = p) (hqi : q.index = i) :
    Shelf m (headOf s.thread s.central.centralFreeList (Function.update s.pc t q)) (classOf (Function.update s.pc t q))
      s.held (carvedBlocks i p ++ s.carved) (Function.update lists (.transit t) (blocks i p)) := by
  have hnil := h.transit_nil hpc
  have hkeep : ∀ k, ∀ b ∈ lists k, m b = s.os.memory b := by
    intro k b hb
    apply (hm b).resolve_right
    exact (h.spare.apart t _ hspan _ (h.mem_carved hb)).not_covers (extent_self _)
  have hsame : ∀ k, lists k ≠ [] → classOf (Function.update s.pc t q) k = classOf s.pc k := by
    intro k hk
    rw [classOf_transit]
    apply Function.update_of_ne
    rintro rfl
    exact hk hnil
  have hmore : Shelf m (headOf s.thread s.central.centralFreeList s.pc) (classOf (Function.update s.pc t q)) s.held
      (carvedBlocks i p ++ s.carved) lists :=
    ((h.shelf.congr hkeep).mem_mono (fun b hb => List.mem_append_right _ hb)).relabel hsame
  rw [headOf_transit, hq]
  refine hmore.add hchain ?_ (fun b hb => (carve_off_lists h hspan hb).1) ?_
  · intro b hb
    have hclass : classOf (Function.update s.pc t q) (.transit t) = i := by simp [classOf, hqi]
    rw [hclass]
    exact List.mem_append_left _ (List.mem_map_of_mem hb)
  · intro r hr hb
    exact (carve_off_lists h hspan hb).2 r hr rfl

end carving

theorem fetchDone_some_quiet (h : Inv s lists) {i : Nat} (hpc : s.pc t = .fetchDone size i (.ptr p)) (hp : p ≠ 0)
    {m : Words} {c : CentralCache} (hpub : CentralCache.publish i p s.os.memory s.central = (m, c)) :
    Quiet s ({ s with os := { s.os with memory := m }, central := c.release i, carved := carvedBlocks i p ++ s.carved }.setPc
      t (.fetched size i p)) lists := by
  have hspan : (s.pc t).span = some (p, spanBytes i) := by simp [hpc, Pc.span, hp]
  have hblock : (s.pc t).block = 0 := by rw [hpc]; rfl
  have hreq := (h.busy t).request
  rw [hpc] at hreq
  obtain ⟨hi, -⟩ := h.index_eq (t := t) (i := i) (by rw [hpc]; rfl)
  have hground := carve_ground h hspan hi
  obtain ⟨l, hl⟩ := blocks_eq i p
  have hbusy : ∀ f, Busy f (s.thread t) [p] (.fetched size i p) := by
    intro f
    refine ⟨by simp [Pc.lock], hreq, ?_, by simp⟩
    rintro n j q he
    simp only [Pc.fetched.injEq] at he
    rw [he.2.2]
  simp only [CentralCache.publish] at hpub
  by_cases hn : CentralCache.blockNum i > 1
  · rw [if_pos hn, Prod.mk.injEq] at hpub
    obtain ⟨rfl, rfl⟩ := hpub
    have hblocks : blocks i p = (List.range (CentralCache.blockNum i)).map (fun j => p + j * blockSize i) := by
      rw [blocks, max_eq_left hn.le]
    have hchain : Chain (CentralCache.carve p (blockSize i) (CentralCache.blockNum i) s.os.memory) p (blocks i p) := by
      rw [hblocks]
      exact CentralCache.carve_chain hp (blockSize_pos i) (by omega)
    have hm : ∀ a, CentralCache.carve p (blockSize i) (CentralCache.blockNum i) s.os.memory a = s.os.memory a ∨
        Covers (p, spanBytes i) a := by
      intro a
      by_cases ha : a ∈ blocks i p
      · have hw := blocks_within ha
        have hpos := blockSize_pos i
        exact .inr ⟨hw.1, by simp only; omega⟩
      · refine .inl (CentralCache.carve_off (by omega) ?_)
        rintro j hj rfl
        exact ha (by rw [hblocks]; exact List.mem_map.mpr ⟨j, List.mem_range.mpr hj, rfl⟩)
    have hshelf := carve_shelf h hblock hspan hm hchain (q := .fetched size i p) rfl rfl
    have hdry : lists (.central i) = [] := h.shelf.owned.eq_nil ((h.busy t).dry i (by rw [hpc]; rfl))
    have hcut := hshelf.cut (i := Place.transit t) (j := Place.central i) (u := []) (by simpa using hl) (by simp)
      (by simpa using hdry)
    have hother : ∀ u, u ≠ t → Function.update (Function.update (Function.update lists (.transit t) (blocks i p))
        (.transit t) ([] ++ [p])) (.central i) l (.transit u) = lists (.transit u) := by
      intro u hu
      simp [hu]
    have hnext : Shelf (Function.update (CentralCache.carve p (blockSize i) (CentralCache.blockNum i) s.os.memory) p 0)
        (headOf s.thread (Function.update s.central.centralFreeList i
          (CentralCache.carve p (blockSize i) (CentralCache.blockNum i) s.os.memory p))
          (Function.update s.pc t (.fetched size i p))) (classOf (Function.update s.pc t (.fetched size i p))) s.held
        (carvedBlocks i p ++ s.carved)
        (Function.update (Function.update (Function.update lists (.transit t) (blocks i p)) (.transit t) ([] ++ [p]))
          (.central i) l) := by
      rw [headOf_central]
      apply hcut.relabel
      intro k _
      by_cases hk : k = .central i
      · subst hk
        simp [classOf, Pc.index]
      · rw [Function.update_of_ne hk]
    have hm' : ∀ a, Function.update (CentralCache.carve p (blockSize i) (CentralCache.blockNum i) s.os.memory) p 0 a =
        s.os.memory a ∨ Covers (p, spanBytes i) a := by
      intro a
      by_cases ha : a = p
      · subst ha
        exact .inr ((mem_carvedBlocks (List.mem_map_of_mem (by rw [hl]; simp) : (a, i) ∈ carvedBlocks i a)).2.2.covers
          (extent_self (a, i)))
      · rw [Function.update_of_ne ha]
        exact hm a
    have hinv := h.release hpc hnext hground
      (h.spare.carve h.ground hspan rfl (fun b hb => (mem_carvedBlocks hb).2.2) hm') rfl
      (by simpa using hbusy _) hother
    refine ⟨_, hinv, fun hw => ?_, fun _ _ => by simp⟩
    have hold := hw.next (t := t) (p := .fetched size i p) (fun b hb => ((hb.add (h.transit_nil hblock)).cut
      (i := Place.transit t) (j := Place.central i) (u := []) (by simpa using hl) (by simp) (by simpa using hdry)))
      (by simp) hother
    apply hold.more
    intro b hb
    have hmem : Placed s.held (Function.update lists (.transit t) (blocks i p)) b.1 :=
      .inr ⟨.transit t, by simpa using (mem_carvedBlocks hb).2.1⟩
    exact hmem.cut (i := Place.transit t) (u := []) (by simpa using hl) (by simp) (by simpa using hdry)
  · rw [if_neg hn, Prod.mk.injEq] at hpub
    obtain ⟨rfl, rfl⟩ := hpub
    have hone : blocks i p = [p] := by
      have hmax : max (CentralCache.blockNum i) 1 = 1 := max_eq_right (by omega)
      simp [blocks, hmax]
    have hzero : s.os.memory p = 0 := h.spare.zero t _ p hspan
      ((mem_carvedBlocks (by simp [carvedBlocks, hone] : (p, i) ∈ carvedBlocks i p)).2.2.covers (extent_self (p, i)))
    have hchain : Chain s.os.memory p (blocks i p) := by
      rw [hone]
      exact ⟨rfl, hp, hzero⟩
    have hshelf := carve_shelf h hblock hspan (fun a => .inl rfl) hchain (q := .fetched size i p) rfl rfl
    have hother : ∀ u, u ≠ t → Function.update lists (.transit t) (blocks i p) (.transit u) = lists (.transit u) := by
      intro u hu
      simp [hu]
    have hinv := h.release (v := s.central.centralFreeList i) hpc
      (by rw [Function.update_eq_self]; exact hshelf) hground
      (h.spare.carve h.ground hspan rfl (fun b hb => (mem_carvedBlocks hb).2.2) (fun a => .inl rfl)) rfl
      (by rw [Function.update_self, hone]; exact hbusy _) hother
    rw [Function.update_eq_self] at hinv
    refine ⟨_, hinv, fun hw => ?_, fun _ _ => by simp⟩
    have hold := hw.next (t := t) (p := .fetched size i p) (fun b hb => hb.add (h.transit_nil hblock)) (by simp) hother
    apply hold.more
    intro b hb
    exact .inr ⟨.transit t, by simpa using (mem_carvedBlocks hb).2.1⟩

end threads

end LearnNote.Memory.LeveledMemoryPool
