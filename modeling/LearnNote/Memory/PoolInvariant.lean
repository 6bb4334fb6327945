import LearnNote.Memory.PoolPlaces
import LearnNote.Memory.Surgery

namespace LearnNote.Memory.LeveledMemoryPool

open Lib Linked Extents SizeClass

/-- What a thread in an unfinished operation may rely on: the free list of a class
it has locked is empty, its own free list of the class it serves is, and the
blocks in hand are those of its place. -/
structure Busy (central : Nat → Nat) (tc : ThreadCache) (list : List Nat) (p : Pc) : Prop where
  dry : ∀ i, p.lock = some i → central i = 0
  request : ∀ size i, p.request = some (size, i) → size ≤ maxBytes ∧ i = getIndex size ∧ tc.freeList i = 0
  single : ∀ size i q, p = .fetched size i q → list = [q]
  back : ∀ q limit i, p = .returnRange q limit i → q ≠ 0 ∧ i < freeListSize

theorem Busy.idle {central : Nat → Nat} {tc : ThreadCache} {list : List Nat} : Busy central tc list .idle :=
  ⟨by simp [Pc.lock], by simp [Pc.request], by simp, by simp⟩

theorem Busy.congr {central central' : Nat → Nat} {tc : ThreadCache} {list : List Nat} {p : Pc}
    (h : Busy central tc list p) (hc : ∀ i, p.lock = some i → central' i = central i) : Busy central' tc list p :=
  ⟨fun i hi => (hc i hi).trans (h.dry i hi), h.request, h.single, h.back⟩

/-- What holds between any two steps of the threads. lists are the blocks of each
place, in the order of their links. -/
structure Inv (s : LeveledMemoryPool) (lists : Place → List Nat) : Prop where
  shelf : Shelf s.os.memory (headOf s.thread s.central.centralFreeList s.pc) (classOf s.pc) s.held s.carved lists
  ground : Ground s.carved s.spans s.os.mapped
  locks : LockTable s.central.locks (Pc.lock ∘ s.pc)
  busy : ∀ t, Busy s.central.centralFreeList (s.thread t) (lists (.transit t)) (s.pc t)
  spare : Spare s.pc s.os.memory s.carved s.spans
  page : s.page.freeSpans = .empty

/-- No block is lost, and none will be by the hand-backs under way. -/
structure Whole (carved held : List (Nat × Nat)) (pc : Nat → Pc) (lists : Place → List Nat) : Prop where
  placed : ∀ b ∈ carved, Placed held lists b.1
  short : ∀ t q limit i, pc t = .returnRange q limit i → (lists (.transit t)).length ≤ max limit 1

theorem Whole.next {carved held held' : List (Nat × Nat)} {pc : Nat → Pc} {lists lists' : Place → List Nat} {t : Nat}
    {p : Pc} (h : Whole carved held pc lists) (hkeep : ∀ b, Placed held lists b → Placed held' lists' b)
    (hshort : ∀ q limit i, p = .returnRange q limit i → (lists' (.transit t)).length ≤ max limit 1)
    (hother : ∀ u, u ≠ t → lists' (.transit u) = lists (.transit u)) :
    Whole carved held' (Function.update pc t p) lists' := by
  refine ⟨fun b hb => hkeep b.1 (h.placed b hb), ?_⟩
  intro u q limit i hu
  by_cases hut : u = t
  · subst hut
    exact hshort q limit i (by simpa using hu)
  · rw [hother u hut]
    exact h.short u q limit i (by simpa [hut] using hu)

theorem Whole.more {carved held new : List (Nat × Nat)} {pc : Nat → Pc} {lists : Place → List Nat}
    (h : Whole carved held pc lists) (hnew : ∀ b ∈ new, Placed held lists b.1) :
    Whole (new ++ carved) held pc lists := by
  refine ⟨?_, h.short⟩
  intro b hb
  rcases List.mem_append.mp hb with hb | hb
  · exact hnew b hb
  · exact h.placed b hb

namespace Inv

variable {s : LeveledMemoryPool} {lists lists' : Place → List Nat} {t : Nat}

theorem initial (m : Words) : Inv (initial m) (fun _ => []) := by
  refine ⟨⟨?_, by simp, List.nodup_nil, by simp [LeveledMemoryPool.initial], by simp [LeveledMemoryPool.initial]⟩,
    Ground.empty, LockTable.free, fun _ => Busy.idle, ?_, rfl⟩
  · refine ⟨?_, by simp⟩
    intro k
    cases k <;> rfl
  · exact ⟨by simp [LeveledMemoryPool.initial, Pc.span], by simp [LeveledMemoryPool.initial, Pc.span],
      by simp [LeveledMemoryPool.initial, Pc.span], by simp [LeveledMemoryPool.initial, Pc.span]⟩

theorem mem_carved (h : Inv s lists) {k : Place} {b : Nat} (hb : b ∈ lists k) :
    (b, classOf s.pc k) ∈ s.carved :=
  h.shelf.listed k b hb

theorem covered (h : Inv s lists) {k : Place} {b : Nat} (hb : b ∈ lists k) :
    ∃ c ∈ s.carved, Covers (extent c) b :=
  ⟨_, h.mem_carved hb, extent_self (b, _)⟩

theorem transit_nil (h : Inv s lists) (ht : (s.pc t).block = 0) : lists (.transit t) = [] :=
  h.shelf.owned.eq_nil ht

theorem index_eq (h : Inv s lists) {size i : Nat} (hr : (s.pc t).request = some (size, i)) :
    i < freeListSize ∧ i = getIndex size := by
  obtain ⟨hs, rfl, -⟩ := (h.busy t).request size i hr
  exact ⟨getIndex_lt size hs, rfl⟩

theorem lock_update {pc : Nat → Pc} {p : Pc} {l : Option Nat} (hp : p.lock = l) :
    Pc.lock ∘ Function.update pc t p = Function.update (Pc.lock ∘ pc) t l := by
  rw [Function.comp_update, hp]

theorem lock_still {pc : Nat → Pc} {p : Pc} (hp : p.lock = (pc t).lock) :
    Pc.lock ∘ Function.update pc t p = Pc.lock ∘ pc := by
  rw [lock_update hp]
  exact Function.update_eq_self t (Pc.lock ∘ pc)

theorem headOf_still {thread : Nat → ThreadCache} {central : Nat → Nat} {pc : Nat → Pc} {p : Pc}
    (hp : p.block = (pc t).block) :
    headOf thread central (Function.update pc t p) = headOf thread central pc := by
  rw [headOf_transit, hp]
  exact Function.update_eq_self (Place.transit t) _

theorem classOf_still {pc : Nat → Pc} {p : Pc} (hp : p.index = (pc t).index) :
    classOf (Function.update pc t p) = classOf pc := by
  rw [classOf_transit, hp]
  exact Function.update_eq_self (Place.transit t) _

/-- What a thread does without holding a lock at its end: its own lists, the free
list of a class no thread has locked, and its own place change. -/
theorem local_step (h : Inv s lists) {m : Words} {tc : ThreadCache} {c : CentralCache} {p : Pc}
    {held : List (Nat × Nat)}
    (hshelf : Shelf m (headOf (Function.update s.thread t tc) c.centralFreeList (Function.update s.pc t p))
      (classOf (Function.update s.pc t p)) held s.carved lists')
    (hm : ∀ a, m a = s.os.memory a ∨ ∃ b ∈ s.carved, Covers (extent b) a)
    (hlock : (s.pc t).lock = none) (hlock' : p.lock = none) (hspan : p.span = none)
    (hc : c.locks = s.central.locks)
    (hfree : ∀ i, s.central.locks i = true → c.centralFreeList i = s.central.centralFreeList i)
    (hbusy : Busy c.centralFreeList tc (lists' (.transit t)) p)
    (hother : ∀ u, u ≠ t → lists' (.transit u) = lists (.transit u)) :
    Inv { s with os := { s.os with memory := m }, central := c, thread := Function.update s.thread t tc,
                 pc := Function.update s.pc t p, held := held } lists' := by
  refine ⟨hshelf, h.ground, ?_, ?_, (h.spare.store hm).give hspan, h.page⟩
  · rw [lock_still (hlock'.trans hlock.symm), hc]
    exact h.locks
  · intro u
    by_cases hu : u = t
    · subst hu
      simpa using hbusy
    · simp only [Function.update_of_ne hu, hother u hu]
      exact (h.busy u).congr (fun i hi => hfree i ((h.locks.locked i).mpr ⟨u, hi⟩))

theorem acquire (h : Inv s lists) {size i : Nat} (hpc : s.pc t = .fetchRange size i)
    (hfree : s.central.locks i = false) (hdry : s.central.centralFreeList i = 0) :
    Inv { s with central := { s.central with locks := Function.update s.central.locks i true },
                 pc := Function.update s.pc t (.fetchSpan size i) } lists := by
  have hh : headOf s.thread s.central.centralFreeList (Function.update s.pc t (.fetchSpan size i)) =
      headOf s.thread s.central.centralFreeList s.pc := headOf_still (by rw [hpc]; rfl)
  have hk : classOf (Function.update s.pc t (.fetchSpan size i)) = classOf s.pc := classOf_still (by rw [hpc]; rfl)
  refine ⟨?_, h.ground, ?_, ?_, h.spare.give rfl, h.page⟩
  · simpa only [hh, hk] using h.shelf
  · rw [lock_update rfl]
    exact h.locks.acquire hfree (by simp [hpc, Pc.lock])
  · intro u
    by_cases hu : u = t
    · subst hu
      have hb := h.busy u
      rw [hpc] at hb
      simp only [Function.update_self]
      refine ⟨?_, hb.request, by simp, by simp⟩
      intro j hj
      simp only [Pc.lock, Option.some.injEq] at hj
      exact hj ▸ hdry
    · simpa only [Function.update_of_ne hu] using h.busy u

theorem release (h : Inv s lists) {size i : Nat} {r : Ret} {p : Pc} {m : Words} {v : Nat}
    {new : List (Nat × Nat)} (hpc : s.pc t = .fetchDone size i r)
    (hshelf : Shelf m (headOf s.thread (Function.update s.central.centralFreeList i v) (Function.update s.pc t p))
      (classOf (Function.update s.pc t p)) s.held (new ++ s.carved) lists')
    (hground : Ground (new ++ s.carved) s.spans s.os.mapped)
    (hspare : Spare (Function.update s.pc t p) m (new ++ s.carved) s.spans)
    (hlock : p.lock = none)
    (hbusy : Busy (Function.update s.central.centralFreeList i v) (s.thread t) (lists' (.transit t)) p)
    (hother : ∀ u, u ≠ t → lists' (.transit u) = lists (.transit u)) :
    Inv { s with os := { s.os with memory := m }
                 central := ⟨Function.update s.central.centralFreeList i v, Function.update s.central.locks i false⟩
                 pc := Function.update s.pc t p, carved := new ++ s.carved } lists' := by
  have hheld : (Pc.lock ∘ s.pc) t = some i := by simp [hpc, Pc.lock]
  refine ⟨hshelf, hground, ?_, ?_, hspare, h.page⟩
  · rw [lock_update hlock]
    exact h.locks.release hheld
  · intro u
    by_cases hu : u = t
    · subst hu
      simpa using hbusy
    · simp only [Function.update_of_ne hu, hother u hu]
      refine (h.busy u).congr (fun j hj => Function.update_of_ne ?_ _ _)
      rintro rfl
      exact hu (h.locks.sole u t j hj hheld)

theorem answer (h : Inv s lists) {size i : Nat} {r : Ret} {os : Os} {spans : List (Nat × Nat)} {page : PageCache}
    (hpc : s.pc t = .fetchSpan size i) (hpage : page.freeSpans = .empty)
    (hm : ∀ b ∈ s.carved, os.memory b.1 = s.os.memory b.1)
    (hground : Ground s.carved spans os.mapped)
    (hspare : Spare (Function.update s.pc t (.fetchDone size i r)) os.memory s.carved spans) :
    Inv { s with os := os, page := page, spans := spans, pc := Function.update s.pc t (.fetchDone size i r) } lists := by
  have hh : headOf s.thread s.central.centralFreeList (Function.update s.pc t (.fetchDone size i r)) =
      headOf s.thread s.central.centralFreeList s.pc := headOf_still (by rw [hpc]; rfl)
  have hk : classOf (Function.update s.pc t (.fetchDone size i r)) = classOf s.pc := classOf_still (by rw [hpc]; rfl)
  refine ⟨?_, hground, ?_, ?_, hspare, hpage⟩
  · simp only [hh, hk]
    exact h.shelf.congr (fun k b hb => hm _ (h.mem_carved hb))
  · rw [lock_still (by rw [hpc]; rfl)]
    exact h.locks
  · intro u
    by_cases hu : u = t
    · subst hu
      have hb := h.busy u
      rw [hpc] at hb
      simp only [Function.update_self]
      exact ⟨hb.dry, hb.request, by simp, by simp⟩
    · simpa only [Function.update_of_ne hu] using h.busy u

theorem write (h : Inv s lists) {p size a v : Nat} (hp : (p, size) ∈ s.held) (ha : p ≤ a) (ha' : a < p + size) :
    Inv (s.setMemory (Function.update s.os.memory a v)) lists := by
  have hcov : Covers (extent (p, getIndex size)) a := by
    have hle := le_blockSize size
    simp only [Covers, extent]
    omega
  have hc := h.shelf.given _ hp
  refine ⟨h.shelf.congr ?_, h.ground, h.locks, h.busy, h.spare.store ?_, h.page⟩
  · intro k b hb
    apply Function.update_of_ne
    rintro rfl
    have hne : (b, classOf s.pc k) ≠ (p, getIndex size) := by
      intro he
      obtain rfl : b = p := congrArg Prod.fst he
      exact h.shelf.off _ hp k hb
    exact (h.ground.apart (h.mem_carved hb) hc hne).not_covers (extent_self _) hcov
  · intro x
    by_cases hx : x = a
    · subst hx
      exact .inr ⟨_, hc, hcov⟩
    · exact .inl (Function.update_of_ne hx _ _)

end Inv

end LearnNote.Memory.LeveledMemoryPool
