import LearnNote.Memory.PageCache

namespace LearnNote.Memory

open Lib Linked Extents

def Span.extent (sp : Span) : Nat × Nat := (sp.pageAddr, sp.numPages * pageSize)

namespace PageCache

def nextOf (spans : Nat → Option Span) (p : Nat) : Nat := ((spans p).map Span.next).getD 0

def heads (freeSpans : OrdMap Nat Nat) (k : Nat) : Nat := (freeSpans.find? k).getD 0

def extents (spans : Nat → Option Span) (p : Nat) : Option (Nat × Nat) := (spans p).map Span.extent

section lemmas

variable {spans : Nat → Option Span} {p q v : Nat} {sp : Span} {c : PageCache}

theorem nextOf_some (h : spans p = some sp) : nextOf spans p = sp.next := by simp [nextOf, h]

theorem nextOf_update (sp : Option Span) :
    nextOf (Function.update spans p sp) = Function.update (nextOf spans) p ((sp.map Span.next).getD 0) := by
  funext q
  by_cases hq : q = p
  · subst hq; simp [nextOf]
  · simp [nextOf, hq]

theorem extents_update (sp : Option Span) :
    extents (Function.update spans p sp) = Function.update (extents spans) p (sp.map Span.extent) := by
  funext q
  by_cases hq : q = p
  · subst hq; simp [extents]
  · simp [extents, hq]

theorem nextOf_setNext (h : spans p = some sp) (v : Nat) :
    nextOf (setNext spans p v) = Function.update (nextOf spans) p v := by
  simp [setNext, nextOf_update, h]

theorem extents_setNext (v : Nat) : extents (setNext spans p v) = extents spans := by
  rw [setNext, extents_update]
  funext q
  by_cases hq : q = p
  · subst hq
    cases h : spans q <;> simp [extents, h, Span.extent]
  · simp [hq]

theorem setNext_eq_some (h : setNext spans p v q = some sp) :
    ∃ n, spans q = some { sp with next := n } := by
  by_cases hq : q = p
  · subst hq
    simp only [setNext, Function.update_self, Option.map_eq_some_iff] at h
    obtain ⟨sp', h, rfl⟩ := h
    exact ⟨sp'.next, h⟩
  · exact ⟨sp.next, by simpa [setNext, hq] using h⟩

theorem setNext_of_some (h : spans q = some sp) :
    ∃ n, setNext spans p v q = some { sp with next := n } := by
  by_cases hq : q = p
  · subst hq
    exact ⟨v, by simp [setNext, h]⟩
  · exact ⟨sp.next, by simpa [setNext, hq] using h⟩

theorem heads_insert (m : OrdMap Nat Nat) (k p : Nat) :
    heads (m.insert k p) = Function.update (heads m) k p := by
  funext j
  by_cases hj : j = k
  · subst hj; simp [heads]
  · simp [heads, OrdMap.find?_insert_of_ne hj, hj]

theorem heads_insert_self (m : OrdMap Nat Nat) (k : Nat) : heads (m.insert k (heads m k)) = heads m := by
  rw [heads_insert, Function.update_eq_self]

theorem heads_takeHead (k : Nat) (sp : Span) (c : PageCache) :
    heads (takeHead k sp c).freeSpans = Function.update (heads c.freeSpans) k sp.next := by
  funext j
  by_cases hn : sp.next = 0
  · by_cases hj : j = k
    · subst hj; simp [heads, takeHead, hn, OrdMap.find?_erase]
    · simp [heads, takeHead, hn, OrdMap.find?_erase, hj]
  · by_cases hj : j = k
    · subst hj; simp [heads, takeHead, hn]
    · simp [heads, takeHead, hn, OrdMap.find?_insert_of_ne hj, hj]

end lemmas

/-- The cache divides a space of addresses among its spans, and each span is
on the free list of its size, allocated or lost. The allocated ones are given by
their address and number of pages, and spanMap knows them. -/
structure Held (lost : Nat → Prop) (c : PageCache) (space : Nat → Prop) (live : List (Nat × Nat))
    (lists : Nat → List Nat) : Prop where
  owned : Owned (nextOf c.spans) (heads c.freeSpans) lists
  sized : ∀ k p, p ∈ lists k → ∃ sp, c.spans p = some sp ∧ sp.numPages = k
  null : c.spans 0 = none
  entry : ∀ a p, c.spanMap.find? a = some p → ∃ sp, c.spans p = some sp ∧ sp.pageAddr = a
  known : ∀ r ∈ live, ∃ p sp, c.spanMap.find? r.1 = some p ∧ c.spans p = some sp ∧
    sp.numPages = r.2 ∧ ∀ k, p ∉ lists k
  used : ∀ p sp, c.spans p = some sp → (∀ k, p ∉ lists k) → lost p ∨ (sp.pageAddr, sp.numPages) ∈ live
  once : live.Nodup
  tiling : Tiling (extents c.spans) space
  bound : ∀ x, space x → 0 < x ∧ x < 2 ^ 64

/-- No span is lost. -/
structure Inv (c : PageCache) (space : Nat → Prop) (live : List (Nat × Nat))
    (lists : Nat → List Nat) : Prop where
  owned : Owned (nextOf c.spans) (heads c.freeSpans) lists
  sized : ∀ k p, p ∈ lists k → ∃ sp, c.spans p = some sp ∧ sp.numPages = k
  null : c.spans 0 = none
  entry : ∀ a p, c.spanMap.find? a = some p → ∃ sp, c.spans p = some sp ∧ sp.pageAddr = a
  known : ∀ r ∈ live, ∃ p sp, c.spanMap.find? r.1 = some p ∧ c.spans p = some sp ∧
    sp.numPages = r.2 ∧ ∀ k, p ∉ lists k
  used : ∀ p sp, c.spans p = some sp → (∀ k, p ∉ lists k) → (sp.pageAddr, sp.numPages) ∈ live
  once : live.Nodup
  tiling : Tiling (extents c.spans) space
  bound : ∀ x, space x → 0 < x ∧ x < 2 ^ 64

theorem inv_iff {c : PageCache} {space : Nat → Prop} {live : List (Nat × Nat)} {lists : Nat → List Nat} :
    Inv c space live lists ↔ Held (fun _ => False) c space live lists := by
  constructor
  · intro h
    exact ⟨h.owned, h.sized, h.null, h.entry, h.known, fun p sp hp hl => .inr (h.used p sp hp hl), h.once, h.tiling,
      h.bound⟩
  · intro h
    exact ⟨h.owned, h.sized, h.null, h.entry, h.known, fun p sp hp hl => (h.used p sp hp hl).resolve_left id, h.once,
      h.tiling, h.bound⟩

namespace Held

variable {c : PageCache} {space : Nat → Prop} {live : List (Nat × Nat)} {lists : Nat → List Nat} {lost : Nat → Prop}
  {p q k n : Nat} {sp : Span}

theorem extent_some (hp : c.spans p = some sp) : extents c.spans p = some sp.extent := by
  simp [extents, hp]

theorem numPages_pos (h : Held lost c space live lists) (hp : c.spans p = some sp) : 0 < sp.numPages := by
  have hpos := h.tiling.pos p _ (extent_some hp)
  simp only [Span.extent, pageSize] at hpos
  omega

theorem extent_bound (h : Held lost c space live lists) (hp : c.spans p = some sp) :
    0 < sp.pageAddr ∧ sp.pageAddr + sp.numPages * pageSize ≤ 2 ^ 64 := by
  have hpos := h.numPages_pos hp
  have hcov : ∀ x, Covers sp.extent x → 0 < x ∧ x < 2 ^ 64 := fun x hx =>
    h.bound x ((h.tiling.cover x).mpr ⟨p, _, extent_some hp, hx⟩)
  have h1 := hcov sp.pageAddr
  have h2 := hcov (sp.pageAddr + sp.numPages * pageSize - 1)
  simp only [Covers, Span.extent, pageSize] at h1 h2 ⊢
  omega

theorem span_inj (h : Held lost c space live lists) (hp : c.spans p = some sp) {sq : Span}
    (hq : c.spans q = some sq) (ha : sp.pageAddr = sq.pageAddr) : p = q := by
  have hp' := extent_some hp
  have hq' := extent_some hq
  simp only [Span.extent, ← ha] at hp' hq'
  exact h.tiling.start_inj hp' hq'

theorem perm (h : Held lost c space live lists) {live' : List (Nat × Nat)} (hp : live.Perm live') :
    Held lost c space live' lists :=
  ⟨h.owned, h.sized, h.null, h.entry, fun r hr => h.known r (hp.mem_iff.mpr hr),
    fun p sp hs hl => (h.used p sp hs hl).imp id hp.mem_iff.mp, hp.nodup_iff.mp h.once, h.tiling, h.bound⟩

theorem ne_zero (h : Held lost c space live lists) (hp : c.spans p = some sp) : p ≠ 0 := by
  rintro rfl
  rw [h.null] at hp
  cases hp

theorem live_span (h : Held lost c space live lists) (hp : c.spans p = some sp) {m : Nat}
    (hm : (sp.pageAddr, m) ∈ live) :
    sp.numPages = m ∧ ∀ k, p ∉ lists k := by
  obtain ⟨q, sq, hq, hs, hn, hl⟩ := h.known _ hm
  obtain ⟨sq', hs', ha⟩ := h.entry _ _ hq
  obtain rfl := h.span_inj hp hs' ha.symm
  obtain rfl : sp = sq := Option.some.inj (hp.symm.trans hs)
  exact ⟨hn, hl⟩

theorem known_apart (h : Held lost c space live lists) (hp : c.spans p = some sp) {r : Nat × Nat}
    (hr : r ∈ live.erase (sp.pageAddr, sp.numPages)) :
    ∃ q sq, c.spanMap.find? r.1 = some q ∧ c.spans q = some sq ∧ sq.pageAddr = r.1 ∧ sq.numPages = r.2 ∧ q ≠ p ∧
      ∀ k, q ∉ lists k := by
  obtain ⟨hne, hr⟩ := h.once.mem_erase_iff.mp hr
  obtain ⟨q, sq, hq, hs, hn, hl⟩ := h.known r hr
  obtain ⟨sq', hs', ha⟩ := h.entry _ _ hq
  obtain rfl : sq' = sq := Option.some.inj (hs'.symm.trans hs)
  refine ⟨q, sq', hq, hs, ha, hn, ?_, hl⟩
  rintro rfl
  obtain rfl : sq' = sp := Option.some.inj (hs.symm.trans hp)
  exact hne (Prod.ext ha.symm hn.symm)

theorem used_apart (h : Held lost c space live lists) (hp : c.spans p = some sp) {sq : Span}
    (hq : c.spans q = some sq) (hqp : q ≠ p) (hl : ∀ k, q ∉ lists k) :
    lost q ∨ (sq.pageAddr, sq.numPages) ∈ live.erase (sp.pageAddr, sp.numPages) := by
  refine (h.used q sq hq hl).imp id (fun hm => h.once.mem_erase_iff.mpr ⟨fun he => hqp ?_, hm⟩)
  exact h.span_inj hq hp (Prod.mk.inj he).1

theorem known_of_live (h : Held lost c space live lists) (hp : c.spans p = some sp)
    (hm : (sp.pageAddr, sp.numPages) ∈ live) : c.spanMap.find? sp.pageAddr = some p := by
  obtain ⟨q, sq, hq, -⟩ := h.known _ hm
  obtain ⟨sq, hs, ha⟩ := h.entry _ _ hq
  rw [hq, h.span_inj hp hs ha.symm]

theorem lists_none (h : Held lost c space live lists) (hp : c.spans p = none) (k : Nat) : p ∉ lists k := by
  intro hm
  obtain ⟨sp, hs, -⟩ := h.sized k p hm
  rw [hp] at hs
  cases hs

theorem head (h : Held lost c space live lists) (hf : c.freeSpans.find? k = some p) (hp : c.spans p = some sp) :
    ∃ t, lists k = p :: t ∧ sp.numPages = k := by
  have hhead : heads c.freeSpans k = p := by simp [heads, hf]
  obtain ⟨t, ht, -⟩ := h.owned.pop (i := k) (hhead ▸ h.ne_zero hp)
  rw [hhead] at ht
  obtain ⟨sq, hs, hk⟩ := h.sized k p (by simp [ht])
  obtain rfl : sq = sp := Option.some.inj (hs.symm.trans hp)
  exact ⟨t, ht, hk⟩

theorem lose (h : Held lost c space live lists) {t : List Nat} (hk : lists k = p :: t)
    (hp : c.spans p = some sp) :
    Held (fun q => lost q ∨ q = p) (takeHead k sp c) space live (Function.update lists k t) := by
  have hlists : ∀ j q, q ∈ Function.update lists k t j ↔ q ∈ lists j ∧ q ≠ p := fun j q =>
    h.owned.mem_unlink (u := []) hk
  constructor
  · change Owned (nextOf c.spans) (heads (takeHead k sp c).freeSpans) _
    rw [heads_takeHead]
    have hc := h.owned.chain k
    rw [hk] at hc
    obtain ⟨t', ht, hpop⟩ := h.owned.pop (i := k) (by rw [hc.1]; exact hc.2.1)
    rw [hc.1, nextOf_some hp] at hpop
    rw [hk] at ht
    cases ht
    exact hpop
  · exact fun j q hq => h.sized j q ((hlists j q).mp hq).1
  · exact h.null
  · exact h.entry
  · intro r hr
    obtain ⟨q, sq, hq, hs, hn, hl⟩ := h.known r hr
    exact ⟨q, sq, hq, hs, hn, fun j hm => hl j ((hlists j q).mp hm).1⟩
  · intro q sq hq hl
    by_cases hqp : q = p
    · exact .inl (.inr hqp)
    · exact (h.used q sq hq (fun j hm => hl j ((hlists j q).mpr ⟨hm, hqp⟩))).imp .inl id
  · exact h.once
  · exact h.tiling
  · exact h.bound

theorem adopt (h : Held (fun q => lost q ∨ q = p) c space live lists) (hp : c.spans p = some sp)
    (hl : ∀ k, p ∉ lists k) (hnew : ∀ m, (sp.pageAddr, m) ∉ live) :
    Held lost (PageCache.register sp.pageAddr p c) space ((sp.pageAddr, sp.numPages) :: live) lists := by
  constructor
  · exact h.owned
  · exact h.sized
  · exact h.null
  · intro a q hq
    simp only [PageCache.register, OrdMap.find?_insert] at hq
    split at hq
    · cases hq
      exact ⟨sp, hp, Eq.symm ‹a = _›⟩
    · exact h.entry a q hq
  · intro r hr
    rcases List.mem_cons.mp hr with rfl | hr
    · exact ⟨p, sp, by simp [PageCache.register], hp, rfl, hl⟩
    · obtain ⟨q, sq, hq, hs, hn, hl⟩ := h.known r hr
      refine ⟨q, sq, ?_, hs, hn, hl⟩
      have hne : r.1 ≠ sp.pageAddr := by
        intro he
        exact hnew r.2 (he ▸ hr)
      simpa [PageCache.register, OrdMap.find?_insert_of_ne hne] using hq
  · intro q sq hq hl
    rcases h.used q sq hq hl with (hlost | rfl) | hm
    · exact .inl hlost
    · obtain rfl : sq = sp := Option.some.inj (hq.symm.trans hp)
      exact .inr List.mem_cons_self
    · exact .inr (List.mem_cons_of_mem _ hm)
  · exact List.nodup_cons.mpr ⟨hnew _, h.once⟩
  · exact h.tiling
  · exact h.bound

theorem take (h : Held lost c space live lists) {t : List Nat} (hk : lists k = p :: t)
    (hp : c.spans p = some sp) :
    Held lost (PageCache.register sp.pageAddr p (takeHead k sp c)) space
      ((sp.pageAddr, sp.numPages) :: live) (Function.update lists k t) := by
  refine (h.lose hk hp).adopt (c := takeHead k sp c) hp ?_ ?_
  · intro j hm
    exact ((h.owned.mem_unlink (u := []) hk).mp hm).2 rfl
  · intro m hm
    exact (h.live_span hp hm).2 k (by simp [hk])

theorem release (h : Held lost c space live lists) (hp : c.spans p = some sp) (hl : ∀ k, p ∉ lists k) :
    Held lost (insertFree p sp.numPages c) space (live.erase (sp.pageAddr, sp.numPages))
      (Function.update lists sp.numPages (p :: lists sp.numPages)) := by
  have hp0 := h.ne_zero hp
  have hold : ∀ q, q ≠ p → (insertFree p sp.numPages c).spans q = c.spans q := by
    intro q hqp
    simp [insertFree, setNext, hqp]
  constructor
  · change Owned (nextOf (setNext c.spans p _)) (heads (c.freeSpans.insert sp.numPages p)) _
    rw [nextOf_setNext hp, heads_insert]
    exact h.owned.push hp0 hl
  · intro k q hq
    rcases Owned.mem_push.mp hq with ⟨rfl, rfl⟩ | hqk
    · obtain ⟨n, hs⟩ := setNext_of_some (p := q) (v := (c.freeSpans.find? sp.numPages).getD 0) hp
      exact ⟨_, hs, rfl⟩
    · have hqp : q ≠ p := by
        rintro rfl
        exact hl k hqk
      obtain ⟨sq, hs, hn⟩ := h.sized k q hqk
      exact ⟨sq, (hold q hqp).trans hs, hn⟩
  · exact (hold 0 hp0.symm).trans h.null
  · intro a q hq
    obtain ⟨sq, hs, ha⟩ := h.entry a q hq
    obtain ⟨n, hs'⟩ := setNext_of_some (p := p) (v := (c.freeSpans.find? sp.numPages).getD 0) hs
    exact ⟨_, hs', ha⟩
  · intro r hr
    obtain ⟨q, sq, hq, hs, -, hn, hqp, hlq⟩ := h.known_apart hp hr
    refine ⟨q, sq, hq, (hold q hqp).trans hs, hn, fun k hm => ?_⟩
    rcases Owned.mem_push.mp hm with ⟨-, he⟩ | hm
    · exact hqp he
    · exact hlq k hm
  · intro q sq hq hlq
    have hqp : q ≠ p := by
      rintro rfl
      exact hlq sp.numPages (Owned.mem_push.mpr (.inl ⟨rfl, rfl⟩))
    exact h.used_apart hp ((hold q hqp).symm.trans hq) hqp (fun k hm => hlq k (Owned.mem_push.mpr (.inr hm)))
  · exact h.once.erase _
  · change Tiling (extents (setNext c.spans p _)) _
    rw [extents_setNext]
    exact h.tiling
  · exact h.bound

theorem split_spans (c : PageCache) (sp : Span) (n : Nat) (hpq : p ≠ q) :
    (PageCache.split p q sp n c).spans p = some { sp with numPages := n } ∧
    (PageCache.split p q sp n c).spans q =
      some ⟨sp.pageAddr + n * pageSize, sp.numPages - n, heads c.freeSpans (sp.numPages - n)⟩ ∧
    ∀ r, r ≠ p → r ≠ q → (PageCache.split p q sp n c).spans r = c.spans r := by
  have hspans : (PageCache.split p q sp n c).spans =
      Function.update (Function.update c.spans q (some ⟨sp.pageAddr + n * pageSize, sp.numPages - n,
        heads c.freeSpans (sp.numPages - n)⟩)) p (some { sp with numPages := n }) := by
    simp [PageCache.split, insertFree, setNext, heads]
  rw [hspans]
  refine ⟨by simp, by simp [hpq.symm], fun r hrp hrq => by simp [hrp, hrq]⟩

theorem nextOf_split (hp : c.spans p = some sp) (hpq : p ≠ q) :
    nextOf (PageCache.split p q sp n c).spans =
      Function.update (nextOf c.spans) q (heads c.freeSpans (sp.numPages - n)) := by
  obtain ⟨hspan, hrest, hold⟩ := split_spans c sp n hpq
  funext r
  by_cases hr : r = p
  · subst hr
    rw [nextOf_some hspan, Function.update_of_ne hpq, nextOf_some hp]
  · by_cases hrq : r = q
    · subst hrq
      rw [nextOf_some hrest, Function.update_self]
    · rw [Function.update_of_ne hrq, nextOf, nextOf, hold r hr hrq]

theorem extents_split (hpq : p ≠ q) :
    extents (PageCache.split p q sp n c).spans =
      Function.update (Function.update (extents c.spans) q
        (some (sp.pageAddr + n * pageSize, (sp.numPages - n) * pageSize))) p (some (sp.pageAddr, n * pageSize)) := by
  obtain ⟨hspan, hrest, hold⟩ := split_spans c sp n hpq
  funext r
  by_cases hr : r = p
  · subst hr
    rw [Function.update_self, extent_some hspan, Span.extent]
  · by_cases hrq : r = q
    · subst hrq
      rw [Function.update_of_ne hr, Function.update_self, extent_some hrest, Span.extent]
    · rw [Function.update_of_ne hr, Function.update_of_ne hrq, extents, extents, hold r hr hrq]

/-- The lower part of a split stays allocated, the upper part is a new span on
the list of its size. -/
theorem split (h : Held lost c space live lists) (hp : c.spans p = some sp) (hm : (sp.pageAddr, sp.numPages) ∈ live)
    (hq : c.spans q = none) (hq0 : q ≠ 0) (hn : 0 < n) (hlt : n < sp.numPages) :
    Held lost (PageCache.split p q sp n c) space
      ((sp.pageAddr, n) :: live.erase (sp.pageAddr, sp.numPages))
      (Function.update lists (sp.numPages - n) (q :: lists (sp.numPages - n))) := by
  have hnq : ∀ {r sr}, c.spans r = some sr → r ≠ q := by
    rintro r sr hs rfl
    rw [hq] at hs
    cases hs
  have hpq := hnq hp
  have hl := (h.live_span hp hm).2
  obtain ⟨hspan, hrest, hold⟩ := split_spans c sp n hpq
  constructor
  · have hheads : heads (PageCache.split p q sp n c).freeSpans =
        Function.update (heads c.freeSpans) (sp.numPages - n) q :=
      heads_insert _ _ _
    rw [nextOf_split hp hpq, hheads]
    exact h.owned.push hq0 (h.lists_none hq)
  · intro k r hm
    rcases Owned.mem_push.mp hm with ⟨rfl, rfl⟩ | hr
    · exact ⟨_, hrest, rfl⟩
    · obtain ⟨sr, hs, hn⟩ := h.sized k r hr
      have hrp : r ≠ p := by
        rintro rfl
        exact hl k hr
      exact ⟨sr, (hold r hrp (hnq hs)).trans hs, hn⟩
  · rw [hold 0 (h.ne_zero hp).symm hq0.symm]
    exact h.null
  · intro a r hr
    obtain ⟨sr, hs, ha⟩ := h.entry a r hr
    by_cases hrp : r = p
    · subst hrp
      obtain rfl : sr = sp := Option.some.inj (hs.symm.trans hp)
      exact ⟨_, hspan, ha⟩
    · exact ⟨sr, (hold r hrp (hnq hs)).trans hs, ha⟩
  · intro r hr
    rcases List.mem_cons.mp hr with rfl | hr
    · refine ⟨p, _, h.known_of_live hp hm, hspan, rfl, fun k hm => ?_⟩
      rcases Owned.mem_push.mp hm with ⟨-, he⟩ | hm
      · exact hpq he
      · exact hl k hm
    · obtain ⟨r', sr, hr', hs, -, hn, hrp, hlr⟩ := h.known_apart hp hr
      refine ⟨r', sr, hr', (hold r' hrp (hnq hs)).trans hs, hn, fun k hm => ?_⟩
      rcases Owned.mem_push.mp hm with ⟨-, he⟩ | hm
      · exact hnq hs he
      · exact hlr k hm
  · intro r sr hr hlr
    by_cases hrp : r = p
    · subst hrp
      obtain rfl : sr = { sp with numPages := n } := Option.some.inj (hr.symm.trans hspan)
      exact .inr List.mem_cons_self
    · have hrq : r ≠ q := by
        rintro rfl
        exact hlr (sp.numPages - n) (Owned.mem_push.mpr (.inl ⟨rfl, rfl⟩))
      refine (h.used_apart hp ((hold r hrp hrq).symm.trans hr) hrp ?_).imp id (List.mem_cons_of_mem _)
      exact fun k hm => hlr k (Owned.mem_push.mpr (.inr hm))
  · refine List.nodup_cons.mpr ⟨fun hm => ?_, h.once.erase _⟩
    exact hlt.ne' (h.live_span hp (List.mem_of_mem_erase hm)).1
  · rw [extents_split hpq]
    refine h.tiling.split ?_ (by simp [extents, hq]) ?_ ?_
    · rw [extent_some hp, Span.extent, ← Nat.add_mul, Nat.add_sub_cancel' hlt.le]
    · exact Nat.mul_pos hn (by decide)
    · exact Nat.mul_pos (Nat.sub_pos_of_lt hlt) (by decide)
  · exact h.bound

theorem fresh (h : Held lost c space live lists) (hq : c.spans q = none) (hq0 : q ≠ 0) (hn : 0 < n)
    {a : Nat} (ha : 0 < a) (hbound : a + n * pageSize ≤ 2 ^ 64)
    (hnew : ∀ x, Covers (a, n * pageSize) x → ¬ space x) :
    Held lost (PageCache.register a q { c with spans := Function.update c.spans q (some ⟨a, n, 0⟩) })
      (fun x => Covers (a, n * pageSize) x ∨ space x) ((a, n) :: live) lists := by
  have hold : ∀ r sr, c.spans r = some sr → Function.update c.spans q (some ⟨a, n, 0⟩) r = some sr := by
    intro r sr hs
    have hrq : r ≠ q := by
      rintro rfl
      rw [hq] at hs
      cases hs
    simpa [hrq] using hs
  have hstart : ∀ r sr, c.spans r = some sr → sr.pageAddr ≠ a := by
    intro r sr hs he
    refine hnew a ⟨le_rfl, ?_⟩ ((h.tiling.cover a).mpr ⟨r, _, extent_some hs, ?_⟩)
    · simp only [pageSize]
      omega
    · have hpos := h.numPages_pos hs
      simp only [Covers, Span.extent, pageSize, he]
      omega
  have hmap : ∀ b r, c.spanMap.find? b = some r → b ≠ a := by
    intro b r hr
    obtain ⟨sr, hs, hb⟩ := h.entry b r hr
    rw [← hb]
    exact hstart r sr hs
  constructor
  · change Owned (nextOf (Function.update c.spans q _)) (heads c.freeSpans) lists
    apply h.owned.congr
    intro k r hr
    have hrq : r ≠ q := by
      rintro rfl
      exact h.lists_none hq k hr
    rw [nextOf_update, Function.update_of_ne hrq]
  · intro k r hr
    obtain ⟨sr, hs, hk⟩ := h.sized k r hr
    exact ⟨sr, hold r sr hs, hk⟩
  · simpa [PageCache.register, Function.update_of_ne hq0.symm] using h.null
  · intro b r hr
    simp only [PageCache.register, OrdMap.find?_insert] at hr
    split at hr
    · cases hr
      exact ⟨⟨a, n, 0⟩, by simp [PageCache.register], Eq.symm ‹b = a›⟩
    · obtain ⟨sr, hs, hb⟩ := h.entry b r hr
      exact ⟨sr, hold r sr hs, hb⟩
  · intro r hr
    rcases List.mem_cons.mp hr with rfl | hr
    · exact ⟨q, ⟨a, n, 0⟩, by simp [PageCache.register], by simp [PageCache.register], rfl, h.lists_none hq⟩
    · obtain ⟨r', sr, hr', hs, hk⟩ := h.known r hr
      refine ⟨r', sr, ?_, hold r' sr hs, hk⟩
      simpa [PageCache.register, OrdMap.find?_insert_of_ne (hmap _ _ hr')] using hr'
  · intro r sr hr hl
    by_cases hrq : r = q
    · subst hrq
      simp only [PageCache.register, Function.update_self, Option.some.injEq] at hr
      subst hr
      exact .inr List.mem_cons_self
    · simp only [PageCache.register, Function.update_of_ne hrq] at hr
      exact (h.used r sr hr hl).imp id (List.mem_cons_of_mem _)
  · refine List.nodup_cons.mpr ⟨?_, h.once⟩
    intro hm
    obtain ⟨r, sr, hr, -⟩ := h.known _ hm
    exact hmap _ _ hr rfl
  · change Tiling (extents (Function.update c.spans q _)) _
    rw [extents_update]
    exact h.tiling.extend (by simp [extents, hq]) (Nat.mul_pos hn (by decide)) hnew
  · rintro x (hx | hx)
    · simp only [Covers] at hx
      omega
    · exact h.bound x hx

end Held

theorem findPrev_some {spans : Nat → Option Span} {nx fuel prev x : Nat} {l : List Nat}
    (h0 : spans 0 = none) (hc : Chain (nextOf spans) prev l)
    (h : findPrev spans nx fuel prev = some (some x)) : ∃ u r, l = u ++ x :: nx :: r := by
  induction fuel generalizing prev l with
  | zero => simp [findPrev] at h
  | succ fuel ih =>
      cases hs : spans prev with
      | none => simp [findPrev, hs] at h
      | some sp =>
          have hp : prev ≠ 0 := by
            rintro rfl
            rw [h0] at hs
            cases hs
          obtain ⟨t, rfl, ht⟩ := hc.exists_cons hp
          rw [nextOf_some hs] at ht
          simp only [findPrev, hs] at h
          split at h
          · simp at h
          · split at h
            · rename_i hne heq
              obtain rfl : prev = x := by simpa using h
              subst heq
              obtain ⟨r, rfl, -⟩ := ht.exists_cons hne
              exact ⟨[], r, rfl⟩
            · obtain ⟨u, r, rfl⟩ := ih ht h
              exact ⟨prev :: u, r, rfl⟩

theorem findPrev_none {spans : Nat → Option Span} {nx fuel prev : Nat} {l : List Nat}
    (hc : Chain (nextOf spans) prev (prev :: l)) (h : findPrev spans nx fuel prev = some none) : nx ∉ l := by
  induction fuel generalizing prev l with
  | zero => simp [findPrev] at h
  | succ fuel ih =>
      cases hs : spans prev with
      | none => simp [findPrev, hs] at h
      | some sp =>
          obtain ⟨-, -, ht⟩ := hc
          rw [nextOf_some hs] at ht
          simp only [findPrev, hs] at h
          split at h
          · rename_i hn
            rw [hn] at ht
            simp [chain_null.mp ht]
          · split at h
            · simp at h
            · rename_i hn hne
              obtain ⟨r, rfl, -⟩ := ht.exists_cons hn
              have htail := ih ht h
              simp [Ne.symm hne, htail]

theorem findPrev_total {spans : Nat → Option Span} (nx : Nat) {fuel prev : Nat} {l : List Nat}
    (hs : ∀ x ∈ l, ∃ sp, spans x = some sp) (hc : Chain (nextOf spans) prev l) (hp : prev ≠ 0)
    (hf : l.length ≤ fuel) :
    ∃ r, findPrev spans nx fuel prev = some r := by
  induction fuel generalizing prev l with
  | zero =>
      obtain rfl := List.length_eq_zero_iff.mp (Nat.le_zero.mp hf)
      exact absurd hc hp
  | succ fuel ih =>
      obtain ⟨t, rfl, ht⟩ := hc.exists_cons hp
      obtain ⟨sp, hsp⟩ := hs prev List.mem_cons_self
      rw [nextOf_some hsp] at ht
      simp only [findPrev, hsp]
      split
      · exact ⟨_, rfl⟩
      · split
        · exact ⟨_, rfl⟩
        · rename_i hn _
          exact ih (fun x hx => hs x (List.mem_cons_of_mem _ hx)) ht hn (Nat.le_of_succ_le_succ hf)

section unlink

variable {c c' : PageCache} {nx fuel : Nat} {nsp : Span}

theorem unlink_eq (fuel nx : Nat) (nsp : Span) (c : PageCache) :
    unlink fuel nx nsp c =
      if heads c.freeSpans nsp.numPages = nx then
        some (true, { c with freeSpans :=
          (c.freeSpans.insert nsp.numPages (heads c.freeSpans nsp.numPages)).insert nsp.numPages nsp.next })
      else if heads c.freeSpans nsp.numPages = 0 then
        some (false, { c with freeSpans := c.freeSpans.insert nsp.numPages (heads c.freeSpans nsp.numPages) })
      else
        match findPrev c.spans nx fuel (heads c.freeSpans nsp.numPages) with
        | none => none
        | some none =>
            some (false, { c with freeSpans := c.freeSpans.insert nsp.numPages (heads c.freeSpans nsp.numPages) })
        | some (some prev) => some (true, { c with
            spans := setNext c.spans prev nsp.next
            freeSpans := c.freeSpans.insert nsp.numPages (heads c.freeSpans nsp.numPages) }) := rfl

theorem unlink_false_eq (hu : unlink fuel nx nsp c = some (false, c')) :
    c' = { c with freeSpans := c.freeSpans.insert nsp.numPages (heads c.freeSpans nsp.numPages) } := by
  simp only [unlink] at hu
  split at hu
  · simp at hu
  · split at hu
    · simpa [heads, eq_comm] using hu
    · split at hu <;> simp_all [heads]

theorem unlink_true_spans (hu : unlink fuel nx nsp c = some (true, c')) :
    c'.spanMap = c.spanMap ∧ (c'.spans = c.spans ∨ ∃ x v, c'.spans = setNext c.spans x v) := by
  simp only [unlink] at hu
  split at hu
  · simp only [Option.some.injEq, Prod.mk.injEq, true_and] at hu
    subst hu
    exact ⟨rfl, .inl rfl⟩
  · split at hu
    · simp at hu
    · split at hu
      · simp at hu
      · simp at hu
      · simp only [Option.some.injEq, Prod.mk.injEq, true_and] at hu
        subst hu
        exact ⟨rfl, .inr ⟨_, _, rfl⟩⟩

theorem unlink_true_of_some (hu : unlink fuel nx nsp c = some (true, c')) {q : Nat} {sq : Span}
    (hq : c.spans q = some sq) : ∃ n, c'.spans q = some { sq with next := n } := by
  rcases (unlink_true_spans hu).2 with hsp | ⟨x, v, hsp⟩
  · exact ⟨sq.next, by rw [hsp, hq]⟩
  · rw [hsp]
    exact setNext_of_some hq

theorem unlink_true_some (hu : unlink fuel nx nsp c = some (true, c')) {q : Nat} {sq : Span}
    (hq : c'.spans q = some sq) : ∃ n, c.spans q = some { sq with next := n } := by
  rcases (unlink_true_spans hu).2 with hsp | ⟨x, v, hsp⟩
  · exact ⟨sq.next, by rw [← hsp, hq]⟩
  · rw [hsp] at hq
    exact setNext_eq_some hq

theorem unlink_true_extents (hu : unlink fuel nx nsp c = some (true, c')) :
    extents c'.spans = extents c.spans := by
  rcases (unlink_true_spans hu).2 with hsp | ⟨x, v, hsp⟩
  · rw [hsp]
  · rw [hsp, extents_setNext]

/-- What merging can do: there is no span to look at, the span behind is not on
its list, or it is taken off and its pages are added. -/
theorem merge_cases {q a : Nat} (h : merge fuel q a c = some c') :
    (c.spanMap.find? a = none ∧ c' = c) ∨
    ∃ nx nsp, c.spanMap.find? a = some nx ∧ c.spans nx = some nsp ∧
      (unlink fuel nx nsp c = some (false, c') ∨
      ∃ d sp, unlink fuel nx nsp c = some (true, d) ∧ d.spans q = some sp ∧ c' = { d with
        spans := Function.update (Function.update d.spans q
          (some { sp with numPages := sizeT (sp.numPages + nsp.numPages) })) nx none
        spanMap := d.spanMap.erase a }) := by
  simp only [merge] at h
  cases hnx : c.spanMap.find? a with
  | none =>
      simp only [hnx, Option.some.injEq] at h
      exact .inl ⟨rfl, h.symm⟩
  | some nx =>
      cases hns : c.spans nx with
      | none => simp [hnx, hns] at h
      | some nsp =>
          simp only [hnx, hns] at h
          refine .inr ⟨nx, nsp, rfl, hns, ?_⟩
          cases hu : unlink fuel nx nsp c with
          | none => simp [hu] at h
          | some r =>
              obtain ⟨found, d⟩ := r
              cases found with
              | false =>
                  simp only [hu, Option.some.injEq] at h
                  exact .inl (h ▸ rfl)
              | true =>
                  cases hs : d.spans q with
                  | none => simp [hu, hs] at h
                  | some sp =>
                      simp only [hu, hs, Option.some.injEq] at h
                      exact .inr ⟨d, sp, rfl, hs, h.symm⟩

theorem deallocateSpan_cases {p n : Nat} (h : deallocateSpan fuel p n c = some c') :
    (c.spanMap.find? p = none ∧ c' = c) ∨
    ∃ q d sp, c.spanMap.find? p = some q ∧ merge fuel q (sizeT (p + n * pageSize)) c = some d ∧
      d.spans q = some sp ∧ c' = insertFree q sp.numPages d := by
  simp only [deallocateSpan] at h
  cases hq : c.spanMap.find? p with
  | none =>
      simp only [hq, Option.some.injEq] at h
      exact .inl ⟨rfl, h.symm⟩
  | some q =>
      cases hg : merge fuel q (sizeT (p + n * pageSize)) c with
      | none => simp [hq, hg] at h
      | some d =>
          cases hs : d.spans q with
          | none => simp [hq, hg, hs] at h
          | some sp =>
              simp only [hq, hg, hs, Option.some.injEq] at h
              exact .inr ⟨q, d, sp, rfl, hg, hs, h.symm⟩

end unlink

namespace Held

variable {c c' : PageCache} {space : Nat → Prop} {live : List (Nat × Nat)} {lists : Nat → List Nat}
  {lost : Nat → Prop} {p nx : Nat} {sp nsp : Span} {fuel : Nat}

theorem unlink_false (h : Held lost c space live lists) (hu : unlink fuel nx nsp c = some (false, c')) :
    Held lost c' space live lists := by
  rw [unlink_false_eq hu]
  refine ⟨?_, h.sized, h.null, h.entry, h.known, h.used, h.once, h.tiling, h.bound⟩
  rw [heads_insert_self]
  exact h.owned

theorem unlink_misses (h : Held lost c space live lists) (hs : c.spans nx = some nsp)
    (hu : unlink fuel nx nsp c = some (false, c')) (k : Nat) : nx ∉ lists k := by
  intro hm
  obtain ⟨sp, hsp, rfl⟩ := h.sized k nx hm
  obtain rfl : sp = nsp := Option.some.inj (hsp.symm.trans hs)
  have hne : heads c.freeSpans sp.numPages ≠ 0 := by
    intro h0
    simp [h.owned.eq_nil h0] at hm
  obtain ⟨t, ht, -⟩ := h.owned.pop hne
  have hc := h.owned.chain sp.numPages
  rw [ht] at hc hm
  rw [unlink_eq] at hu
  split at hu
  · simp at hu
  · rename_i hhead
    have htail : nx ∈ t := (List.mem_cons.mp hm).resolve_left (Ne.symm hhead)
    split at hu
    · simp at hu
    · rename_i hf
      exact findPrev_none hc hf htail
    · simp at hu

theorem unlink_total (h : Held lost c space live lists) (nx : Nat) (hf : (lists nsp.numPages).length ≤ fuel) :
    ∃ r, unlink fuel nx nsp c = some r := by
  rw [unlink_eq]
  split
  · exact ⟨_, rfl⟩
  · split
    · exact ⟨_, rfl⟩
    · rename_i h0
      obtain ⟨r, hr⟩ := findPrev_total nx (fun x hx => (h.sized _ x hx).imp (fun _ => And.left))
        (h.owned.chain nsp.numPages) h0 hf
      rw [hr]
      cases r <;> exact ⟨_, rfl⟩

theorem unlink_true (h : Held lost c space live lists) (hs : c.spans nx = some nsp)
    (hu : unlink fuel nx nsp c = some (true, c')) :
    ∃ k u r, lists k = u ++ nx :: r ∧
      Owned (nextOf c'.spans) (heads c'.freeSpans) (Function.update lists k (u ++ r)) := by
  have hnx : nx ≠ 0 := by
    rintro rfl
    rw [h.null] at hs
    cases hs
  rw [unlink_eq] at hu
  split at hu
  · rename_i heq
    simp only [Option.some.injEq, Prod.mk.injEq, true_and] at hu
    subst hu
    obtain ⟨t, ht, hpop⟩ := h.owned.pop (i := nsp.numPages) (by rw [heq]; exact hnx)
    rw [heq] at ht hpop
    rw [nextOf_some hs] at hpop
    refine ⟨nsp.numPages, [], t, ht, ?_⟩
    rw [heads_insert, heads_insert, Function.update_idem]
    exact hpop
  · split at hu
    · simp at hu
    · split at hu
      · simp at hu
      · simp at hu
      · rename_i x hf
        simp only [Option.some.injEq, Prod.mk.injEq, true_and] at hu
        subst hu
        obtain ⟨u, r, hl⟩ := findPrev_some h.null (h.owned.chain nsp.numPages) hf
        refine ⟨nsp.numPages, u ++ [x], r, by simp [hl], ?_⟩
        obtain ⟨sx, hx, -⟩ := h.sized nsp.numPages x (by simp [hl])
        have hput := h.owned.unlink hl
        rw [nextOf_some hs, ← nextOf_setNext hx] at hput
        change Owned (nextOf (setNext c.spans x nsp.next))
          (heads (c.freeSpans.insert nsp.numPages (heads c.freeSpans nsp.numPages))) _
        rw [heads_insert_self, List.append_assoc]
        exact hput

/-- Merging: the span behind a free one leaves its list and the span in front
takes over its pages. -/
theorem grow (h : Held lost c space live lists) (hp : c.spans p = some sp) (hm : (sp.pageAddr, sp.numPages) ∈ live)
    (hs : c.spans nx = some nsp) (hnext : nsp.pageAddr = sp.pageAddr + sp.numPages * pageSize)
    (hu : unlink fuel nx nsp c = some (true, c')) :
    ∃ lists', (∃ k, nx ∈ lists k) ∧ (∀ j q, q ∈ lists' j ↔ q ∈ lists j ∧ q ≠ nx) ∧
      Held lost { c' with
        spans := Function.update (Function.update c'.spans p
          (some ⟨sp.pageAddr, sp.numPages + nsp.numPages, nextOf c'.spans p⟩)) nx none
        spanMap := c'.spanMap.erase nsp.pageAddr }
        space ((sp.pageAddr, sp.numPages + nsp.numPages) :: live.erase (sp.pageAddr, sp.numPages)) lists' := by
  obtain ⟨k, u, r, hk, hown⟩ := h.unlink_true hs hu
  have hl := (h.live_span hp hm).2
  have hmap := (unlink_true_spans hu).1
  have hnxk : nx ∈ lists k := by simp [hk]
  have hpn : p ≠ nx := by
    rintro rfl
    exact hl k hnxk
  have hlists : ∀ j q, q ∈ Function.update lists k (u ++ r) j ↔ q ∈ lists j ∧ q ≠ nx := fun j q =>
    h.owned.mem_unlink hk
  have hoff : ∀ j, p ∉ Function.update lists k (u ++ r) j := fun j hm => hl j ((hlists j p).mp hm).1
  have hold : ∀ q, q ≠ p → q ≠ nx → ∀ w, Function.update (Function.update c'.spans p w) nx none q = c'.spans q := by
    intro q hqp hqn w
    simp [hqp, hqn]
  have hself : Function.update (Function.update c'.spans p
      (some ⟨sp.pageAddr, sp.numPages + nsp.numPages, nextOf c'.spans p⟩)) nx none p =
      some ⟨sp.pageAddr, sp.numPages + nsp.numPages, nextOf c'.spans p⟩ := by simp [hpn]
  refine ⟨Function.update lists k (u ++ r), ⟨k, hnxk⟩, hlists, ?_⟩
  constructor
  · apply hown.congr
    intro j q hq
    have hqp : q ≠ p := by
      rintro rfl
      exact hoff j hq
    simp [nextOf, hqp, ((hlists j q).mp hq).2]
  · intro j q hq
    obtain ⟨hqj, hqn⟩ := (hlists j q).mp hq
    have hqp : q ≠ p := by
      rintro rfl
      exact hoff j hq
    obtain ⟨sq, hsq, hj⟩ := h.sized j q hqj
    obtain ⟨n, hn⟩ := unlink_true_of_some hu hsq
    exact ⟨_, (hold q hqp hqn _).trans hn, hj⟩
  · apply (hold 0 (h.ne_zero hp).symm (h.ne_zero hs).symm _).trans
    cases h0 : c'.spans 0 with
    | none => rfl
    | some sq =>
        obtain ⟨n, hn⟩ := unlink_true_some hu h0
        exact absurd rfl (h.ne_zero hn)
  · intro a q hq
    simp only [OrdMap.find?_erase, hmap] at hq
    split at hq
    · cases hq
    · rename_i hne
      obtain ⟨sq, hsq, ha⟩ := h.entry a q hq
      have hqn : q ≠ nx := by
        rintro rfl
        obtain rfl : sq = nsp := Option.some.inj (hsq.symm.trans hs)
        exact hne ha.symm
      by_cases hqp : q = p
      · subst hqp
        obtain rfl : sq = sp := Option.some.inj (hsq.symm.trans hp)
        exact ⟨_, hself, ha⟩
      · obtain ⟨n, hn⟩ := unlink_true_of_some hu hsq
        exact ⟨_, (hold q hqp hqn _).trans hn, ha⟩
  · intro t ht
    rcases List.mem_cons.mp ht with rfl | ht
    · have hne : sp.pageAddr ≠ nsp.pageAddr := fun he => hpn (h.span_inj hp hs he)
      refine ⟨p, _, ?_, hself, rfl, hoff⟩
      simpa [OrdMap.find?_erase, hmap, hne] using h.known_of_live hp hm
    · obtain ⟨q, sq, hq, hsq, ha, hn, hqp, hlq⟩ := h.known_apart hp ht
      have hqn : q ≠ nx := by
        rintro rfl
        exact hlq k hnxk
      have hta : t.1 ≠ nsp.pageAddr := fun he => hqn (h.span_inj hsq hs (ha.trans he))
      obtain ⟨m, hm⟩ := unlink_true_of_some hu hsq
      refine ⟨q, _, ?_, (hold q hqp hqn _).trans hm, hn, fun j hj => hlq j ((hlists j q).mp hj).1⟩
      simpa [OrdMap.find?_erase, hmap, hta] using hq
  · intro q sq hq hlq
    have hqn : q ≠ nx := by
      rintro rfl
      simp at hq
    by_cases hqp : q = p
    · subst hqp
      obtain rfl := Option.some.inj (hq.symm.trans hself)
      exact .inr List.mem_cons_self
    · obtain ⟨n, hn⟩ := unlink_true_some hu ((hold q hqp hqn _).symm.trans hq)
      have hlive := h.used_apart hp hn hqp (fun j hm => hlq j ((hlists j q).mpr ⟨hm, hqn⟩))
      exact hlive.imp id (List.mem_cons_of_mem _)
  · have hpos := h.numPages_pos hs
    refine List.nodup_cons.mpr ⟨fun hm => ?_, h.once.erase _⟩
    have hn := (h.live_span hp (List.mem_of_mem_erase hm)).1
    omega
  · rw [extents_update, extents_update, unlink_true_extents hu]
    have hm := h.tiling.merge (extent_some hp) (j := nx) (m := nsp.numPages * pageSize)
      (by rw [extent_some hs, Span.extent, hnext])
    simpa [Span.extent, Nat.add_mul] using hm
  · exact h.bound

end Held

end PageCache

end LearnNote.Memory
