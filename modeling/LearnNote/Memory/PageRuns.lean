import LearnNote.Lib.Transition
import LearnNote.Memory.PageInvariant

namespace LearnNote.Memory.PageRuns

open Lib Linked Extents Transition PageCache

/-- A process that uses the page cache: the spans it holds are given by their
address and the number of pages it asked for. -/
structure Sys where
  os : Os
  cache : PageCache
  live : List (Nat × Nat)

inductive Act
  | allocateSpan (numPages : Nat) (env : Env)
  | deallocateSpan (p numPages fuel : Nat)

def allocated (numPages : Nat) (live : List (Nat × Nat)) : Ret → List (Nat × Nat)
  | .ptr p => if p = 0 then live else (p, numPages) :: live
  | .badAlloc => live

/-- The steps are the calls that return or throw: one that dereferences null or
does not end has no next state. -/
def step : Act → Sys → Option Sys
  | .allocateSpan n env, s =>
      if 1 ≤ n ∧ n < 2 ^ 64 then
        (s.cache.allocateSpan env n s.os).map (fun r => ⟨r.2.1, r.2.2, allocated n s.live r.1⟩)
      else none
  | .deallocateSpan p n fuel, s =>
      if (p, n) ∈ s.live then
        (s.cache.deallocateSpan fuel p n).map (fun c => ⟨s.os, c, s.live.erase (p, n)⟩)
      else none

def start (s : Sys) : Prop := s.os.mapped = [] ∧ s.cache = PageCache.initial ∧ s.live = []

/-- The byte count systemAlloc passes to mmap is the one asked for, or wraps to
zero, which mmap refuses. -/
def Fits : Act → Sys → Prop
  | .allocateSpan n _, _ => n < 2 ^ 52 ∨ 2 ^ 52 ∣ n
  | .deallocateSpan .., _ => True

instance (a : Act) (s : Sys) : Decidable (Fits a s) :=
  match a with
  | .allocateSpan .. => inferInstanceAs (Decidable (_ ∨ _))
  | .deallocateSpan .. => .isTrue trivial

/-- The call wants a new Span: for the remainder of one it takes off a free list, or for a mapping. -/
def wantsSpan (n : Nat) (env : Env) (s : Sys) : Bool :=
  match s.cache.freeSpans.lowerBound n with
  | some (_, span) => (s.cache.spans span).any (fun sp => n < sp.numPages)
  | none => (systemAlloc env n s.os).1 ≠ 0

/-- Operator new does not fail where a Span is wanted. -/
def Granted : Act → Sys → Prop
  | .allocateSpan n env, s => wantsSpan n env s → (newSpan env s.cache).isSome
  | .deallocateSpan .., _ => True

instance (a : Act) (s : Sys) : Decidable (Granted a s) :=
  match a with
  | .allocateSpan .. => inferInstanceAs (Decidable (_ → _))
  | .deallocateSpan .. => .isTrue trivial

def Obtained (s : Sys) (x : Nat) : Prop := ∃ r ∈ s.os.mapped, Covers r x

def pages (r : Nat × Nat) : Nat × Nat := (r.1, r.2 * pageSize)

def Free (c : PageCache) (p : Nat) (sp : Span) : Prop :=
  c.spans p = some sp ∧ ∃ k h l, c.freeSpans.find? k = some h ∧ Chain (nextOf c.spans) h l ∧ p ∈ l

structure Partition (s : Sys) : Prop where
  acyclic : ∀ k h, s.cache.freeSpans.find? k = some h → ∃ l, Chain (nextOf s.cache.spans) h l ∧
    ∀ p ∈ l, ∃ sp, s.cache.spans p = some sp ∧ sp.numPages = k
  mapped : ∀ r ∈ s.live, ∃ p sp, s.cache.spanMap.find? r.1 = some p ∧ s.cache.spans p = some sp ∧
    sp.pageAddr = r.1 ∧ sp.numPages = r.2
  live_apart : s.live.Pairwise (fun r t => Apart (pages r) (pages t))
  free_apart : ∀ p q sp sq, Free s.cache p sp → Free s.cache q sq → p ≠ q → Apart sp.extent sq.extent
  live_free_apart : ∀ r ∈ s.live, ∀ p sp, Free s.cache p sp → Apart (pages r) sp.extent
  exact : ∀ x, Obtained s x ↔ (∃ r ∈ s.live, Covers (pages r) x) ∨ ∃ p sp, Free s.cache p sp ∧ Covers sp.extent x

section steps

variable {s t : Sys} {c c' : PageCache} {os os' : Os} {space : Nat → Prop} {live : List (Nat × Nat)}
  {lists : Nat → List Nat} {lost : Nat → Prop} {env : Env} {n p fuel : Nat} {r : Ret}

theorem step_allocateSpan (h : step (.allocateSpan n env) s = some t) :
    1 ≤ n ∧ n < 2 ^ 64 ∧ ∃ r, s.cache.allocateSpan env n s.os = some (r, t.os, t.cache) ∧
      t.live = allocated n s.live r := by
  simp only [step] at h
  split at h
  · rename_i hn
    obtain ⟨⟨r, os, c⟩, ha, rfl⟩ := Option.map_eq_some_iff.mp h
    exact ⟨hn.1, hn.2, r, ha, rfl⟩
  · cases h

theorem step_deallocateSpan (h : step (.deallocateSpan p n fuel) s = some t) :
    (p, n) ∈ s.live ∧ s.cache.deallocateSpan fuel p n = some t.cache ∧ t.os = s.os ∧ t.live = s.live.erase (p, n) := by
  simp only [step] at h
  split at h
  · rename_i hm
    obtain ⟨c, hc, rfl⟩ := Option.map_eq_some_iff.mp h
    exact ⟨hm, hc, rfl, rfl⟩
  · cases h

theorem inv_empty : Inv PageCache.initial (fun _ => False) [] (fun _ => []) :=
  ⟨Owned.empty _, by simp, rfl, by simp [PageCache.initial], by simp, by simp [PageCache.initial],
    List.nodup_nil, Tiling.empty, by simp⟩

theorem newSpan_some {q : Nat} (h : newSpan env c = some q) : q ≠ 0 ∧ c.spans q = none := by
  have h' := (Option.filter_eq_some_iff.mp h).2
  simpa using h'

theorem sizeT_pages (h : n < 2 ^ 52 ∨ 2 ^ 52 ∣ n) (h0 : sizeT (n * pageSize) ≠ 0) :
    sizeT (n * pageSize) = n * pageSize := by
  rcases h with h | ⟨m, rfl⟩
  · apply sizeT_of_lt
    simp only [pageSize]
    omega
  · exfalso
    apply h0
    simp only [sizeT, pageSize]
    omega

/-- How a merge of a span goes: it keeps its size, and no free span behind it is
recorded, or it takes in the free span behind it. -/
inductive Merged (c : PageCache) (lists : Nat → List Nat) (q : Nat) (sp : Span) (c' : PageCache)
    (lists' : Nat → List Nat) (numPages : Nat) : Prop
  | apart (hpages : numPages = sp.numPages) (hlists : lists' = lists) (hext : extents c'.spans = extents c.spans)
      (hmiss : ∀ nx, c.spanMap.find? (sp.pageAddr + sp.numPages * pageSize) = some nx → ∀ k, nx ∉ lists k)
  | joined (nx : Nat) (nsp : Span) (hfind : c.spanMap.find? nsp.pageAddr = some nx) (hnx : c.spans nx = some nsp)
      (hfree : ∃ k, nx ∈ lists k) (hnext : nsp.pageAddr = sp.pageAddr + sp.numPages * pageSize)
      (hpages : numPages = sp.numPages + nsp.numPages) (hlists : ∀ j r, r ∈ lists' j ↔ r ∈ lists j ∧ r ≠ nx)
      (hext : ∀ r, r ≠ q → r ≠ nx → extents c'.spans r = extents c.spans r)

theorem find_behind (h : Held lost c space live lists) {nx : Nat} {sp : Span}
    (hf : c.spanMap.find? (sp.pageAddr + sp.numPages * pageSize) = some nx) :
    sizeT (sp.pageAddr + sp.numPages * pageSize) = sp.pageAddr + sp.numPages * pageSize := by
  obtain ⟨nsp, hns, hna⟩ := h.entry _ _ hf
  have hb := h.extent_bound hns
  have hpos := h.numPages_pos hns
  apply sizeT_of_lt
  simp only [pageSize] at *
  omega

theorem merge_spec (h : Held lost c space live lists) {q : Nat} {sp : Span} (hs : c.spans q = some sp)
    (hm : (sp.pageAddr, sp.numPages) ∈ live)
    (hd : merge fuel q (sizeT (sp.pageAddr + sp.numPages * pageSize)) c = some c') :
    ∃ lists' sp', c'.spans q = some sp' ∧ sp'.pageAddr = sp.pageAddr ∧ (∀ k, q ∉ lists' k) ∧
      Held lost c' space ((sp.pageAddr, sp'.numPages) :: live.erase (sp.pageAddr, sp.numPages)) lists' ∧
      Merged c lists q sp c' lists' sp'.numPages := by
  have hl := (h.live_span hs hm).2
  have hsame : ∀ {d : PageCache}, Held lost d space live lists →
      Held lost d space ((sp.pageAddr, sp.numPages) :: live.erase (sp.pageAddr, sp.numPages)) lists :=
    fun hd => hd.perm (List.perm_cons_erase hm)
  rcases merge_cases hd with ⟨hnx, rfl⟩ | ⟨nx, nsp, hnx, hns, hu | ⟨d, sp', hu, hdq, rfl⟩⟩
  · refine ⟨lists, sp, hs, rfl, hl, hsame h, .apart rfl rfl rfl ?_⟩
    intro nx hf
    rw [find_behind h hf, hf] at hnx
    cases hnx
  · have hinv := hsame (h.unlink_false hu)
    rw [unlink_false_eq hu] at hinv ⊢
    refine ⟨lists, sp, hs, rfl, hl, hinv, .apart rfl rfl rfl ?_⟩
    intro nx' hf
    rw [find_behind h hf, hf] at hnx
    cases hnx
    exact h.unlink_misses hns hu
  · obtain ⟨nsp', hns', hna⟩ := h.entry _ _ hnx
    obtain rfl : nsp' = nsp := Option.some.inj (hns'.symm.trans hns)
    have hb := h.extent_bound hs
    have hb' := h.extent_bound hns
    have hpos := h.numPages_pos hs
    have hadj : nsp'.pageAddr = sp.pageAddr + sp.numPages * pageSize := by
      simp only [sizeT, pageSize] at *
      omega
    obtain ⟨lists', hfree, hlists, hinv⟩ := h.grow hs hm hns hadj hu
    obtain ⟨m, hm'⟩ := unlink_true_of_some hu hs
    obtain rfl := Option.some.inj (hdq.symm.trans hm')
    have hsum : sizeT (sp.numPages + nsp'.numPages) = sp.numPages + nsp'.numPages := by
      apply sizeT_of_lt
      simp only [pageSize] at *
      omega
    have hqn : q ≠ nx := by
      rintro rfl
      obtain rfl : nsp' = sp := Option.some.inj (hns.symm.trans hs)
      simp only [pageSize] at hadj
      omega
    rw [nextOf_some hdq, hna] at hinv
    rw [← hna] at hnx
    rw [hsum, ← hna]
    refine ⟨lists', ⟨sp.pageAddr, sp.numPages + nsp'.numPages, m⟩, by simp [hqn], rfl,
      fun k hk => hl k ((hlists k q).mp hk).1, hna ▸ hinv, .joined nx nsp' hnx hns hfree hadj rfl hlists ?_⟩
    intro r hrq hrn
    rw [extents_update, extents_update, Function.update_of_ne hrn, Function.update_of_ne hrq, unlink_true_extents hu]

theorem deallocateSpan_spec (h : Held lost c space live lists) (hm : (p, n) ∈ live)
    (hd : deallocateSpan fuel p n c = some c') :
    ∃ q sp d lists' m, c.spans q = some sp ∧ sp.pageAddr = p ∧ sp.numPages = n ∧ (∀ k, q ∉ lists k) ∧
      (∀ k, q ∉ lists' k) ∧ extents c'.spans = extents d.spans ∧ extents c'.spans q = some (p, m * pageSize) ∧
      Held lost c' space (live.erase (p, n)) (Function.update lists' m (q :: lists' m)) ∧
      Merged c lists q sp d lists' m := by
  obtain ⟨q, sp, hq, hs, rfl, hl⟩ := h.known _ hm
  obtain ⟨sp', hs', rfl⟩ := h.entry _ _ hq
  obtain rfl : sp' = sp := Option.some.inj (hs'.symm.trans hs)
  rcases deallocateSpan_cases hd with ⟨hnone, -⟩ | ⟨q', d, sp, hq', hg, hsd, rfl⟩
  · rw [hq] at hnone
    cases hnone
  · obtain rfl : q' = q := Option.some.inj (hq'.symm.trans hq)
    obtain ⟨lists', sq, hsq, ha, hl', hinv, hmerged⟩ := merge_spec h hs hm hg
    obtain rfl : sq = sp := Option.some.inj (hsq.symm.trans hsd)
    have hrel := hinv.release hsd hl'
    rw [ha, List.erase_cons_head] at hrel
    have hext : extents (insertFree q' sq.numPages d).spans = extents d.spans := extents_setNext _
    refine ⟨q', sp', d, lists', sq.numPages, hs, rfl, rfl, hl, hl', hext, ?_, hrel, hmerged⟩
    rw [hext, Held.extent_some hsd, Span.extent, ha]

theorem allocateSpan_ptr (h : Held lost c space live lists) (hspace : ∀ x, space x → ∃ r ∈ os.mapped, Covers r x)
    (hn : 1 ≤ n) (hfit : n < 2 ^ 52 ∨ 2 ^ 52 ∣ n) (ha : allocateSpan env n os c = some (.ptr p, os', c')) :
    ∃ lists' new, os'.mapped = new ++ os.mapped ∧ Held lost c' (fun x => (∃ r ∈ new, Covers r x) ∨ space x)
      (if p = 0 then live else (p, n) :: live) lists' := by
  have hsame : space = fun x => (∃ r ∈ ([] : List (Nat × Nat)), Covers r x) ∨ space x := by simp
  simp only [allocateSpan] at ha
  cases hlb : c.freeSpans.lowerBound n with
  | some e =>
      obtain ⟨k, q⟩ := e
      obtain ⟨hfind, hk⟩ := OrdMap.lowerBound_some hlb
      simp only at hfind hk
      simp only [hlb] at ha
      cases hs : c.spans q with
      | none => simp [hs] at ha
      | some sp =>
          obtain ⟨t, ht, rfl⟩ := h.head hfind hs
          have hp0 := (h.extent_bound hs).1
          have htake := h.take ht hs
          simp only [hs] at ha
          by_cases hlt : n < sp.numPages
          · rw [if_pos hlt] at ha
            cases hnew : newSpan env (takeHead sp.numPages sp c) with
            | none => simp [hnew] at ha
            | some q' =>
                obtain ⟨hq', hq''⟩ := newSpan_some hnew
                simp only [hnew, Option.some.injEq, Prod.mk.injEq, Ret.ptr.injEq] at ha
                obtain ⟨rfl, rfl, rfl⟩ := ha
                have hsplit := htake.split hs List.mem_cons_self hq'' hq' hn hlt
                rw [List.erase_cons_head] at hsplit
                rw [if_neg hp0.ne']
                exact ⟨_, [], rfl, hsame ▸ hsplit⟩
          · rw [if_neg hlt] at ha
            simp only [Option.some.injEq, Prod.mk.injEq, Ret.ptr.injEq] at ha
            obtain ⟨rfl, rfl, rfl⟩ := ha
            obtain rfl : sp.numPages = n := by omega
            rw [if_neg hp0.ne']
            exact ⟨_, [], rfl, hsame ▸ htake⟩
  | none =>
      simp only [hlb] at ha
      rcases systemAlloc_eq env n os with hsys | ⟨a, -, hfresh, hsys⟩
      · simp only [hsys, if_true, Option.some.injEq, Prod.mk.injEq, Ret.ptr.injEq] at ha
        obtain ⟨rfl, rfl, rfl⟩ := ha
        rw [if_pos rfl]
        exact ⟨_, [], rfl, hsame ▸ h⟩
      · obtain ⟨ha0, hsize, -, hbound, hnew⟩ := hfresh
        have hbytes := sizeT_pages hfit hsize
        simp only [hsys, if_neg ha0] at ha
        cases hq : newSpan env c with
        | none => simp [hq] at ha
        | some q =>
            obtain ⟨hq0, hqn⟩ := newSpan_some hq
            simp only [hq, Option.some.injEq, Prod.mk.injEq, Ret.ptr.injEq] at ha
            obtain ⟨rfl, rfl, rfl⟩ := ha
            rw [hbytes] at hbound hnew
            have hfr := h.fresh hqn hq0 hn (Nat.pos_of_ne_zero ha0) hbound (by
              intro x hx hsx
              obtain ⟨r, hr, hrx⟩ := hspace x hsx
              exact (hnew r hr).not_covers hx hrx)
            rw [if_neg ha0]
            refine ⟨lists, [(a, n * pageSize)], by simp [hbytes], ?_⟩
            simpa using hfr

/-- A call that throws has taken a span off a free list, or has had pages mapped. -/
theorem badAlloc_cases (ha : allocateSpan env n os c = some (.badAlloc, os', c')) :
    (∃ k q sp, c.freeSpans.find? k = some q ∧ c.spans q = some sp ∧ os' = os ∧ c' = takeHead k sp c) ∨
      ∃ a, os.Fresh a (sizeT (n * pageSize)) ∧ os'.mapped = (a, sizeT (n * pageSize)) :: os.mapped ∧ c' = c := by
  simp only [allocateSpan] at ha
  cases hlb : c.freeSpans.lowerBound n with
  | some e =>
      obtain ⟨k, q⟩ := e
      have hfind := (OrdMap.lowerBound_some hlb).1
      simp only at hfind
      simp only [hlb] at ha
      cases hs : c.spans q with
      | none => simp [hs] at ha
      | some sp =>
          simp only [hs] at ha
          split at ha
          · split at ha
            · simp only [Option.some.injEq, Prod.mk.injEq, true_and] at ha
              exact .inl ⟨k, q, sp, hfind, hs, ha.1.symm, ha.2.symm⟩
            · simp at ha
          · simp at ha
  | none =>
      simp only [hlb] at ha
      rcases systemAlloc_eq env n os with hsys | ⟨a, -, hfresh, hsys⟩
      · simp [hsys] at ha
      · simp only [hsys, if_neg hfresh.1] at ha
        split at ha
        · simp only [Option.some.injEq, Prod.mk.injEq, true_and] at ha
          obtain ⟨rfl, rfl⟩ := ha
          exact .inr ⟨a, hfresh, rfl, rfl⟩
        · simp at ha

theorem allocateSpan_badAlloc (h : Held lost c space live lists)
    (ha : allocateSpan env n os c = some (.badAlloc, os', c')) :
    ∃ lost' lists' new, os'.mapped = new ++ os.mapped ∧ Held lost' c' space live lists' := by
  rcases badAlloc_cases ha with ⟨k, q, sp, hfind, hs, rfl, rfl⟩ | ⟨a, -, hm, rfl⟩
  · obtain ⟨t, ht, rfl⟩ := h.head hfind hs
    exact ⟨_, _, [], rfl, h.lose ht hs⟩
  · exact ⟨lost, lists, [_], hm, h⟩

theorem granted_iff (h : s.cache.allocateSpan env n s.os = some (r, os, c)) :
    Granted (.allocateSpan n env) s ↔ r ≠ .badAlloc := by
  simp only [allocateSpan] at h
  cases hlb : s.cache.freeSpans.lowerBound n with
  | some e =>
      obtain ⟨k, q⟩ := e
      simp only [hlb] at h
      cases hs : s.cache.spans q with
      | none => simp [hs] at h
      | some sp =>
          have hnew : newSpan env (takeHead k sp s.cache) = newSpan env s.cache := rfl
          simp only [hs, hnew] at h
          simp only [Granted, wantsSpan, hlb, hs, Option.any_some, decide_eq_true_eq]
          by_cases hlt : n < sp.numPages
          · cases hn : newSpan env s.cache <;> simp only [hn, hlt, if_true, Option.some.injEq, Prod.mk.injEq] at h <;>
              simp [hlt, ← h.1]
          · simp only [gt_iff_lt, hlt, if_false, Option.some.injEq, Prod.mk.injEq] at h
            simp [hlt, ← h.1]
  | none =>
      simp only [hlb] at h
      simp only [Granted, wantsSpan, hlb, decide_eq_true_eq]
      by_cases h0 : (systemAlloc env n s.os).1 = 0
      · simp only [h0, if_true, Option.some.injEq, Prod.mk.injEq] at h
        simp [h0, ← h.1]
      · cases hn : newSpan env s.cache <;> simp only [hn, h0, if_false, Option.some.injEq, Prod.mk.injEq] at h <;>
          simp [h0, ← h.1]

theorem step_inv {a : Act} (hfit : Fits a s) (hgrant : Granted a s) (hs : step a s = some t)
    (h : ∃ lists, Inv s.cache (Obtained s) s.live lists) : ∃ lists, Inv t.cache (Obtained t) t.live lists := by
  obtain ⟨lists, h⟩ := h
  cases a with
  | allocateSpan n env =>
      obtain ⟨hn, -, r, ha, hlive⟩ := step_allocateSpan hs
      cases r with
      | badAlloc => exact absurd rfl ((granted_iff ha).mp hgrant)
      | ptr p =>
          obtain ⟨lists', new, hnew, h'⟩ := allocateSpan_ptr (inv_iff.mp h) (fun _ hx => hx) hn hfit ha
          refine ⟨lists', inv_iff.mpr ?_⟩
          rw [hlive, allocated]
          convert h' using 1
          funext x
          simp [Obtained, hnew, or_and_right, exists_or]
  | deallocateSpan p n fuel =>
      obtain ⟨hm, hd, hos, hlive⟩ := step_deallocateSpan hs
      obtain ⟨_, _, _, _, _, _, _, _, _, _, _, _, h', _⟩ := deallocateSpan_spec (inv_iff.mp h) hm hd
      rw [hlive]
      unfold Obtained
      rw [hos]
      exact ⟨_, inv_iff.mpr h'⟩

theorem reachable_inv (h : Reachable start step (fun a s => Fits a s ∧ Granted a s) s) :
    ∃ lists, Inv s.cache (Obtained s) s.live lists := by
  refine Reachable.invariant ?_ (fun a s t ih hc hs => step_inv hc.1 hc.2 hs ih) h
  rintro s ⟨hm, hc, hl⟩
  refine ⟨fun _ => [], ?_⟩
  have hspace : Obtained s = fun _ => False := by
    funext x
    simp [Obtained, hm]
  rw [hspace, hc, hl]
  exact inv_empty

theorem free_iff (h : Held lost c space live lists) {sp : Span} :
    Free c p sp ↔ c.spans p = some sp ∧ p ∈ lists sp.numPages := by
  constructor
  · rintro ⟨hs, k, hd, l, hf, hc, hm⟩
    have hl : l = lists k := by
      have hk := h.owned.chain k
      rw [heads, hf] at hk
      exact hc.unique hk
    subst hl
    obtain ⟨sp', hs', hk⟩ := h.sized k p hm
    obtain rfl : sp' = sp := Option.some.inj (hs'.symm.trans hs)
    rw [hk]
    exact ⟨hs, hm⟩
  · rintro ⟨hs, hm⟩
    refine ⟨hs, sp.numPages, heads c.freeSpans sp.numPages, lists sp.numPages, ?_, h.owned.chain _, hm⟩
    cases hf : c.freeSpans.find? sp.numPages with
    | some v => simp [heads, hf]
    | none =>
        have hnil := h.owned.eq_nil (i := sp.numPages) (by simp [heads, hf])
        simp [hnil] at hm

theorem inv_partition {s : Sys} {lists : Nat → List Nat} (h : Inv s.cache (Obtained s) s.live lists) :
    Partition s := by
  have hlive : ∀ r ∈ s.live, ∃ p sp, s.cache.spans p = some sp ∧ sp.extent = pages r ∧
      s.cache.spanMap.find? r.1 = some p ∧ sp.pageAddr = r.1 ∧ sp.numPages = r.2 ∧ ∀ k, p ∉ lists k := by
    intro r hr
    obtain ⟨p, sp, hp, hs, hn, hl⟩ := h.known r hr
    obtain ⟨sp', hs', ha⟩ := h.entry _ _ hp
    obtain rfl : sp' = sp := Option.some.inj (hs'.symm.trans hs)
    exact ⟨p, sp', hs, by simp [Span.extent, pages, ha, hn], hp, ha, hn, hl⟩
  constructor
  · intro k hd hf
    refine ⟨lists k, ?_, h.sized k⟩
    have hk := h.owned.chain k
    rwa [heads, hf] at hk
  · intro r hr
    obtain ⟨p, sp, hs, -, hp, ha, hn, -⟩ := hlive r hr
    exact ⟨p, sp, hp, hs, ha, hn⟩
  · apply h.once.imp_of_mem
    intro r t hr ht hne
    obtain ⟨p, sp, hs, hx, -, ha, hn, -⟩ := hlive r hr
    obtain ⟨q, sq, hs', hx', -, ha', hn', -⟩ := hlive t ht
    rw [← hx, ← hx']
    refine h.tiling.apart ?_ (Held.extent_some hs) (Held.extent_some hs')
    rintro rfl
    obtain rfl : sq = sp := Option.some.inj (hs'.symm.trans hs)
    exact hne (Prod.ext (ha.symm.trans ha') (hn.symm.trans hn'))
  · intro p q sp sq hp hq hne
    exact h.tiling.apart hne (Held.extent_some hp.1) (Held.extent_some hq.1)
  · intro r hr p sp hp
    obtain ⟨q, sq, hs, hx, -, -, -, hl⟩ := hlive r hr
    rw [← hx]
    refine h.tiling.apart ?_ (Held.extent_some hs) (Held.extent_some hp.1)
    rintro rfl
    exact hl _ ((free_iff (inv_iff.mp h)).mp hp).2
  · intro x
    rw [h.tiling.cover x]
    constructor
    · rintro ⟨p, r, hr, hx⟩
      obtain ⟨sp, hs, rfl⟩ := Option.map_eq_some_iff.mp hr
      by_cases hf : ∀ k, p ∉ lists k
      · exact .inl ⟨_, h.used p sp hs hf, hx⟩
      · simp only [not_forall, not_not] at hf
        obtain ⟨k, hk⟩ := hf
        obtain ⟨sp', hs', hk'⟩ := h.sized k p hk
        obtain rfl : sp' = sp := Option.some.inj (hs'.symm.trans hs)
        exact .inr ⟨p, sp', (free_iff (inv_iff.mp h)).mpr ⟨hs, hk' ▸ hk⟩, hx⟩
    · rintro (⟨r, hr, hx⟩ | ⟨p, sp, hp, hx⟩)
      · obtain ⟨q, sq, hs, hx', -⟩ := hlive r hr
        exact ⟨q, _, Held.extent_some hs, hx' ▸ hx⟩
      · exact ⟨p, _, Held.extent_some hp.1, hx⟩

/-- What a call has taken before it throws is on no list and nobody's. -/
theorem granted_of_partition {a : Act} (h : Inv s.cache (Obtained s) s.live lists) (hs : step a s = some t)
    (ht : Partition t) : Granted a s := by
  cases a with
  | deallocateSpan p n fuel => exact trivial
  | allocateSpan n env =>
      obtain ⟨-, -, r, ha, hlive⟩ := step_allocateSpan hs
      rw [granted_iff ha]
      rintro rfl
      rw [allocated] at hlive
      rcases badAlloc_cases ha with ⟨k, q, sp, hfind, hq, hos, hc⟩ | ⟨a, hfresh, hm, hc⟩
      · obtain ⟨l, hl, rfl⟩ := (inv_iff.mp h).head hfind hq
        have hlose := (inv_iff.mp h).lose hl hq
        have hself : Covers sp.extent sp.pageAddr :=
          ⟨le_rfl, Nat.lt_add_of_pos_right (h.tiling.pos q _ (Held.extent_some hq))⟩
        have hobtained := (h.tiling.cover _).mpr ⟨q, _, Held.extent_some hq, hself⟩
        rw [Obtained, ← hos] at hobtained
        rcases (ht.exact _).mp hobtained with ⟨r, hr, hx⟩ | ⟨p, sp', hp, hx⟩
        · obtain ⟨p, sp', hp, hs', hn, hout⟩ := h.known r (hlive ▸ hr)
          obtain ⟨sq, hsq, ha'⟩ := h.entry _ _ hp
          obtain rfl : sq = sp' := Option.some.inj (hsq.symm.trans hs')
          have hx' : Covers sq.extent sp.pageAddr := by simpa [Span.extent, pages, ha', hn] using hx
          obtain rfl := h.tiling.uniq p q _ _ _ (Held.extent_some hs') (Held.extent_some hq) hx' hself
          exact hout sp.numPages (by simp [hl])
        · rw [hc] at hp
          obtain ⟨hs', hin⟩ := (free_iff hlose).mp hp
          obtain rfl := h.tiling.uniq p q _ _ _ (Held.extent_some hs') (Held.extent_some hq) hx hself
          exact ((h.owned.mem_unlink (u := []) hl).mp hin).2 rfl
      · have hself : Covers (a, sizeT (n * pageSize)) a :=
          ⟨le_rfl, Nat.lt_add_of_pos_right (Nat.pos_of_ne_zero hfresh.2.1)⟩
        have hobtained : Obtained t a := ⟨_, hm ▸ List.mem_cons_self, hself⟩
        have hcovered := (ht.exact a).mp hobtained
        rw [hc, hlive] at hcovered
        obtain ⟨r, hr, hx⟩ := ((inv_partition h).exact a).mpr hcovered
        exact (hfresh.2.2.2.2 r hr).not_covers hself hx

end steps

/-- In every run whose requests fit and whose Spans are granted, the allocated and the free spans divide
the pages obtained from the system. As soon as one is not granted, pages are lost. -/
theorem pages_partitioned {s : Sys} (h : Reachable start step (fun a s => Fits a s ∧ Granted a s) s) :
    Partition s ∧ ∀ a t, Fits a s → step a s = some t → (Granted a s ↔ Partition t) := by
  obtain ⟨lists, hinv⟩ := reachable_inv h
  refine ⟨inv_partition hinv, fun a t hfit hs => ⟨fun hgrant => ?_, fun ht => ?_⟩⟩
  · obtain ⟨lists', hinv'⟩ := step_inv hfit hgrant hs ⟨lists, hinv⟩
    exact inv_partition hinv'
  · exact granted_of_partition hinv hs ht

def blank : Sys := ⟨⟨fun _ => 0, []⟩, PageCache.initial, []⟩

theorem pages_partitioned_split_merge :
    ∃ s, Reachable start step (fun a s => Fits a s ∧ Granted a s) s ∧ s.live = [(28672, 2)] ∧ Partition s := by
  have hrun : (run (guarded step fun a s => Fits a s ∧ Granted a s) [.allocateSpan 3 ⟨some 4096, some 1⟩,
      .allocateSpan 5 ⟨some 16384, some 2⟩, .deallocateSpan 16384 5 1, .deallocateSpan 4096 3 2,
      .allocateSpan 6 ⟨none, some 2⟩, .allocateSpan 2 ⟨none, none⟩, .deallocateSpan 4096 6 1] blank).map Sys.live =
      some [(28672, 2)] := by decide +kernel
  obtain ⟨s, hr, hlive⟩ := reachable_of_run start hrun ⟨rfl, rfl, rfl⟩
  exact ⟨s, hr, hlive, (pages_partitioned hr).1⟩

/-- A request for 2 ^ 52 + 1 pages wraps to a mapping of one page. -/
theorem wrapped_request_not_partitioned : ¬ ∀ s, Reachable start step always s → Partition s := by
  intro h
  have hrun : (run (guarded step always) [.allocateSpan (2 ^ 52 + 1) ⟨some 4096, some 1⟩] blank).map
      (fun s => (s.live, s.os.mapped)) = some ([(4096, 2 ^ 52 + 1)], [(4096, 4096)]) := by decide +kernel
  obtain ⟨s, hr, he⟩ := reachable_of_run start hrun ⟨rfl, rfl, rfl⟩
  simp only [Prod.mk.injEq] at he
  have hcov := ((h s hr).exact 8192).mpr
    (.inl ⟨(4096, 2 ^ 52 + 1), by simp [he.1], by simp [Covers, pages, pageSize]⟩)
  simp [Obtained, he.2, Covers] at hcov

end LearnNote.Memory.PageRuns
