import LearnNote.Memory.PageRuns

namespace LearnNote.Memory.Coalescing

open Lib Linked Extents Transition PageCache PageRuns

/-- What holds of the page cache in every run, whether or not calls throw. -/
def Tracked (s : Sys) : Prop :=
  ∃ lost space lists, Held lost s.cache space s.live lists ∧ ∀ x, space x → Obtained s x

theorem step_tracked {a : Act} {s t : Sys} (hfit : Fits a s) (hs : step a s = some t) (h : Tracked s) : Tracked t := by
  obtain ⟨lost, space, lists, h, hspace⟩ := h
  cases a with
  | allocateSpan n env =>
      obtain ⟨hn, -, r, ha, hlive⟩ := step_allocateSpan hs
      rw [Tracked, hlive]
      cases r with
      | ptr p =>
          obtain ⟨lists', new, hnew, h'⟩ := allocateSpan_ptr h hspace hn hfit ha
          refine ⟨lost, _, lists', h', ?_⟩
          rintro x (⟨r, hr, hx⟩ | hx)
          · exact ⟨r, by simp [hnew, hr], hx⟩
          · obtain ⟨r, hr, hx⟩ := hspace x hx
            exact ⟨r, by simp [hnew, hr], hx⟩
      | badAlloc =>
          obtain ⟨lost', lists', new, hnew, h'⟩ := allocateSpan_badAlloc h ha
          refine ⟨lost', space, lists', h', ?_⟩
          intro x hx
          obtain ⟨r, hr, hx⟩ := hspace x hx
          exact ⟨r, by simp [hnew, hr], hx⟩
  | deallocateSpan p n fuel =>
      obtain ⟨hm, hd, hos, hlive⟩ := step_deallocateSpan hs
      obtain ⟨_, _, _, _, _, _, _, _, _, _, _, _, h', _⟩ := deallocateSpan_spec h hm hd
      rw [Tracked, hlive]
      refine ⟨lost, space, _, h', ?_⟩
      unfold Obtained
      rw [hos]
      exact hspace

theorem reachable_tracked {s : Sys} (h : Reachable start step Fits s) : Tracked s := by
  refine Reachable.invariant ?_ (fun a s t ih hc hs => step_tracked hc hs ih) h
  rintro s ⟨hm, hc, hl⟩
  refine ⟨fun _ => False, fun _ => False, fun _ => [], ?_, fun x hx => hx.elim⟩
  rw [hc, hl]
  exact inv_iff.mp inv_empty

section null

def NonNull (freeSpans : OrdMap Nat Nat) : Prop := ∀ k, freeSpans.find? k ≠ some 0

def spanAt (c : PageCache) (a : Nat) : Option (Nat × Span) :=
  (c.spanMap.find? a).bind (fun p => (c.spans p).map (fun sp => (p, sp)))

def left (c : PageCache) (nx : Nat) (nsp : Span) : Nat :=
  if heads c.freeSpans nsp.numPages = nx then nsp.next else heads c.freeSpans nsp.numPages

/-- The list of the span behind is not left empty, or the freed span goes onto it. -/
def Spares (c : PageCache) (sp : Span) (nx : Nat) (nsp : Span) : Prop :=
  left c nx nsp ≠ 0 ∨ heads c.freeSpans nsp.numPages ≠ nx ∧ nsp.numPages = sp.numPages

instance (c : PageCache) (sp : Span) (nx : Nat) (nsp : Span) : Decidable (Spares c sp nx nsp) :=
  inferInstanceAs (Decidable (_ ∨ _))

def Keeps : Act → Sys → Prop
  | .allocateSpan .., _ => True
  | .deallocateSpan p n _, s => ∀ r ∈ spanAt s.cache p, ∀ e ∈ spanAt s.cache (sizeT (p + n * pageSize)),
      Spares s.cache r.2 e.1 e.2

instance (a : Act) (s : Sys) : Decidable (Keeps a s) :=
  match a with
  | .allocateSpan .. => .isTrue trivial
  | .deallocateSpan p n _ => inferInstanceAs (Decidable (∀ r ∈ spanAt s.cache p,
      ∀ e ∈ spanAt s.cache (sizeT (p + n * pageSize)), Spares s.cache r.2 e.1 e.2))

variable {c c' : PageCache} {p n q nx fuel k : Nat} {sp nsp : Span} {env : Env} {os os' : Os} {found : Bool} {r : Ret}

theorem NonNull.insert {m : OrdMap Nat Nat} (h : NonNull m) (hp : p ≠ 0) : NonNull (m.insert k p) := by
  intro j
  rw [OrdMap.find?_insert]
  split
  · simpa using hp
  · exact h j

theorem NonNull.takeHead (h : NonNull c.freeSpans) : NonNull (takeHead k sp c).freeSpans := by
  unfold PageCache.takeHead
  split
  · exact h.insert ‹sp.next ≠ 0›
  · intro j
    rw [OrdMap.find?_erase]
    split
    · simp
    · exact h j

theorem allocateSpan_nonNull (h : NonNull c.freeSpans) (ha : allocateSpan env n os c = some (r, os', c')) :
    NonNull c'.freeSpans := by
  simp only [allocateSpan] at ha
  split at ha
  · split at ha
    · cases ha
    · split at ha
      · split at ha
        · cases ha
          exact h.takeHead
        · rename_i hnew
          cases ha
          exact h.takeHead.insert (newSpan_some hnew).1
      · cases ha
        exact h.takeHead
  · split at ha
    · cases ha
      exact h
    · split at ha <;> cases ha <;> exact h

theorem unlink_find? (hu : unlink fuel nx nsp c = some (found, c')) :
    c'.freeSpans.find? k = if k = nsp.numPages then some (left c nx nsp) else c.freeSpans.find? k := by
  rw [unlink_eq] at hu
  split at hu
  · rename_i heq
    cases hu
    rw [left, if_pos heq, OrdMap.find?_insert, OrdMap.find?_insert]
    split <;> rfl
  · rename_i hne
    rw [left, if_neg hne]
    split at hu
    · cases hu
      exact OrdMap.find?_insert
    · split at hu <;> cases hu <;> exact OrdMap.find?_insert

theorem unlink_found (heq : heads c.freeSpans nsp.numPages = nx) (hu : unlink fuel nx nsp c = some (found, c')) :
    found = true := by
  rw [unlink_eq, if_pos heq] at hu
  cases hu
  rfl

theorem unlink_empty (hne : heads c.freeSpans nsp.numPages ≠ nx) (h0 : heads c.freeSpans nsp.numPages = 0)
    (hu : unlink fuel nx nsp c = some (found, c')) : found = false := by
  rw [unlink_eq, if_neg hne, if_pos h0] at hu
  cases hu
  rfl

theorem merge_living {a : Nat} {d : PageCache} (hg : merge fuel q a c = some d) (hs : d.spans q = some sp) :
    ∃ sq, c.spans q = some sq := by
  rcases merge_cases hg with ⟨-, rfl⟩ | ⟨nx, nsp, -, -, hu | ⟨e, sq, hu, hsq, rfl⟩⟩
  · exact ⟨sp, hs⟩
  · rw [unlink_false_eq hu] at hs
    exact ⟨sp, hs⟩
  · obtain ⟨v, hv⟩ := unlink_true_some hu hsq
    exact ⟨_, hv⟩

theorem deallocateSpan_living (hd : deallocateSpan fuel p n c = some c') (hq : c.spanMap.find? p = some q) :
    ∃ sp, c.spans q = some sp := by
  rcases deallocateSpan_cases hd with ⟨hnone, -⟩ | ⟨q', d, sp, hq', hg, hsd, rfl⟩
  · rw [hnone] at hq
    cases hq
  · rw [hq'] at hq
    cases hq
    exact merge_living hg hsd

theorem merge_find? {a : Nat} {d : PageCache} {sq : Span} (hg : merge fuel q a c = some d)
    (hs : c.spans q = some sp) (hsq : d.spans q = some sq) :
    (spanAt c a = none → d = c) ∧
      ∀ nx nsp, spanAt c a = some (nx, nsp) →
        (∀ k, d.freeSpans.find? k = if k = nsp.numPages then some (left c nx nsp) else c.freeSpans.find? k) ∧
        (heads c.freeSpans nsp.numPages = nx → sq.numPages = sizeT (sp.numPages + nsp.numPages)) ∧
        (heads c.freeSpans nsp.numPages ≠ nx → heads c.freeSpans nsp.numPages = 0 → sq.numPages = sp.numPages) := by
  rcases merge_cases hg with ⟨hnx, rfl⟩ | ⟨nx, nsp, hnx, hns, hu⟩
  · refine ⟨fun _ => rfl, fun nx nsp hat => ?_⟩
    simp [spanAt, hnx] at hat
  · have hat : spanAt c a = some (nx, nsp) := by simp [spanAt, hnx, hns]
    refine ⟨fun hnone => absurd (hat.symm.trans hnone) (by simp), ?_⟩
    intro nx' nsp' hat'
    rw [hat] at hat'
    cases hat'
    rcases hu with hu | ⟨e, sp', hu, hsp', rfl⟩
    · refine ⟨fun k => unlink_find? hu, fun heq => ?_, fun _ _ => ?_⟩
      · exact absurd (unlink_found heq hu) Bool.false_ne_true
      · rw [unlink_false_eq hu] at hsq
        rw [Option.some.inj (hsq.symm.trans hs)]
    · have hfind (k : Nat) := unlink_find? (k := k) hu
      refine ⟨hfind, fun _ => ?_, fun hne h0 => ?_⟩
      · obtain ⟨v, hv⟩ := unlink_true_some hu hsp'
        have hpages : sp.numPages = sp'.numPages := by rw [Option.some.inj (hs.symm.trans hv)]
        change Function.update (Function.update e.spans q _) nx none q = some sq at hsq
        rw [Function.update_apply] at hsq
        split at hsq
        · cases hsq
        · rw [Function.update_self] at hsq
          cases hsq
          rw [hpages]
      · exact absurd (unlink_empty hne h0 hu).symm Bool.false_ne_true

/-- What a call that frees a span does to the heads: the freed span gets the
size it is put under, and only the list of the span behind is touched besides. -/
theorem deallocateSpan_find? (hd : deallocateSpan fuel p n c = some c') (hq : c.spanMap.find? p = some q)
    (hs : c.spans q = some sp) :
    ∃ m, (spanAt c (sizeT (p + n * pageSize)) = none →
        ∀ k, c'.freeSpans.find? k = if k = m then some q else c.freeSpans.find? k) ∧
      ∀ nx nsp, spanAt c (sizeT (p + n * pageSize)) = some (nx, nsp) →
        (∀ k, c'.freeSpans.find? k =
          if k = m then some q else if k = nsp.numPages then some (left c nx nsp) else c.freeSpans.find? k) ∧
        (heads c.freeSpans nsp.numPages = nx → m = sizeT (sp.numPages + nsp.numPages)) ∧
        (heads c.freeSpans nsp.numPages ≠ nx → heads c.freeSpans nsp.numPages = 0 → m = sp.numPages) := by
  rcases deallocateSpan_cases hd with ⟨hnone, -⟩ | ⟨q', d, sq, hq', hg, hsq, rfl⟩
  · rw [hnone] at hq
    cases hq
  rw [hq'] at hq
  cases hq
  obtain ⟨hnone, hsome⟩ := merge_find? hg hs hsq
  refine ⟨sq.numPages, fun hat k => ?_, fun nx nsp hat => ?_⟩
  · rw [← hnone hat]
    exact OrdMap.find?_insert
  · obtain ⟨hfind, hpages⟩ := hsome nx nsp hat
    refine ⟨fun k => ?_, hpages⟩
    rw [← hfind k]
    exact OrdMap.find?_insert

theorem setNext_null {spans : Nat → Option Span} {v : Nat} (h : spans k = none) : setNext spans p v k = none := by
  cases hk : setNext spans p v k with
  | none => rfl
  | some sq =>
      obtain ⟨w, hw⟩ := setNext_eq_some hk
      rw [h] at hw
      cases hw

theorem ne_null (h : c.spans 0 = none) (hs : c.spans p = some sp) : p ≠ 0 := by
  rintro rfl
  rw [h] at hs
  cases hs

theorem allocateSpan_null (h : c.spans 0 = none) (ha : allocateSpan env n os c = some (r, os', c')) :
    c'.spans 0 = none := by
  simp only [allocateSpan] at ha
  split at ha
  · split at ha
    · cases ha
    · rename_i hs
      split at ha
      · split at ha
        · cases ha
          exact h
        · rename_i hnew
          cases ha
          change Function.update (setNext (Function.update c.spans _ _) _ _) _ _ 0 = none
          rw [Function.update_of_ne (ne_null h hs).symm]
          apply setNext_null
          rw [Function.update_of_ne (newSpan_some hnew).1.symm]
          exact h
      · cases ha
        exact h
  · split at ha
    · cases ha
      exact h
    · split at ha
      · cases ha
        exact h
      · rename_i hnew
        cases ha
        change Function.update c.spans _ _ 0 = none
        rw [Function.update_of_ne (newSpan_some hnew).1.symm]
        exact h

theorem unlink_null (h : c.spans 0 = none) (hu : unlink fuel nx nsp c = some (found, c')) : c'.spans 0 = none := by
  cases found with
  | false =>
      rw [unlink_false_eq hu]
      exact h
  | true =>
      cases h0 : c'.spans 0 with
      | none => rfl
      | some sq =>
          obtain ⟨v, hv⟩ := unlink_true_some hu h0
          rw [h] at hv
          cases hv

theorem merge_null (h : c.spans 0 = none) (hg : merge fuel q n c = some c') : c'.spans 0 = none := by
  rcases merge_cases hg with ⟨-, rfl⟩ | ⟨nx, nsp, -, -, hu | ⟨d, sq, hu, hsq, rfl⟩⟩
  · exact h
  · exact unlink_null h hu
  · have hd := unlink_null h hu
    change Function.update (Function.update d.spans q _) nx none 0 = none
    rw [Function.update_apply]
    split
    · rfl
    · rw [Function.update_of_ne (ne_null hd hsq).symm]
      exact hd

theorem deallocateSpan_null (h : c.spans 0 = none) (hd : deallocateSpan fuel p n c = some c') :
    c'.spans 0 = none := by
  rcases deallocateSpan_cases hd with ⟨-, rfl⟩ | ⟨q, d, sq, -, hg, -, rfl⟩
  · exact h
  · exact setNext_null (merge_null h hg)

theorem deallocateSpan_nonNull (h : NonNull c.freeSpans) (h0 : c.spans 0 = none)
    (hk : ∀ r ∈ spanAt c p, ∀ e ∈ spanAt c (sizeT (p + n * pageSize)), Spares c r.2 e.1 e.2)
    (hd : deallocateSpan fuel p n c = some c') : NonNull c'.freeSpans := by
  cases hq : c.spanMap.find? p with
  | none =>
      simp only [deallocateSpan, hq, Option.some.injEq] at hd
      exact hd ▸ h
  | some q =>
      obtain ⟨sp, hs⟩ := deallocateSpan_living hd hq
      have hq0 := ne_null h0 hs
      obtain ⟨m, hnone, hsome⟩ := deallocateSpan_find? hd hq hs
      intro k
      cases hat : spanAt c (sizeT (p + n * pageSize)) with
      | none =>
          rw [hnone hat k]
          split
          · simpa using hq0
          · exact h k
      | some e =>
          obtain ⟨nx, nsp⟩ := e
          obtain ⟨hfind, -, hempty⟩ := hsome nx nsp hat
          rw [hfind k]
          split
          · simpa using hq0
          · rename_i hkm
            split
            · rename_i hkn
              intro hleft
              rcases hk (q, sp) (by simp [spanAt, hq, hs]) (nx, nsp) hat with hne | ⟨hne, hsize⟩
              · exact hne (Option.some.inj hleft)
              · rw [left, if_neg hne] at hleft
                exact hkm (hkn.trans (hsize.trans (hempty hne (Option.some.inj hleft)).symm))
            · exact h k

theorem step_nonNull {a : Act} {s t : Sys} (hk : Keeps a s) (hs : step a s = some t)
    (h : NonNull s.cache.freeSpans ∧ s.cache.spans 0 = none) : NonNull t.cache.freeSpans ∧ t.cache.spans 0 = none := by
  cases a with
  | allocateSpan n env =>
      obtain ⟨-, -, r, ha, -⟩ := step_allocateSpan hs
      exact ⟨allocateSpan_nonNull h.1 ha, allocateSpan_null h.2 ha⟩
  | deallocateSpan p n fuel =>
      obtain ⟨-, hd, -⟩ := step_deallocateSpan hs
      exact ⟨deallocateSpan_nonNull h.1 h.2 hk hd, deallocateSpan_null h.2 hd⟩

theorem deallocateSpan_spares {space : Nat → Prop} {live : List (Nat × Nat)} {lists : Nat → List Nat}
    {lost : Nat → Prop} (h : Held lost c space live lists) (hm : (p, n) ∈ live)
    (hd : deallocateSpan fuel p n c = some c') (h' : NonNull c'.freeSpans) :
    ∀ r ∈ spanAt c p, ∀ e ∈ spanAt c (sizeT (p + n * pageSize)), Spares c r.2 e.1 e.2 := by
  obtain ⟨q, sp, hq, hs, rfl, -⟩ := h.known _ hm
  obtain ⟨sp', hs', rfl⟩ := h.entry _ _ hq
  obtain rfl : sp' = sp := Option.some.inj (hs'.symm.trans hs)
  rintro r hr ⟨nx, nsp⟩ hat
  obtain rfl : (q, sp') = r := by simpa [spanAt, hq, hs] using hr
  obtain ⟨m, -, hsome⟩ := deallocateSpan_find? hd hq hs
  obtain ⟨hfind, hfound, hempty⟩ := hsome nx nsp hat
  by_contra hno
  simp only [Spares, not_or, not_and, not_not] at hno
  obtain ⟨hleft, hsize⟩ := hno
  have hpages : nsp.numPages = m := by
    by_contra hne
    apply h' nsp.numPages
    rw [hfind, if_neg hne, if_pos rfl, hleft]
  by_cases hhead : heads c.freeSpans nsp.numPages = nx
  · have hsum := hpages.trans (hfound hhead)
    have hns : c.spans nx = some nsp := by
      obtain ⟨nx', -, hns⟩ := Option.bind_eq_some_iff.mp hat
      obtain ⟨nsp', hns, he⟩ := Option.map_eq_some_iff.mp hns
      cases he
      exact hns
    have hpos := h.numPages_pos hs
    have hb := h.extent_bound hs
    have hb' := h.extent_bound hns
    simp only [sizeT, pageSize] at hsum hb hb'
    omega
  · rw [left, if_neg hhead] at hleft
    exact hsize hhead (hpages.trans (hempty hhead hleft))

theorem allocateSpan_total {space : Nat → Prop} {live : List (Nat × Nat)} {lists : Nat → List Nat}
    {lost : Nat → Prop} (h : Held lost c space live lists) (h0 : NonNull c.freeSpans) (n : Nat) (env : Env) (os : Os) :
    allocateSpan env n os c ≠ none := by
  simp only [allocateSpan]
  cases hlb : c.freeSpans.lowerBound n with
  | some e =>
      obtain ⟨k, q⟩ := e
      have hfind := (OrdMap.lowerBound_some hlb).1
      have hhead : heads c.freeSpans k = q := by simp [heads, hfind]
      have hq : heads c.freeSpans k ≠ 0 := by
        rw [hhead]
        rintro rfl
        exact h0 k hfind
      obtain ⟨t, ht, -⟩ := h.owned.pop hq
      obtain ⟨sp, hs, -⟩ := h.sized k q (by simp [ht, hhead])
      simp only [hs]
      split
      · split <;> simp
      · simp
  | none =>
      simp only
      split
      · simp
      · split <;> simp

/-- In every run whose steps meet the condition no list is null, and where no list
is null the next step leaves none null exactly when it meets the condition. -/
theorem free_lists_nonnull (s : Sys) :
    (Reachable start step Keeps s → NonNull s.cache.freeSpans) ∧
    (Reachable start step Fits s → NonNull s.cache.freeSpans →
      (∀ n env, s.cache.allocateSpan env n s.os ≠ none) ∧
      ∀ a t, step a s = some t → (NonNull t.cache.freeSpans ↔ Keeps a s)) := by
  constructor
  · intro h
    refine (Reachable.invariant ?_ (fun a s t ih hc hs => step_nonNull hc hs ih) h).1
    rintro s ⟨-, hc, -⟩
    rw [hc]
    exact ⟨by simp [NonNull, PageCache.initial], rfl⟩
  · intro h hn
    obtain ⟨lost, space, lists, hheld, -⟩ := reachable_tracked h
    refine ⟨fun n env => allocateSpan_total hheld hn n env s.os, fun a t hs => ?_⟩
    refine ⟨fun ht => ?_, fun hk => (step_nonNull hk hs ⟨hn, hheld.null⟩).1⟩
    cases a with
    | allocateSpan n env => exact trivial
    | deallocateSpan p n fuel =>
        obtain ⟨hm, hd, -⟩ := step_deallocateSpan hs
        exact deallocateSpan_spares hheld hm hd ht

theorem free_lists_nonnull_equal_sizes :
    ∃ s, Reachable start step Keeps s ∧ s.live = [(12288, 2)] ∧ NonNull s.cache.freeSpans ∧
      ∀ n env, s.cache.allocateSpan env n s.os ≠ none := by
  have hrun : (run (guarded step (fun a s => Keeps a s ∧ Fits a s)) [.allocateSpan 2 ⟨some 4096, some 1⟩,
      .allocateSpan 2 ⟨some 12288, some 2⟩, .deallocateSpan 4096 2 0] blank).map Sys.live = some [(12288, 2)] := by
    decide +kernel
  obtain ⟨s, hr, hlive⟩ := reachable_of_run start hrun ⟨rfl, rfl, rfl⟩
  have hk : Reachable start step Keeps s := hr.weaken (fun _ _ => And.left)
  have hn := (free_lists_nonnull s).1 hk
  exact ⟨s, hk, hlive, hn, ((free_lists_nonnull s).2 (hr.weaken (fun _ _ => And.right)) hn).1⟩

/-- The span behind is allocated, and looking for it makes a null list of its size. -/
theorem allocated_neighbour_leaves_null :
    ∃ s, Reachable start step Fits s ∧ ¬ NonNull s.cache.freeSpans ∧
      s.cache.allocateSpan ⟨none, none⟩ 2 s.os = none := by
  have hrun : (run (guarded step Fits) [.allocateSpan 1 ⟨some 4096, some 1⟩, .allocateSpan 2 ⟨some 8192, some 2⟩,
      .deallocateSpan 4096 1 0] blank).map (fun s => (s.cache.freeSpans.find? 2,
        (s.cache.allocateSpan ⟨none, none⟩ 2 s.os).isNone)) = some (some 0, true) := by decide +kernel
  obtain ⟨s, hs, he⟩ := Option.map_eq_some_iff.mp hrun
  simp only [Prod.mk.injEq, Option.isNone_iff_eq_none] at he
  exact ⟨s, Reachable.run (.start ⟨rfl, rfl, rfl⟩) _ hs, fun hn => hn 2 he.1, he.2⟩

end null

section behind

variable {c c' : PageCache} {space : Nat → Prop} {live : List (Nat × Nat)} {lists : Nat → List Nat}
  {lost : Nat → Prop} {p n q r x fuel : Nat} {sp : Span}

def FreeAt (c : PageCache) (r x : Nat) : Prop := ∃ sr, Free c r sr ∧ sr.pageAddr = x

/-- A free span starts at the address, and none where it ends. -/
def Coalesced (c : PageCache) (p : Nat) : Prop :=
  ∃ q sp, Free c q sp ∧ sp.pageAddr = p ∧ ∀ r, ¬ FreeAt c r (p + sp.numPages * pageSize)

/-- A free span behind is the one that spanMap records there, and none is free
where that one ends. -/
def Joins (c : PageCache) (p n : Nat) : Prop :=
  ∀ r sr, Free c r sr → sr.pageAddr = p + n * pageSize →
    c.spanMap.find? sr.pageAddr = some r ∧ ∀ r', ¬ FreeAt c r' (sr.pageAddr + sr.numPages * pageSize)

theorem freeAt_iff (h : Held lost c space live lists) :
    FreeAt c r x ↔ (∃ l, extents c.spans r = some (x, l)) ∧ ∃ k, r ∈ lists k := by
  constructor
  · rintro ⟨sr, hfree, rfl⟩
    obtain ⟨hs, hm⟩ := (free_iff h).mp hfree
    exact ⟨⟨_, Held.extent_some hs⟩, _, hm⟩
  · rintro ⟨⟨l, hl⟩, k, hm⟩
    obtain ⟨sr, hs, hk⟩ := h.sized k r hm
    rw [Held.extent_some hs] at hl
    exact ⟨sr, (free_iff h).mpr ⟨hs, hk ▸ hm⟩, (Prod.mk.inj (Option.some.inj hl)).1⟩

theorem coalesced_of_extent (h : Held lost c space live lists) {m k : Nat}
    (hq : extents c.spans q = some (p, m * pageSize)) (hm : q ∈ lists k) :
    Coalesced c p ↔ ∀ r, ¬ FreeAt c r (p + m * pageSize) := by
  obtain ⟨sp, hs, hk⟩ := h.sized k q hm
  rw [Held.extent_some hs] at hq
  obtain ⟨hp, hsize⟩ := Prod.mk.inj (Option.some.inj hq)
  constructor
  · rintro ⟨q', sp', hfree, ha, hnone⟩
    obtain rfl := h.span_inj hfree.1 hs (ha.trans hp.symm)
    obtain rfl : sp' = sp := Option.some.inj (hfree.1.symm.trans hs)
    rw [← hsize]
    exact hnone
  · intro hnone
    refine ⟨q, sp, (free_iff h).mpr ⟨hs, hk ▸ hm⟩, hp, ?_⟩
    rw [hsize]
    exact hnone

theorem freeAt_pushed {d : PageCache} {lists' : Nat → List Nat} {m : Nat}
    (h : Held lost c' space live (Function.update lists' m (q :: lists' m)))
    (hext : extents c'.spans = extents d.spans) (hr : r ≠ q) :
    FreeAt c' r x ↔ (∃ l, extents d.spans r = some (x, l)) ∧ ∃ k, r ∈ lists' k := by
  rw [freeAt_iff h, hext]
  refine and_congr_right (fun _ => exists_congr (fun k => ?_))
  rw [Owned.mem_push]
  exact or_iff_right (fun he => hr he.2)

theorem coalesced_iff (h : Held lost c space live lists) (hm : (p, n) ∈ live)
    (hd : deallocateSpan fuel p n c = some c') : Coalesced c' p ↔ Joins c p n := by
  obtain ⟨q, sp, d, lists', m, hs, rfl, rfl, hl, hl', hext, hq, h', hmerged⟩ := deallocateSpan_spec h hm hd
  have hpos := h.numPages_pos hs
  have hself (y : Nat) : ¬ FreeAt c q y := fun hfree => by
    obtain ⟨-, k, hk⟩ := (freeAt_iff h).mp hfree
    exact hl k hk
  have hmpos : 0 < m := by
    have hpos := h'.tiling.pos q _ hq
    simp only [pageSize] at hpos
    omega
  have hend : ¬ FreeAt c' q (sp.pageAddr + m * pageSize) := by
    intro hfree
    obtain ⟨⟨l, hl⟩, -⟩ := (freeAt_iff h').mp hfree
    rw [hq] at hl
    have he := (Prod.mk.inj (Option.some.inj hl)).1
    simp only [pageSize] at he
    omega
  rw [coalesced_of_extent h' hq (k := m) (by simp)]
  cases hmerged with
  | apart hpages hlists hextd hmiss =>
      subst hpages hlists
      have hsame (r : Nat) : FreeAt c' r (sp.pageAddr + sp.numPages * pageSize) ↔
          FreeAt c r (sp.pageAddr + sp.numPages * pageSize) := by
        by_cases hr : r = q
        · subst hr
          exact iff_of_false hend (hself _)
        · rw [freeAt_pushed h' hext hr, hextd, freeAt_iff h]
      constructor
      · intro hnone r sr hfree ha
        exact absurd ((hsame r).mpr ⟨sr, hfree, ha⟩) (hnone r)
      · intro hjoin r hfree
        obtain ⟨sr, hfree, ha⟩ := (hsame r).mp hfree
        have hfind := (hjoin r sr hfree ha).1
        rw [ha] at hfind
        exact hmiss r hfind _ ((free_iff h).mp hfree).2
  | joined nx nsp hfind hnx hfree hnext hpages hlists hextd =>
      subst hpages
      have haddr : sp.pageAddr + (sp.numPages + nsp.numPages) * pageSize = nsp.pageAddr + nsp.numPages * pageSize := by
        rw [hnext, Nat.add_mul, Nat.add_assoc]
      rw [haddr] at hend ⊢
      have hnpos := h.numPages_pos hnx
      have hgone : ¬ FreeAt c nx (nsp.pageAddr + nsp.numPages * pageSize) := by
        rintro ⟨sr, hfree, ha⟩
        obtain rfl : sr = nsp := Option.some.inj (hfree.1.symm.trans hnx)
        simp only [pageSize] at ha
        omega
      have hsame (r : Nat) : FreeAt c' r (nsp.pageAddr + nsp.numPages * pageSize) ↔
          FreeAt c r (nsp.pageAddr + nsp.numPages * pageSize) := by
        by_cases hr : r = q
        · subst hr
          exact iff_of_false hend (hself _)
        · by_cases hrn : r = nx
          · subst hrn
            refine iff_of_false (fun hfree => ?_) hgone
            obtain ⟨-, k, hk⟩ := (freeAt_pushed h' hext hr).mp hfree
            exact ((hlists k r).mp hk).2 rfl
          · rw [freeAt_pushed h' hext hr, hextd r hr hrn, freeAt_iff h]
            refine and_congr_right (fun _ => exists_congr (fun k => ?_))
            rw [hlists k r]
            exact and_iff_left hrn
      constructor
      · intro hnone r sr hr ha
        obtain rfl := h.span_inj hr.1 hnx (ha.trans hnext.symm)
        obtain rfl : sr = nsp := Option.some.inj (hr.1.symm.trans hnx)
        exact ⟨hfind, fun r' hr' => hnone r' ((hsame r').mpr hr')⟩
      · intro hjoin r hr
        obtain ⟨k, hk⟩ := hfree
        obtain ⟨sr, hsr, rfl⟩ := h.sized k nx hk
        obtain rfl : sr = nsp := Option.some.inj (hsr.symm.trans hnx)
        exact (hjoin nx sr ((free_iff h).mpr ⟨hnx, hk⟩) hnext).2 r ((hsame r).mp hr)

theorem deallocateSpan_total (h : Held lost c space live lists) (hm : (p, n) ∈ live) :
    ∃ N, ∀ fuel, N ≤ fuel → ∃ c', deallocateSpan fuel p n c = some c' := by
  obtain ⟨q, sp, hq, hs, rfl, hl⟩ := h.known _ hm
  simp only at hq
  cases hnx : c.spanMap.find? (sizeT (p + sp.numPages * pageSize)) with
  | none =>
      refine ⟨0, fun fuel _ => ?_⟩
      simp only [deallocateSpan, merge, hq, hnx, hs]
      exact ⟨_, rfl⟩
  | some nx =>
      obtain ⟨nsp, hns, -⟩ := h.entry _ _ hnx
      refine ⟨(lists nsp.numPages).length, fun fuel hf => ?_⟩
      obtain ⟨⟨found, d⟩, hu⟩ := h.unlink_total nx hf
      cases found with
      | false =>
          have hsd : d.spans q = some sp := by rw [unlink_false_eq hu, hs]
          simp only [deallocateSpan, merge, hq, hnx, hns, hu, hsd]
          exact ⟨_, rfl⟩
      | true =>
          obtain ⟨k, u, t, hk, -⟩ := h.unlink_true hns hu
          have hqn : q ≠ nx := by
            rintro rfl
            exact hl k (by simp [hk])
          obtain ⟨v, hv⟩ := unlink_true_of_some hu hs
          simp only [deallocateSpan, merge, hq, hnx, hns, hu, hv, Function.update_of_ne hqn, Function.update_self]
          exact ⟨_, rfl⟩

/-- In every run whose requests fit, freeing a span completes, and it coalesces exactly when
the free span behind is recorded and nothing free follows that one. -/
theorem coalesces_iff {s : Sys} (h : Reachable start step Fits s) {p n : Nat} (hm : (p, n) ∈ s.live) :
    (∃ N, ∀ fuel, N ≤ fuel → ∃ t, step (.deallocateSpan p n fuel) s = some t) ∧
      ∀ fuel t, step (.deallocateSpan p n fuel) s = some t → (Coalesced t.cache p ↔ Joins s.cache p n) := by
  obtain ⟨lost, space, lists, hheld, -⟩ := reachable_tracked h
  constructor
  · obtain ⟨N, hN⟩ := deallocateSpan_total hheld hm
    refine ⟨N, fun fuel hf => ?_⟩
    obtain ⟨c', hc⟩ := hN fuel hf
    exact ⟨⟨s.os, c', s.live.erase (p, n)⟩, by simp only [step, if_pos hm, hc, Option.map_some]⟩
  · intro fuel t hs
    obtain ⟨-, hd, -⟩ := step_deallocateSpan hs
    exact coalesced_iff hheld hm hd

theorem coalesces_with_freed_neighbour :
    ∃ s fuel t, Reachable start step Fits s ∧ s.live = [(4096, 1)] ∧
      step (.deallocateSpan 4096 1 fuel) s = some t ∧ Coalesced t.cache 4096 := by
  have hrun : (run (guarded step Fits) [.allocateSpan 1 ⟨some 4096, some 1⟩, .allocateSpan 2 ⟨some 8192, some 2⟩,
      .deallocateSpan 8192 2 0] blank).map (fun s => (s.live, s.cache.freeSpans.entries, s.cache.spanMap.find? 8192,
        (s.cache.spans 2).map (fun sp => [sp.pageAddr, sp.numPages, sp.next]))) =
      some ([(4096, 1)], [(2, 2)], some 2, some [8192, 2, 0]) := by decide +kernel
  obtain ⟨s, hr, he⟩ := reachable_of_run start hrun ⟨rfl, rfl, rfl⟩
  simp only [Prod.mk.injEq] at he
  obtain ⟨hlive, hentries, hfind, hspan⟩ := he
  obtain ⟨sp, hsp, he⟩ := Option.map_eq_some_iff.mp hspan
  simp only [List.cons.injEq, and_true] at he
  obtain ⟨ha, hn, hnext⟩ := he
  have honly (r : Nat) (sr : Span) (hfree : Free s.cache r sr) : r = 2 ∧ sr = sp := by
    obtain ⟨hsr, k, h, l, hf, hc, hm⟩ := hfree
    have hmem := OrdMap.mem_entries.mpr hf
    simp only [hentries, List.mem_singleton, Prod.mk.injEq] at hmem
    obtain ⟨-, rfl⟩ := hmem
    have hl : Chain (nextOf s.cache.spans) 2 [2] := ⟨rfl, by decide, by simp [nextOf_some hsp, hnext]⟩
    rw [hc.unique hl, List.mem_singleton] at hm
    subst hm
    exact ⟨rfl, Option.some.inj (hsr.symm.trans hsp)⟩
  have hjoins : Joins s.cache 4096 1 := by
    intro r sr hfree _
    obtain ⟨rfl, rfl⟩ := honly r sr hfree
    refine ⟨ha ▸ hfind, ?_⟩
    rintro r' ⟨sr', hfree', ha'⟩
    obtain ⟨-, rfl⟩ := honly r' sr' hfree'
    simp only [hn, pageSize] at ha'
    omega
  obtain ⟨⟨N, hN⟩, hiff⟩ := coalesces_iff hr (p := 4096) (n := 1) (by simp [hlive])
  obtain ⟨t, ht⟩ := hN N le_rfl
  exact ⟨s, N, t, hr, hlive, ht, (hiff N t ht).mpr hjoins⟩

theorem remainder_not_coalesced :
    ∃ s fuel t, Reachable start step Fits s ∧ s.live = [(4096, 1)] ∧
      step (.deallocateSpan 4096 1 fuel) s = some t ∧ ¬ Coalesced t.cache 4096 := by
  have hrun : (run (guarded step Fits) [.allocateSpan 3 ⟨some 4096, some 1⟩, .deallocateSpan 4096 3 0,
      .allocateSpan 1 ⟨none, some 2⟩] blank).map (fun s => (s.live, s.cache.freeSpans.find? 2,
        s.cache.spanMap.find? 8192, (s.cache.spans 2).map (fun sp => (sp.pageAddr, sp.next)))) =
      some ([(4096, 1)], some 2, none, some (8192, 0)) := by decide +kernel
  obtain ⟨s, hr, he⟩ := reachable_of_run start hrun ⟨rfl, rfl, rfl⟩
  simp only [Prod.mk.injEq] at he
  obtain ⟨hlive, hhead, hfind, hspan⟩ := he
  obtain ⟨sp, hsp, he⟩ := Option.map_eq_some_iff.mp hspan
  obtain ⟨ha, hn⟩ := Prod.mk.inj he
  obtain ⟨lost, space, lists, hheld, -⟩ := reachable_tracked hr
  have hm : (4096, 1) ∈ s.live := by simp [hlive]
  obtain ⟨N, hN⟩ := deallocateSpan_total hheld hm
  obtain ⟨c, hd⟩ := hN N le_rfl
  have hfree : Free s.cache 2 sp :=
    ⟨hsp, 2, 2, [2], hhead, ⟨rfl, by decide, by simp [nextOf_some hsp, hn]⟩, by simp⟩
  refine ⟨s, N, ⟨s.os, c, s.live.erase (4096, 1)⟩, hr, hlive, by simp [step, hm, hd], fun hc => ?_⟩
  have hrec := ((coalesced_iff hheld hm hd).mp hc 2 sp hfree ha).1
  rw [ha, hfind] at hrec
  cases hrec

end behind

end LearnNote.Memory.Coalescing
