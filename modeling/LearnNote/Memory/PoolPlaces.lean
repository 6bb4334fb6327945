import LearnNote.Lib.LockTable
import LearnNote.Memory.LeveledMemoryPool
import LearnNote.Memory.Shelf

namespace LearnNote.Memory

open Lib Linked Extents SizeClass

inductive Place
  | cache (t index : Nat)
  | central (index : Nat)
  | transit (t : Nat)
deriving DecidableEq

namespace Pc

def lock : Pc → Option Nat
  | .fetchSpan _ index => some index
  | .fetchDone _ index _ => some index
  | _ => none

def request : Pc → Option (Nat × Nat)
  | .fetchRange size index => some (size, index)
  | .fetchSpan size index => some (size, index)
  | .fetchDone size index _ => some (size, index)
  | .fetched size index _ => some (size, index)
  | _ => none

def block : Pc → Nat
  | .fetched _ _ start => start
  | .returnRange start _ _ => start
  | _ => 0

def index : Pc → Nat
  | .fetched _ index _ => index
  | .returnRange _ _ index => index
  | _ => 0

def span : Pc → Option (Nat × Nat)
  | .fetchDone _ index (.ptr p) => if p = 0 then none else some (p, LeveledMemoryPool.spanBytes index)
  | _ => none

end Pc

section heads

variable {thread : Nat → ThreadCache} {central : Nat → Nat} {pc : Nat → Pc} {t i v : Nat}
  {tc : ThreadCache} {p : Pc}

def headOf (thread : Nat → ThreadCache) (central : Nat → Nat) (pc : Nat → Pc) : Place → Nat
  | .cache t index => (thread t).freeList index
  | .central index => central index
  | .transit t => (pc t).block

def classOf (pc : Nat → Pc) : Place → Nat
  | .cache _ index => index
  | .central index => index
  | .transit t => (pc t).index

theorem headOf_cache (h : tc.freeList = Function.update (thread t).freeList i v) :
    headOf (Function.update thread t tc) central pc =
      Function.update (headOf thread central pc) (.cache t i) v := by
  funext k
  cases k with
  | cache u j =>
      by_cases hu : u = t
      · subst hu
        by_cases hj : j = i
        · subst hj; simp [headOf, h]
        · simp [headOf, h, hj]
      · simp [headOf, hu]
  | central j => simp [headOf]
  | transit u => simp [headOf]

theorem headOf_cache_eq (h : tc.freeList = (thread t).freeList) :
    headOf (Function.update thread t tc) central pc = headOf thread central pc := by
  have hu : tc.freeList = Function.update (thread t).freeList 0 ((thread t).freeList 0) :=
    h.trans (Function.update_eq_self _ _).symm
  rw [headOf_cache hu]
  exact Function.update_eq_self (Place.cache t 0) _

theorem headOf_central :
    headOf thread (Function.update central i v) pc =
      Function.update (headOf thread central pc) (.central i) v := by
  funext k
  cases k with
  | cache u j => simp [headOf]
  | central j =>
      by_cases hj : j = i
      · subst hj; simp [headOf]
      · simp [headOf, hj]
  | transit u => simp [headOf]

theorem headOf_transit :
    headOf thread central (Function.update pc t p) =
      Function.update (headOf thread central pc) (.transit t) p.block := by
  funext k
  cases k with
  | cache u j => simp [headOf]
  | central j => simp [headOf]
  | transit u =>
      by_cases hu : u = t
      · subst hu; simp [headOf]
      · simp [headOf, hu]

theorem classOf_transit :
    classOf (Function.update pc t p) = Function.update (classOf pc) (.transit t) p.index := by
  funext k
  cases k with
  | cache u j => simp [classOf]
  | central j => simp [classOf]
  | transit u =>
      by_cases hu : u = t
      · subst hu; simp [classOf]
      · simp [classOf, hu]

end heads

def extent (b : Nat × Nat) : Nat × Nat := (b.1, blockSize b.2)

theorem extent_self (b : Nat × Nat) : Covers (extent b) b.1 := by
  refine ⟨le_rfl, ?_⟩
  simp only [extent, blockSize, alignment]
  omega

/-- Blocks are carved inside spans, spans lie in what the system mapped, and
neither overlap. -/
structure Ground (carved spans mapped : List (Nat × Nat)) : Prop where
  carved_apart : carved.Pairwise (fun b c => Apart (extent b) (extent c))
  carved_span : ∀ b ∈ carved, ∃ r ∈ spans, Within (extent b) r
  spans_apart : spans.Pairwise Apart
  spans_mapped : ∀ r ∈ spans, r ∈ mapped
  spans_pos : ∀ r ∈ spans, r.1 ≠ 0
  carved_class : ∀ b ∈ carved, b.2 < freeListSize

namespace Ground

variable {carved spans mapped : List (Nat × Nat)}

theorem empty : Ground [] [] [] := ⟨.nil, by simp, .nil, by simp, by simp, by simp⟩

theorem apart (h : Ground carved spans mapped) {b c : Nat × Nat} (hb : b ∈ carved) (hc : c ∈ carved)
    (hne : b ≠ c) : Apart (extent b) (extent c) := by
  have hs : Std.Symm (fun b c : Nat × Nat => Apart (extent b) (extent c)) := ⟨fun _ _ h => h.symm⟩
  exact h.carved_apart.forall hb hc hne

theorem span_apart (h : Ground carved spans mapped) {r s : Nat × Nat} (hr : r ∈ spans) (hs : s ∈ spans)
    (hne : r ≠ s) : Apart r s := by
  have hs' : Std.Symm Apart := ⟨fun _ _ h => h.symm⟩
  exact h.spans_apart.forall hr hs hne

theorem block_pos (h : Ground carved spans mapped) {b : Nat × Nat} (hb : b ∈ carved) : b.1 ≠ 0 := by
  obtain ⟨r, hr, hw⟩ := h.carved_span b hb
  have := h.spans_pos r hr
  simp only [Within, extent] at hw
  omega

/-- Different blocks start at different addresses, so an address names one block. -/
theorem block_unique (h : Ground carved spans mapped) {b c : Nat × Nat} (hb : b ∈ carved) (hc : c ∈ carved)
    (he : b.1 = c.1) : b = c := by
  by_contra hne
  exact (h.apart hb hc hne).not_covers (extent_self b) (he ▸ extent_self c)

theorem map (h : Ground carved spans mapped) {r : Nat × Nat} (h0 : r.1 ≠ 0)
    (hr : ∀ s ∈ mapped, Apart r s) : Ground carved (r :: spans) (r :: mapped) := by
  refine ⟨h.carved_apart, ?_, ?_, ?_, ?_, h.carved_class⟩
  · intro b hb
    obtain ⟨s, hs, hw⟩ := h.carved_span b hb
    exact ⟨s, List.mem_cons_of_mem _ hs, hw⟩
  · exact List.pairwise_cons.mpr ⟨fun s hs => hr s (h.spans_mapped s hs), h.spans_apart⟩
  · intro s hs
    rcases List.mem_cons.mp hs with rfl | hs
    · exact List.mem_cons_self
    · exact List.mem_cons_of_mem _ (h.spans_mapped s hs)
  · intro s hs
    rcases List.mem_cons.mp hs with rfl | hs
    · exact h0
    · exact h.spans_pos s hs

theorem leak (h : Ground carved spans mapped) (r : Nat × Nat) : Ground carved spans (r :: mapped) :=
  ⟨h.carved_apart, h.carved_span, h.spans_apart, fun s hs => List.mem_cons_of_mem _ (h.spans_mapped s hs),
    h.spans_pos, h.carved_class⟩

theorem carve (h : Ground carved spans mapped) {new : List (Nat × Nat)} {r : Nat × Nat} (hr : r ∈ spans)
    (hnew : new.Pairwise (fun b c => Apart (extent b) (extent c))) (hw : ∀ b ∈ new, Within (extent b) r)
    (hold : ∀ b ∈ carved, Apart (extent b) r) (hclass : ∀ b ∈ new, b.2 < freeListSize) :
    Ground (new ++ carved) spans mapped := by
  refine ⟨?_, ?_, h.spans_apart, h.spans_mapped, h.spans_pos, ?_⟩
  · refine List.pairwise_append.mpr ⟨hnew, h.carved_apart, ?_⟩
    intro b hb c hc
    exact (hw b hb).apart (hold c hc).symm
  · intro b hb
    rcases List.mem_append.mp hb with hb | hb
    · exact ⟨r, hr, hw b hb⟩
    · exact h.carved_span b hb
  · intro b hb
    rcases List.mem_append.mp hb with hb | hb
    · exact hclass b hb
    · exact h.carved_class b hb

end Ground

/-- The spans that threads have got and not yet carved: each is still as the
system gave it, and belongs to one thread. -/
structure Spare (pc : Nat → Pc) (m : Words) (carved spans : List (Nat × Nat)) : Prop where
  obtained : ∀ t r, (pc t).span = some r → r ∈ spans
  zero : ∀ t r a, (pc t).span = some r → Covers r a → m a = 0
  apart : ∀ t r, (pc t).span = some r → ∀ b ∈ carved, Apart (extent b) r
  sole : ∀ t u r, (pc t).span = some r → (pc u).span = some r → t = u

namespace Spare

variable {pc : Nat → Pc} {m m' : Words} {carved spans mapped : List (Nat × Nat)} {t : Nat} {p : Pc}

theorem span_update (hp : p.span = none) {u : Nat} {r : Nat × Nat}
    (hu : (Function.update pc t p u).span = some r) : u ≠ t ∧ (pc u).span = some r := by
  by_cases hut : u = t
  · subst hut
    simp [hp] at hu
  · exact ⟨hut, by simpa [hut] using hu⟩

theorem give (h : Spare pc m carved spans) (hp : p.span = none) :
    Spare (Function.update pc t p) m carved spans :=
  ⟨fun u r hu => h.obtained u r (span_update hp hu).2, fun u r a hu => h.zero u r a (span_update hp hu).2,
    fun u r hu => h.apart u r (span_update hp hu).2,
    fun u v r hu hv => h.sole u v r (span_update hp hu).2 (span_update hp hv).2⟩

theorem store (h : Spare pc m carved spans)
    (hm : ∀ a, m' a = m a ∨ ∃ b ∈ carved, Covers (extent b) a) : Spare pc m' carved spans := by
  refine ⟨h.obtained, ?_, h.apart, h.sole⟩
  intro u r a hu ha
  rcases hm a with he | ⟨b, hb, hc⟩
  · rw [he]
    exact h.zero u r a hu ha
  · exact absurd ha ((h.apart u r hu b hb).not_covers hc)

theorem map (h : Spare pc m carved spans) (hg : Ground carved spans mapped) {r : Nat × Nat}
    (hr : ∀ s ∈ mapped, Apart r s) : Spare pc (memset m r.1 r.2) carved spans := by
  refine ⟨h.obtained, ?_, h.apart, h.sole⟩
  intro u s a hu ha
  have hap := hr s (hg.spans_mapped s (h.obtained u s hu))
  have ha' := hap.symm.not_covers ha
  unfold memset
  split
  · rfl
  · exact h.zero u s a hu ha

theorem take (h : Spare pc m carved spans) (hg : Ground carved spans mapped) {r : Nat × Nat} (hp : p.span = some r)
    (hpos : 0 < r.2) (hr : ∀ s ∈ mapped, Apart r s) (hz : ∀ a, Covers r a → m a = 0) :
    Spare (Function.update pc t p) m carved (r :: spans) := by
  have hu : ∀ u s, (Function.update pc t p u).span = some s → (u = t ∧ s = r) ∨ (u ≠ t ∧ (pc u).span = some s) := by
    intro u s hs
    by_cases hut : u = t
    · subst hut
      exact .inl ⟨rfl, by simpa [hp, eq_comm] using hs⟩
    · exact .inr ⟨hut, by simpa [hut] using hs⟩
  have hne : ∀ u, (pc u).span ≠ some r := by
    intro u hs
    have hap := hr r (hg.spans_mapped r (h.obtained u r hs))
    unfold Apart at hap
    omega
  refine ⟨?_, ?_, ?_, ?_⟩
  · intro u s hs
    rcases hu u s hs with ⟨-, rfl⟩ | ⟨-, hs⟩
    · exact List.mem_cons_self
    · exact List.mem_cons_of_mem _ (h.obtained u s hs)
  · intro u s a hs ha
    rcases hu u s hs with ⟨-, rfl⟩ | ⟨-, hs⟩
    · exact hz a ha
    · exact h.zero u s a hs ha
  · intro u s hs b hb
    rcases hu u s hs with ⟨-, rfl⟩ | ⟨-, hs⟩
    · obtain ⟨w, hw, hin⟩ := hg.carved_span b hb
      exact hin.apart (hr w (hg.spans_mapped w hw)).symm
    · exact h.apart u s hs b hb
  · intro u v s hs hs'
    rcases hu u s hs with ⟨hut, hr'⟩ | ⟨-, hs⟩ <;> rcases hu v s hs' with ⟨hvt, hr''⟩ | ⟨-, hs'⟩
    · rw [hut, hvt]
    · exact absurd (hr' ▸ hs') (hne v)
    · exact absurd (hr'' ▸ hs) (hne u)
    · exact h.sole u v s hs hs'

theorem carve (h : Spare pc m carved spans) (hg : Ground carved spans mapped) {r : Nat × Nat}
    (hr : (pc t).span = some r) (hp : p.span = none) {new : List (Nat × Nat)}
    (hw : ∀ b ∈ new, Within (extent b) r) (hm : ∀ a, m' a = m a ∨ Covers r a) :
    Spare (Function.update pc t p) m' (new ++ carved) spans := by
  have hother : ∀ u s, (Function.update pc t p u).span = some s → (pc u).span = some s ∧ Apart r s := by
    intro u s hs
    obtain ⟨hut, hs⟩ := span_update hp hs
    refine ⟨hs, hg.span_apart (h.obtained t r hr) (h.obtained u s hs) ?_⟩
    rintro rfl
    exact hut (h.sole u t _ hs hr)
  refine ⟨fun u s hs => h.obtained u s (hother u s hs).1, ?_, ?_,
    fun u v s hs hs' => h.sole u v s (hother u s hs).1 (hother v s hs').1⟩
  · intro u s a hs ha
    obtain ⟨hs, hap⟩ := hother u s hs
    rcases hm a with he | hc
    · rw [he]
      exact h.zero u s a hs ha
    · exact absurd ha (hap.not_covers hc)
  · intro u s hs b hb
    obtain ⟨hs, hap⟩ := hother u s hs
    rcases List.mem_append.mp hb with hb | hb
    · exact (hw b hb).apart hap
    · exact h.apart u s hs b hb

end Spare

end LearnNote.Memory
