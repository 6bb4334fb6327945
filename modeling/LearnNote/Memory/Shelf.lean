import LearnNote.Lib.Custody
import LearnNote.Lib.Linked
import LearnNote.Memory.Common

namespace LearnNote.Memory

open Lib Linked SizeClass

/-- The blocks of a pool sorted by where they are. Every block on a list was
carved for the class of that list, every block a caller holds for the class of
its request, and no block is in two places. -/
structure Shelf {ι : Type} (m : Words) (head cls : ι → Nat) (held carved : List (Nat × Nat))
    (lists : ι → List Nat) : Prop where
  owned : Owned m head lists
  listed : ∀ i b, b ∈ lists i → (b, cls i) ∈ carved
  once : (held.map Prod.fst).Nodup
  off : ∀ r ∈ held, ∀ i, r.1 ∉ lists i
  given : ∀ r ∈ held, (r.1, getIndex r.2) ∈ carved

namespace Shelf

variable {ι : Type} {m m' : Words} {head cls cls' : ι → Nat} {held carved : List (Nat × Nat)}
  {lists : ι → List Nat} {i j : ι} {p q size : Nat}

theorem congr (h : Shelf m head cls held carved lists) (hm : ∀ i, ∀ b ∈ lists i, m' b = m b) :
    Shelf m' head cls held carved lists :=
  ⟨h.owned.congr hm, h.listed, h.once, h.off, h.given⟩

theorem relabel (h : Shelf m head cls held carved lists) (hc : ∀ i, lists i ≠ [] → cls' i = cls i) :
    Shelf m head cls' held carved lists := by
  refine ⟨h.owned, ?_, h.once, h.off, h.given⟩
  intro i b hb
  rw [hc i (List.ne_nil_of_mem hb)]
  exact h.listed i b hb

theorem mem_mono (h : Shelf m head cls held carved lists) {carved' : List (Nat × Nat)}
    (hc : ∀ b ∈ carved, b ∈ carved') : Shelf m head cls held carved' lists :=
  ⟨h.owned, fun i b hb => hc _ (h.listed i b hb), h.once, h.off, fun r hr => hc _ (h.given r hr)⟩

theorem head_mem (h : Shelf m head cls held carved lists) (hi : head i ≠ 0) : head i ∈ lists i := by
  obtain ⟨t, ht, -⟩ := (h.owned.chain i).exists_cons hi
  simp [ht]

variable [DecidableEq ι]

theorem give (h : Shelf m head cls held carved lists) (hi : head i ≠ 0) (hc : cls i = getIndex size) :
    ∃ t, lists i = head i :: t ∧ Shelf m (Function.update head i (m (head i))) cls
      ((head i, size) :: held) carved (Function.update lists i t) := by
  obtain ⟨t, ht, hown⟩ := h.owned.pop hi
  have hmem : head i ∈ lists i := h.head_mem hi
  have hsub : ∀ k b, b ∈ Function.update lists i t k → b ∈ lists k := by
    intro k b hin
    rcases mem_update_place hin with ⟨rfl, hb⟩ | ⟨-, hb⟩
    · rw [ht]
      exact List.mem_cons_of_mem _ hb
    · exact hb
  refine ⟨t, ht, hown, fun k b hb => h.listed k b (hsub k b hb), ?_, ?_, ?_⟩
  · refine List.nodup_cons.mpr ⟨?_, h.once⟩
    intro hm
    obtain ⟨r, hr, he⟩ := List.mem_map.mp hm
    exact h.off r hr i (he ▸ hmem)
  · intro r hr k hin
    rcases List.mem_cons.mp hr with rfl | hr
    · rcases mem_update_place hin with ⟨rfl, hb⟩ | ⟨hk, hb⟩
      · have hn := (h.owned.chain k).nodup
        rw [ht] at hn
        exact (List.nodup_cons.mp hn).1 hb
      · exact hk (h.owned.apart k i _ hb hmem)
    · exact h.off r hr k (hsub k _ hin)
  · intro r hr
    rcases List.mem_cons.mp hr with rfl | hr
    · simpa [← hc] using h.listed i _ hmem
    · exact h.given r hr

theorem take (h : Shelf m head cls held carved lists) (hp : (p, size) ∈ held) (hp0 : p ≠ 0)
    (hc : cls i = getIndex size) :
    Shelf (Function.update m p (head i)) (Function.update head i p) cls (held.erase (p, size)) carved
      (Function.update lists i (p :: lists i)) := by
  have hnd : held.Nodup := h.once.of_map
  have hsplit : ∀ k b, b ∈ Function.update lists i (p :: lists i) k → (k = i ∧ b = p) ∨ b ∈ lists k := by
    intro k b hin
    rcases mem_update_place hin with ⟨rfl, hb⟩ | ⟨-, hb⟩
    · rcases List.mem_cons.mp hb with rfl | hb
      · exact .inl ⟨rfl, rfl⟩
      · exact .inr hb
    · exact .inr hb
  refine ⟨h.owned.push hp0 (h.off _ hp), ?_, ?_, ?_, fun r hr => h.given r (List.mem_of_mem_erase hr)⟩
  · intro k b hin
    rcases hsplit k b hin with ⟨rfl, rfl⟩ | hb
    · rw [hc]
      exact h.given _ hp
    · exact h.listed k b hb
  · exact h.once.sublist (List.Sublist.map _ List.erase_sublist)
  · intro r hr k hin
    obtain ⟨hne, hr⟩ := hnd.mem_erase_iff.mp hr
    rcases hsplit k _ hin with ⟨-, he⟩ | hb
    · exact hne (List.inj_on_of_nodup_map h.once hr hp he)
    · exact h.off r hr k hb

theorem cut (h : Shelf m head cls held carved lists) {u r : List Nat} (hl : lists i = u ++ q :: r)
    (hij : i ≠ j) (hj : lists j = []) :
    Shelf (Function.update m q 0) (Function.update head j (m q)) (Function.update cls j (cls i)) held carved
      (Function.update (Function.update lists i (u ++ [q])) j r) := by
  have hsplit : ∀ k b, b ∈ Function.update (Function.update lists i (u ++ [q])) j r k →
      (k = j ∧ b ∈ lists i) ∨ (k ≠ j ∧ b ∈ lists k) := by
    intro k b hin
    rcases mem_update_place hin with ⟨rfl, hb⟩ | ⟨hk, hin⟩
    · exact .inl ⟨rfl, by simp [hl, hb]⟩
    · rcases mem_update_place hin with ⟨rfl, hb⟩ | ⟨-, hb⟩
      · refine .inr ⟨hk, ?_⟩
        rw [hl]
        simp only [List.mem_append, List.mem_cons, List.not_mem_nil, or_false] at hb ⊢
        tauto
      · exact .inr ⟨hk, hb⟩
  refine ⟨h.owned.cut hl hij, ?_, h.once, ?_, h.given⟩
  · intro k b hin
    rcases hsplit k b hin with ⟨rfl, hb⟩ | ⟨hk, hb⟩
    · simpa using h.listed i b hb
    · simpa [hk] using h.listed k b hb
  · intro r hr k hin
    rcases hsplit k _ hin with ⟨-, hb⟩ | ⟨-, hb⟩
    · exact h.off r hr i hb
    · exact h.off r hr k hb

/-- A chain is put in front of another list; what follows its last block is dropped. -/
theorem splice (h : Shelf m head cls held carved lists) {u r : List Nat} (hl : lists i = u ++ q :: r)
    (hij : i ≠ j) (hc : cls i = cls j) :
    Shelf (Function.update m q (head j)) (Function.update (Function.update head i 0) j (head i)) cls held
      carved (Function.update (Function.update lists i []) j (u ++ q :: lists j)) := by
  have hsplit : ∀ k b, b ∈ Function.update (Function.update lists i []) j (u ++ q :: lists j) k →
      (k = j ∧ b ∈ lists i) ∨ b ∈ lists k := by
    intro k b hin
    rcases mem_update_place hin with ⟨rfl, hb⟩ | ⟨-, hin⟩
    · rcases List.mem_append.mp hb with hb | hb
      · exact .inl ⟨rfl, by simp [hl, hb]⟩
      · rcases List.mem_cons.mp hb with rfl | hb
        · exact .inl ⟨rfl, by simp [hl]⟩
        · exact .inr hb
    · rcases mem_update_place hin with ⟨rfl, hb⟩ | ⟨-, hb⟩
      · simp at hb
      · exact .inr hb
  refine ⟨h.owned.splice hl hij, ?_, h.once, ?_, h.given⟩
  · intro k b hin
    rcases hsplit k b hin with ⟨rfl, hb⟩ | hb
    · rw [← hc]
      exact h.listed i b hb
    · exact h.listed k b hb
  · intro r hr k hin
    rcases hsplit k _ hin with ⟨-, hb⟩ | hb
    · exact h.off r hr i hb
    · exact h.off r hr k hb

theorem move (h : Shelf m head cls held carved lists) (hi : head i ≠ 0) (hij : i ≠ j) (hj : lists j = []) :
    ∃ t, lists i = head i :: t ∧
      Shelf (Function.update m (head i) 0) (Function.update (Function.update head i (m (head i))) j (head i))
        (Function.update cls j (cls i)) held carved (Function.update (Function.update lists i t) j [head i]) := by
  obtain ⟨t, ht, hown⟩ := h.owned.pop hi
  have hmem : head i ∈ lists i := h.head_mem hi
  have hoff : ∀ k, head i ∉ Function.update lists i t k := by
    intro k hin
    rcases mem_update_place hin with ⟨rfl, hb⟩ | ⟨hk, hb⟩
    · have hn := (h.owned.chain k).nodup
      rw [ht] at hn
      exact (List.nodup_cons.mp hn).1 hb
    · exact hk (h.owned.apart k i _ hb hmem)
  have hsplit : ∀ k b, b ∈ Function.update (Function.update lists i t) j [head i] k →
      (k = j ∧ b = head i) ∨ (k ≠ j ∧ b ∈ lists k) := by
    intro k b hin
    rcases mem_update_place hin with ⟨rfl, hb⟩ | ⟨hk, hin⟩
    · exact .inl ⟨rfl, by simpa using hb⟩
    · rcases mem_update_place hin with ⟨rfl, hb⟩ | ⟨-, hb⟩
      · exact .inr ⟨hk, by rw [ht]; exact List.mem_cons_of_mem _ hb⟩
      · exact .inr ⟨hk, hb⟩
  have hpush := hown.push (j := j) hi hoff
  have hj0 : head j = 0 := by
    have hc := h.owned.chain j
    rwa [hj] at hc
  simp only [Function.update_of_ne hij.symm, hj0, hj] at hpush
  refine ⟨t, ht, hpush, ?_, h.once, ?_, h.given⟩
  · intro k b hin
    rcases hsplit k b hin with ⟨rfl, rfl⟩ | ⟨hk, hb⟩
    · simpa using h.listed i _ hmem
    · simpa [hk] using h.listed k b hb
  · intro r hr k hin
    rcases hsplit k _ hin with ⟨-, he⟩ | ⟨-, hb⟩
    · exact h.off r hr i (he ▸ hmem)
    · exact h.off r hr k hb

theorem add (h : Shelf m head cls held carved lists) {l : List Nat} (hl : Chain m p l)
    (hc : ∀ b ∈ l, (b, cls i) ∈ carved) (hoff : ∀ b ∈ l, ∀ k, b ∉ lists k)
    (hheld : ∀ r ∈ held, r.1 ∉ l) :
    Shelf m (Function.update head i p) cls held carved (Function.update lists i l) := by
  refine ⟨h.owned.place hl hoff, ?_, h.once, ?_, h.given⟩
  · intro k b hin
    rcases mem_update_place hin with ⟨rfl, hb⟩ | ⟨-, hb⟩
    · exact hc b hb
    · exact h.listed k b hb
  · intro r hr k hin
    rcases mem_update_place hin with ⟨rfl, hb⟩ | ⟨-, hb⟩
    · exact hheld r hr hb
    · exact h.off r hr k hb

end Shelf

def Placed {ι : Type} (held : List (Nat × Nat)) (lists : ι → List Nat) (b : Nat) : Prop :=
  b ∈ held.map Prod.fst ∨ ∃ i, b ∈ lists i

namespace Placed

variable {ι : Type} [DecidableEq ι] {held : List (Nat × Nat)} {lists : ι → List Nat} {i j : ι}
  {b p q size : Nat} {t u r : List Nat}

theorem give (h : Placed held lists b) (hl : lists i = p :: t) :
    Placed ((p, size) :: held) (Function.update lists i t) b := by
  rcases h with h | ⟨k, h⟩
  · exact .inl (by simpa using .inr (by simpa using h))
  · by_cases hk : k = i
    · subst hk
      rw [hl] at h
      rcases List.mem_cons.mp h with rfl | h
      · exact .inl (by simp)
      · exact .inr ⟨k, by simpa using h⟩
    · exact .inr ⟨k, by simpa [hk] using h⟩

theorem take (h : Placed held lists b) :
    Placed (held.erase (p, size)) (Function.update lists i (p :: lists i)) b := by
  rcases h with h | ⟨k, h⟩
  · obtain ⟨⟨b, n⟩, hr, rfl⟩ := List.mem_map.mp h
    by_cases he : (b, n) = (p, size)
    · obtain rfl : b = p := congrArg Prod.fst he
      exact .inr ⟨i, by simp⟩
    · exact .inl (List.mem_map.mpr ⟨_, (List.mem_erase_of_ne he).mpr hr, rfl⟩)
  · refine .inr ⟨k, ?_⟩
    by_cases hk : k = i
    · subst hk; simp [h]
    · simpa [hk] using h

theorem cut (h : Placed held lists b) (hl : lists i = u ++ q :: r) (hij : i ≠ j) (hj : lists j = []) :
    Placed held (Function.update (Function.update lists i (u ++ [q])) j r) b := by
  rcases h with h | ⟨k, h⟩
  · exact .inl h
  · right
    by_cases hk : k = i
    · subst hk
      rw [hl, ← List.singleton_append, ← List.append_assoc] at h
      rcases List.mem_append.mp h with h | h
      · exact ⟨k, by simpa [hij] using h⟩
      · exact ⟨j, by simpa using h⟩
    · have hkj : k ≠ j := by
        rintro rfl
        simp [hj] at h
      exact ⟨k, by simpa [hk, hkj] using h⟩

theorem splice (h : Placed held lists b) (hl : lists i = u ++ [q]) :
    Placed held (Function.update (Function.update lists i []) j (u ++ q :: lists j)) b := by
  rcases h with h | ⟨k, h⟩
  · exact .inl h
  · right
    by_cases hk : k = i
    · subst hk
      refine ⟨j, ?_⟩
      rw [hl] at h
      simp only [Function.update_self, List.mem_append, List.mem_cons, List.not_mem_nil, or_false] at h ⊢
      tauto
    · by_cases hkj : k = j
      · subst hkj
        exact ⟨k, by simp [h]⟩
      · exact ⟨k, by simpa [hk, hkj] using h⟩

theorem move (h : Placed held lists b) (hl : lists i = p :: t) (hij : i ≠ j) (hj : lists j = []) :
    Placed held (Function.update (Function.update lists i t) j [p]) b := by
  rcases h with h | ⟨k, h⟩
  · exact .inl h
  · right
    by_cases hk : k = i
    · subst hk
      rw [hl] at h
      rcases List.mem_cons.mp h with rfl | h
      · exact ⟨j, by simp⟩
      · exact ⟨k, by simpa [hij] using h⟩
    · have hkj : k ≠ j := by
        rintro rfl
        simp [hj] at h
      exact ⟨k, by simpa [hk, hkj] using h⟩

theorem add (h : Placed held lists b) (hi : lists i = []) : Placed held (Function.update lists i t) b := by
  rcases h with h | ⟨k, h⟩
  · exact .inl h
  · refine .inr ⟨k, ?_⟩
    have hk : k ≠ i := by
      rintro rfl
      simp [hi] at h
    simpa [hk] using h

end Placed

end LearnNote.Memory
