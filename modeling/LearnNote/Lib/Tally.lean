import Mathlib.Data.Finset.Card
import Mathlib.Data.Finset.Dedup
import LearnNote.Lib.CheckedInt
import LearnNote.Lib.Loops

namespace LearnNote.Lib

variable {κ : Type} [DecidableEq κ]

/-- A map from keys to ints. What is not there counts as 0, and is there once it has been counted. -/
structure Tally (κ : Type) [DecidableEq κ] where
  keys : Finset κ
  count : κ → Int
  absent : ∀ c, c ∉ keys → count c = 0

namespace Tally

def empty : Tally κ := ⟨∅, fun _ => 0, fun _ _ => rfl⟩

theorem update_absent {m : Tally κ} (c : κ) (x : Int) :
    ∀ d, d ∉ insert c m.keys → Function.update m.count c x d = 0 := by
  intro d hd
  rw [Finset.mem_insert, not_or] at hd
  rw [Function.update_of_ne hd.1]
  exact m.absent d hd.2

/-- No result, here and below, is a count that overflows. -/
def add (m : Tally κ) (c : κ) (x : Int) : Option (Tally κ) :=
  (checkedInt (m.count c + x)).map fun y => ⟨insert c m.keys, Function.update m.count c y, m.update_absent c y⟩

def ofList (t : List κ) : Option (Tally κ) := t.foldlM (fun m c => m.add c 1) empty

variable {m m' : Tally κ} {t : List κ} {c : κ} {x : Int}

theorem add_eq_some : m.add c x = some m' → (intMin ≤ m.count c + x ∧ m.count c + x ≤ intMax) ∧
    m'.keys = insert c m.keys ∧ m'.count = Function.update m.count c (m.count c + x) := by
  intro h
  obtain ⟨y, hy, rfl⟩ := Option.map_eq_some_iff.mp h
  obtain ⟨hrange, rfl⟩ := checkedInt_eq_some.mp hy
  exact ⟨hrange, rfl, rfl⟩

theorem add_of_mem (hmin : intMin ≤ m.count c + x) (hmax : m.count c + x ≤ intMax) :
    ∃ m', m.add c x = some m' ∧ m'.keys = insert c m.keys ∧
      m'.count = Function.update m.count c (m.count c + x) := by
  refine ⟨⟨insert c m.keys, Function.update m.count c (m.count c + x), m.update_absent c _⟩, ?_, rfl, rfl⟩
  rw [add, checkedInt_of_mem hmin hmax, Option.map_some]

/-- What is there after the elements of a list. -/
structure Counts (t : List κ) (m : Tally κ) : Prop where
  keys : m.keys = t.toFinset
  count : ∀ c, m.count c = t.count c

theorem counts_empty : Counts [] (empty : Tally κ) := ⟨rfl, fun _ => rfl⟩

theorem Counts.concat (h : Counts t m) (hkeys : m'.keys = insert c m.keys)
    (hcount : m'.count = Function.update m.count c (m.count c + 1)) : Counts (t ++ [c]) m' := by
  refine ⟨?_, fun d => ?_⟩
  · rw [hkeys, h.keys, List.toFinset_append, List.toFinset_cons, List.toFinset_nil, insert_empty_eq, Finset.union_comm,
      Finset.insert_eq]
  · rw [hcount, List.count_append, List.count_singleton]
    by_cases hd : d = c
    · subst hd
      rw [Function.update_self, h.count]
      simp
    · rw [Function.update_of_ne hd, h.count]
      simp [Ne.symm hd]

theorem ofList_returns (hmax : ∀ c, (t.count c : Int) ≤ intMax) : ∃ m, ofList t = some m ∧ Counts t m := by
  have hmin : intMin = -2147483648 := rfl
  refine Loops.foldlM_spec (I := Counts) counts_empty fun done c rest m ht h => ?_
  have hcount : t.count c = done.count c + rest.count c + 1 := by
    rw [ht, List.count_append, List.count_cons_self]
    rfl
  have hbound := hmax c
  have hdone := h.count c
  obtain ⟨m', hadd, hkeys, hnext⟩ := add_of_mem (by omega : intMin ≤ m.count c + 1) (by omega)
  exact ⟨m', hadd, h.concat hkeys hnext⟩

theorem count_le_of_ofList (h : ofList t = some m) (c : κ) : (t.count c : Int) ≤ intMax := by
  have hround : ∀ done c rest (m m' : Tally κ), t = done ++ c :: rest → (Counts done m ∧ ∀ d, m.count d ≤ intMax) →
      m.add c 1 = some m' → Counts (done ++ [c]) m' ∧ ∀ d, m'.count d ≤ intMax := by
    rintro done c rest m m' - ⟨hcounts, hmax⟩ hadd
    obtain ⟨hrange, hkeys, hnext⟩ := add_eq_some hadd
    refine ⟨hcounts.concat hkeys hnext, fun d => ?_⟩
    rw [hnext]
    by_cases hd : d = c
    · subst hd
      rw [Function.update_self]
      exact hrange.2
    · rw [Function.update_of_ne hd]
      exact hmax d
  obtain ⟨hcounts, hmax⟩ := Loops.foldlM_induction ⟨counts_empty, fun _ => (by decide : (0 : Int) ≤ intMax)⟩ hround h
  exact hcounts.count c ▸ hmax c

def met (keys : Finset κ) (need held : κ → Int) : Finset κ := keys.filter fun c => need c ≤ held c

variable {keys : Finset κ} {need held : κ → Int}

omit [DecidableEq κ] in
theorem card_met_eq_iff : (met keys need held).card = keys.card ↔ ∀ c ∈ keys, need c ≤ held c :=
  Finset.card_filter_eq_iff

theorem met_update (h : need c ≤ x ↔ need c ≤ held c) :
    met keys need (Function.update held c x) = met keys need held := by
  refine Finset.filter_congr fun d _ => ?_
  by_cases hd : d = c
  · subst hd
    rwa [Function.update_self]
  · rw [Function.update_of_ne hd]

theorem card_met_add (hc : c ∈ keys) (h : held c + 1 = need c) :
    (met keys need (Function.update held c (held c + 1))).card = (met keys need held).card + 1 := by
  have hnot : c ∉ met keys need held := by
    intro hin
    have hle := (Finset.mem_filter.mp hin).2
    omega
  rw [← Finset.card_insert_of_notMem hnot]
  congr 1
  ext d
  rw [met, met, Finset.mem_insert, Finset.mem_filter, Finset.mem_filter]
  by_cases hd : d = c
  · subst hd
    rw [Function.update_self]
    exact iff_of_true ⟨hc, h.ge⟩ (Or.inl rfl)
  · rw [Function.update_of_ne hd]
    exact (or_iff_right hd).symm

end Tally

end LearnNote.Lib
