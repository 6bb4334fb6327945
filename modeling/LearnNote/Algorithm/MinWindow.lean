import LearnNote.Algorithm.CommonSubstring
import LearnNote.Lib.SlidingWindow
import LearnNote.Lib.Tally

namespace LearnNote.Algorithm.MinWindow

open Lib CommonSubstring SlidingWindow

/-- The windows counted, and where the loops are. -/
structure Vars extends State where
  windows : Tally UInt8
  valid : Int

/-- No result, here and below, is an int that overflows or an access outside the string. -/
def next (i : Nat) : Option Nat := if (i : Int) + 1 ≤ intMax then some (i + 1) else none

def expand (s : List UInt8) (needs : Tally UInt8) (v : Vars) : Option Vars :=
  (charAt s v.right).bind fun c => (next v.right).bind fun right =>
    if c ∈ needs.keys then
      (v.windows.add c 1).bind fun windows =>
        (if windows.count c = needs.count c then checkedInt (v.valid + 1) else some v.valid).map fun valid =>
          { v with place := .inner, right := right, windows := windows, valid := valid }
    else some { v with place := .inner, right := right }

def contract (s : List UInt8) (needs : Tally UInt8) (v : Vars) : Option Vars :=
  let v := { v with toState := v.record }
  (charAt s v.left).bind fun d => (next v.left).bind fun left =>
    if d ∈ needs.keys then
      (if v.windows.count d = needs.count d then checkedInt (v.valid - 1) else some v.valid).bind fun valid =>
        (v.windows.add d (-1)).map fun windows => { v with left := left, windows := windows, valid := valid }
    else some { v with left := left }

def step (s : List UInt8) (needs : Tally UInt8) (v : Vars) : Option Vars :=
  match v.place with
  | .outer => if v.right < s.length then expand s needs v else some { v with place := .returned }
  | .inner => if v.valid = needs.keys.card then contract s needs v else some { v with place := .outer }
  | .returned => some v

def start : Vars := ⟨⟨.outer, 0, 0, 0, intMax⟩, .empty, 0⟩

def after (s : List UInt8) (needs : Tally UInt8) : Nat → Option Vars
  | 0 => some start
  | k + 1 => (after s needs k).bind (step s needs)

def substr (s : List UInt8) (pos : Nat) (n : Int) : Option (List UInt8) :=
  if pos ≤ s.length then some ((s.drop pos).take n.toNat) else none

/-- Out of fuel there is no result either. -/
def minWindow (fuel : Nat) (s t : List UInt8) : Option (List UInt8) :=
  (Tally.ofList t).bind fun needs => (after s needs fuel).bind fun v =>
    if v.place = .returned then if v.len = intMax then some [] else substr s v.start v.len else none

def window (s : List UInt8) (a b : Nat) : List UInt8 := (s.take b).drop a

def Contains (t w : List UInt8) : Prop := ∀ c, t.count c ≤ w.count c

def Covers (s t : List UInt8) (a b : Nat) : Prop := a ≤ b ∧ Contains t (window s a b)

/-- The leftmost shortest window is returned, or the empty string if there is none. -/
def Answer (s t r : List UInt8) : Prop :=
  (∃ a b, Shortest (Covers s t) s.length a b ∧ r = window s a b) ∨
    (∀ a b, b ≤ s.length → ¬ Covers s t a b) ∧ r = []

def Finds (s t : List UInt8) : Prop := ∃ N r, (∀ fuel, N ≤ fuel → minWindow fuel s t = some r) ∧ Answer s t r

/-- Every step is inside the string, and after N of them the loops are over. -/
def Stays (s t : List UInt8) : Prop :=
  ∃ N, ∀ k, ∃ v, (Tally.ofList t).bind (fun needs => after s needs k) = some v ∧
    (v.left ≤ v.right ∧ v.right ≤ s.length) ∧ (N ≤ k → v.place = .returned)

/-- Of the characters that are needed, those in the window are counted, and which are there often enough. -/
structure Counted (s : List UInt8) (needs : Tally UInt8) (v : Vars) : Prop where
  windows : ∀ c ∈ needs.keys, v.windows.count c = (window s v.left v.right).count c
  valid : v.valid = (Tally.met needs.keys needs.count v.windows.count).card

variable {s t : List UInt8} {needs : Tally UInt8} {v v' : Vars} {a b k : Nat}

theorem count_window (h : a ≤ b) (c : UInt8) :
    (s.take a).count c + (window s a b).count c = (s.take b).count c := by
  have hsplit : s.take a ++ window s a b = s.take b := by
    have htake : (s.take b).take a = s.take a := by rw [List.take_take, Nat.min_eq_left h]
    rw [window, ← htake, List.take_append_drop]
  rw [← hsplit, List.count_append]

theorem window_le_length (c : UInt8) : (window s a b).count c ≤ b := by
  refine List.count_le_length.trans ?_
  rw [window, List.length_drop, List.length_take]
  omega

theorem window_succ (h : a ≤ b) (hb : b < s.length) (c : UInt8) :
    (window s a (b + 1)).count c = (window s a b).count c + if s[b] = c then 1 else 0 := by
  have hold := count_window (s := s) h c
  have hnew := count_window (s := s) (by omega : a ≤ b + 1) c
  rw [List.take_succ_eq_append_getElem hb, List.count_append, List.count_singleton] at hnew
  simp only [beq_iff_eq] at hnew
  omega

theorem window_cons (h : a < b) (hb : b ≤ s.length) (c : UInt8) :
    (window s a b).count c = (window s (a + 1) b).count c + if s[a] = c then 1 else 0 := by
  have hold := count_window (s := s) h.le c
  have hnew := count_window (s := s) (a := a + 1) h c
  rw [List.take_succ_eq_append_getElem (h.trans_le hb), List.count_append,
    List.count_singleton] at hnew
  simp only [beq_iff_eq] at hnew
  omega

theorem card_keys_le (keys : Finset UInt8) : keys.card ≤ 256 := by
  have hle : keys.card ≤ (Finset.range 256).card := by
    apply Finset.card_le_card_of_injOn UInt8.toNat
    · intro c _
      exact Finset.mem_coe.mpr (Finset.mem_range.mpr c.toNat_lt)
    · intro c _ d _ heq
      exact UInt8.toNat_inj.mp heq
  rwa [Finset.card_range] at hle

theorem Covers.lt (ht : t ≠ []) (h : Covers s t a b) : a < b := by
  obtain ⟨c, hc⟩ := List.exists_mem_of_ne_nil t ht
  have hpos := List.count_pos_iff.mpr hc
  have hcount := h.2 c
  have hsplit := count_window (s := s) h.1 c
  refine h.1.lt_of_ne ?_
  rintro rfl
  omega

theorem Covers.mono {a' b' : Nat} (ha : a' ≤ a) (hb : b ≤ b') (h : Covers s t a b) : Covers s t a' b' := by
  refine ⟨ha.trans (h.1.trans hb), fun c => ?_⟩
  have hcount := h.2 c
  have hold := count_window (s := s) h.1 c
  have hnew := count_window (s := s) (ha.trans (h.1.trans hb)) c
  have hleft := (List.take_sublist_take_left (l := s) ha).count_le c
  have hright := (List.take_sublist_take_left (l := s) hb).count_le c
  omega

theorem Counted.valid_iff (hv : Counted s needs v) (hneeds : Tally.Counts t needs) (hle : v.left ≤ v.right) :
    v.valid = needs.keys.card ↔ Covers s t v.left v.right := by
  rw [hv.valid, Nat.cast_inj, Tally.card_met_eq_iff]
  constructor
  · intro hall
    refine ⟨hle, fun c => ?_⟩
    by_cases hc : c ∈ needs.keys
    · have hle := hall c hc
      rw [hv.windows c hc, hneeds.count] at hle
      omega
    · rw [hneeds.keys, List.mem_toFinset] at hc
      rw [List.count_eq_zero_of_not_mem hc]
      exact Nat.zero_le _
  · intro hcovers c hc
    have hle := hcovers.2 c
    rw [hv.windows c hc, hneeds.count]
    omega

theorem next_of_le {i : Nat} (h : (i : Int) + 1 ≤ intMax) : next i = some (i + 1) := if_pos h

theorem next_eq_some {i j : Nat} : next i = some j ↔ (i : Int) + 1 ≤ intMax ∧ i + 1 = j := by
  rw [next, Option.ite_none_right_eq_some, Option.some_inj]

theorem charAt_of_lt {i : Nat} (h : i < s.length) : charAt s i = some s[i] := by
  rw [charAt, if_neg h.ne, List.getElem?_eq_getElem h]

/-- One more of a character makes a difference only if it is the last that is needed. -/
theorem met_card_succ {keys : Finset UInt8} {c : UInt8} (hc : c ∈ keys) (need held : UInt8 → Int) :
    ((Tally.met keys need (Function.update held c (held c + 1))).card : Int) =
      (Tally.met keys need held).card + if held c + 1 = need c then 1 else 0 := by
  by_cases hmet : held c + 1 = need c
  · rw [if_pos hmet, Tally.card_met_add hc hmet]
    rfl
  · rw [if_neg hmet, add_zero, Tally.met_update (by omega)]

theorem checkedInt_card (keys : Finset UInt8) : checkedInt keys.card = some (keys.card : Int) := by
  have hmin : intMin = -2147483648 := rfl
  have hmax : intMax = 2147483647 := rfl
  have hle := card_keys_le keys
  exact checkedInt_of_mem (by omega) (by omega)

section

variable {keys : Finset UInt8} {need held held' : UInt8 → Int} {c : UInt8} {valid : Int}

theorem valid_of_more (hc : c ∈ keys) (hvalid : valid = (Tally.met keys need held).card)
    (hmore : held' = Function.update held c (held c + 1)) :
    (if held' c = need c then checkedInt (valid + 1) else some valid) =
      some ((Tally.met keys need held').card : Int) := by
  have hself : held' c = held c + 1 := by rw [hmore, Function.update_self]
  have hcard := met_card_succ hc need held
  rw [← hmore, ← hvalid] at hcard
  rw [hself]
  split_ifs at hcard ⊢ with hmet
  · rw [← hcard]
    exact checkedInt_card _
  · rw [hcard, add_zero]

theorem valid_of_less (hc : c ∈ keys) (hvalid : valid = (Tally.met keys need held).card)
    (hless : held' = Function.update held c (held c + -1)) :
    (if held c = need c then checkedInt (valid - 1) else some valid) =
      some ((Tally.met keys need held').card : Int) := by
  have hself : held' c + 1 = held c := by
    rw [hless, Function.update_self]
    omega
  have hback : Function.update held' c (held' c + 1) = held := by
    rw [hself, hless, Function.update_idem, Function.update_eq_self]
  have hcard := met_card_succ hc need held'
  rw [hback, ← hvalid, hself] at hcard
  split_ifs at hcard ⊢ with hmet
  · have hpred : valid - 1 = (Tally.met keys need held').card := by omega
    rw [hpred]
    exact checkedInt_card _
  · rw [hcard, add_zero]

end

theorem Counted.expand (hv : Counted s needs v) (hlen : (s.length : Int) ≤ intMax) (hleft : v.left ≤ v.right)
    (hright : v.right < s.length) : ∃ v', expand s needs v = some v' ∧ v'.toState = v.grow ∧ Counted s needs v' := by
  have hmin : intMin = -2147483648 := rfl
  have hnext := window_succ hleft hright
  rw [MinWindow.expand, charAt_of_lt hright, Option.bind_some, next_of_le (by omega), Option.bind_some]
  by_cases hc : s[v.right] ∈ needs.keys
  · have hcount := hv.windows _ hc
    have hbound := window_le_length (s := s) (a := v.left) (b := v.right) s[v.right]
    obtain ⟨windows, hadd, -, hmore⟩ := Tally.add_of_mem (by omega : intMin ≤ v.windows.count s[v.right] + 1) (by omega)
    rw [if_pos hc, hadd, Option.bind_some, valid_of_more hc hv.valid hmore, Option.map_some]
    refine ⟨_, rfl, rfl, fun c hin => ?_, rfl⟩
    simp only
    rw [hnext, hmore]
    by_cases he : s[v.right] = c
    · subst he
      rw [Function.update_self, hcount, if_pos rfl]
      rfl
    · rw [Function.update_of_ne (Ne.symm he), if_neg he, add_zero]
      exact hv.windows c hin
  · rw [if_neg hc]
    refine ⟨_, rfl, rfl, fun c hin => ?_, hv.valid⟩
    rw [hnext, if_neg fun (he : s[v.right] = c) => hc (he ▸ hin), add_zero]
    exact hv.windows c hin

theorem Counted.contract (hv : Counted s needs v) (hlen : (s.length : Int) ≤ intMax) (hleft : v.left < v.right)
    (hright : v.right ≤ s.length) :
    ∃ v', contract s needs v = some v' ∧ v'.toState = v.shrink ∧ Counted s needs v' := by
  have hmin : intMin = -2147483648 := rfl
  have hold := window_cons hleft hright
  rw [MinWindow.contract]
  simp only [State.record_left]
  rw [charAt_of_lt (hleft.trans_le hright), Option.bind_some, next_of_le (by omega), Option.bind_some]
  by_cases hd : s[v.left] ∈ needs.keys
  · have hcount := hv.windows _ hd
    have hbound := window_le_length (s := s) (a := v.left) (b := v.right) s[v.left]
    obtain ⟨windows, hadd, -, hless⟩ := Tally.add_of_mem (by omega : intMin ≤ v.windows.count s[v.left] + -1) (by omega)
    rw [if_pos hd, valid_of_less hd hv.valid hless, Option.bind_some, hadd, Option.map_some]
    refine ⟨_, rfl, rfl, fun c hc => ?_, rfl⟩
    simp only [State.record_right]
    rw [hless]
    by_cases he : s[v.left] = c
    · have hone := hold c
      subst he
      rw [if_pos rfl] at hone
      rw [Function.update_self, hcount]
      omega
    · rw [Function.update_of_ne (Ne.symm he), hv.windows c hc, hold c, if_neg he, add_zero]
  · rw [if_neg hd]
    refine ⟨_, rfl, rfl, fun c hc => ?_, hv.valid⟩
    simp only [State.record_right]
    rw [hv.windows c hc, hold c, if_neg fun (he : s[v.left] = c) => hd (he ▸ hc), add_zero]

theorem Counted.step (hv : Counted s needs v) (hneeds : Tally.Counts t needs) (ht : t ≠ [])
    (hlen : (s.length : Int) ≤ intMax) (hin : Inside s.length v.toState) (hplace : v.place ≠ .returned) :
    ∃ v', step s needs v = some v' ∧ Step (Covers s t) s.length v.toState v'.toState ∧ Counted s needs v' := by
  have hiff := hv.valid_iff hneeds hin.left_le
  rw [MinWindow.step]
  cases hp : v.place with
  | outer =>
      simp only
      by_cases hright : v.right < s.length
      · obtain ⟨v', hstep, hstate, hcounted⟩ := hv.expand hlen hin.left_le hright
        refine ⟨v', by rw [if_pos hright, hstep], ?_, hcounted⟩
        rw [hstate]
        exact .grow _ hp hright
      · exact ⟨_, if_neg hright, .finish _ hp hright, hv.windows, hv.valid⟩
  | inner =>
      simp only
      by_cases hvalid : v.valid = needs.keys.card
      · have hcovers := hiff.mp hvalid
        obtain ⟨v', hstep, hstate, hcounted⟩ := hv.contract hlen (hcovers.lt ht) hin.right_le
        refine ⟨v', by rw [if_pos hvalid, hstep], ?_, hcounted⟩
        rw [hstate]
        exact .shrink _ hp hcovers
      · exact ⟨_, if_neg hvalid, .settle _ hp fun h => hvalid (hiff.mpr h), hv.windows, hv.valid⟩
  | returned => exact absurd hp hplace

theorem counted_start (hneeds : Tally.Counts t needs) : Counted s needs start := by
  refine ⟨fun c _ => rfl, ?_⟩
  have hnone : Tally.met needs.keys needs.count start.windows.count = ∅ := by
    refine Finset.filter_eq_empty_iff.mpr fun c hc => ?_
    rw [hneeds.keys, List.mem_toFinset] at hc
    have hpos := List.count_pos_iff.mpr hc
    have hzero : start.windows.count c = 0 := rfl
    rw [hneeds.count, hzero]
    omega
  rw [hnone]
  rfl

/-- What every step of the window keeps is kept, and after as many steps as there are at most the loops are over. -/
theorem after_spec (hneeds : Tally.Counts t needs) (ht : t ≠ []) (hlen : (s.length : Int) ≤ intMax) {I : State → Prop}
    (hstart : I start.toState)
    (hstep : ∀ x y, Step (Covers s t) s.length x y → Inside s.length x → I x → I y) (k : Nat) :
    ∃ v, after s needs k = some v ∧ Inside s.length v.toState ∧ Counted s needs v ∧ I v.toState ∧
      (v.place = .returned ∨ rank s.length v.toState + k ≤ rank s.length start.toState) := by
  induction k with
  | zero => exact ⟨start, rfl, ⟨le_rfl, Nat.zero_le _⟩, counted_start hneeds, hstart, Or.inr le_rfl⟩
  | succ k ih =>
      obtain ⟨v, hafter, hin, hcounted, hI, hrank⟩ := ih
      rw [after, hafter, Option.bind_some]
      by_cases hplace : v.place = .returned
      · refine ⟨v, ?_, hin, hcounted, hI, Or.inl hplace⟩
        rw [MinWindow.step, hplace]
      · obtain ⟨v', hv', hmove, hcounted'⟩ := hcounted.step hneeds ht hlen hin hplace
        have hlt := hmove.rank_lt (fun _ _ h => h.lt ht) hin
        have hbefore := hrank.resolve_left hplace
        exact ⟨v', hv', hmove.inside (fun _ _ h => h.lt ht) hin, hcounted', hstep _ _ hmove hin hI, Or.inr (by omega)⟩

theorem after_of_returned (h : after s needs k = some v) (hplace : v.place = .returned) {j : Nat} (hj : k ≤ j) :
    after s needs j = some v := by
  induction j, hj using Nat.le_induction with
  | base => exact h
  | succ j _ ih => rw [after, ih, Option.bind_some, step, hplace]

theorem substr_eq (hab : a ≤ b) (hb : b ≤ s.length) : substr s a (b - a) = some (window s a b) := by
  have hlen : ((b : Int) - a).toNat = b - a := by omega
  rw [substr, if_pos (hab.trans hb), hlen, window, List.drop_take]

theorem finds_of_lt (hs : (s.length : Int) < intMax) (hlt : (t.length : Int) < intMax) (ht : t ≠ []) : Finds s t := by
  have hcount : ∀ c, (t.count c : Int) ≤ intMax := by
    intro c
    have hle : t.count c ≤ t.length := List.count_le_length
    omega
  obtain ⟨needs, htally, hneeds⟩ := Tally.ofList_returns hcount
  have hstart : Fresh (Covers s t) s.length start.toState ∧ Swept (Covers s t) intMax start.toState := by
    refine ⟨fun h => absurd (h.lt ht) (lt_irrefl 0), fun a ha => absurd ha a.not_lt_zero, ?_, Or.inl rfl⟩
    exact fun a ha => absurd ha a.not_lt_zero
  obtain ⟨v, hafter, hin, -, ⟨hfresh, hswept⟩, hrank⟩ := after_spec hneeds ht hs.le
    (I := fun x => Fresh (Covers s t) s.length x ∧ Swept (Covers s t) intMax x) hstart
    (fun x y hmove hin hI => ⟨hmove.fresh (fun _ _ _ _ => Covers.mono) hI.1, hmove.swept hin hs hI.1 hI.2⟩)
    (rank s.length start.toState + 1)
  have hplace : v.place = .returned := hrank.resolve_right (by omega)
  have hcall : ∀ fuel, rank s.length start.toState + 1 ≤ fuel →
      minWindow fuel s t = if v.len = intMax then some [] else substr s v.start v.len := by
    intro fuel hfuel
    rw [minWindow, htally, Option.bind_some, after_of_returned hafter hplace hfuel, Option.bind_some, if_pos hplace]
  by_cases hlen : v.len = intMax
  · refine ⟨rank s.length start.toState + 1, [], fun fuel hfuel => ?_, Or.inr ⟨fun a b hb => ?_, rfl⟩⟩
    · exact (hcall fuel hfuel).trans (if_pos hlen)
    · exact hswept.none_good (fun _ _ _ _ => Covers.mono) hs hplace hfresh hlen hb
  · obtain ⟨b, hbest, hshortest⟩ := hswept.shortest (fun _ _ h => h.lt ht) (fun _ _ _ _ => Covers.mono) hin hplace
      hfresh hlen
    refine ⟨rank s.length start.toState + 1, window s v.start b, fun fuel hfuel => ?_, ?_⟩
    · rw [hcall fuel hfuel, if_neg hlen, hbest, substr_eq hshortest.is_good.1 hshortest.le]
    · exact Or.inl ⟨v.start, b, hshortest, rfl⟩

theorem finds_of_lt_three : Finds [1, 2, 3, 2] [3, 2] := finds_of_lt (by decide) (by decide) (by decide)

theorem after_nil (k : Nat) : after [] needs (k + 1) = some { start with place := .returned } := by
  induction k with
  | zero => rfl
  | succ k ih =>
      rw [after, ih]
      rfl

theorem expand_moves (h : expand s needs v = some v') : v'.place = .inner ∧ (v'.right : Int) ≤ intMax := by
  obtain ⟨c, -, h⟩ := Option.bind_eq_some_iff.mp h
  obtain ⟨right, hright, h⟩ := Option.bind_eq_some_iff.mp h
  obtain ⟨hle, rfl⟩ := next_eq_some.mp hright
  split_ifs at h with hc
  · obtain ⟨windows, -, h⟩ := Option.bind_eq_some_iff.mp h
    obtain ⟨valid, -, rfl⟩ := Option.map_eq_some_iff.mp h
    exact ⟨rfl, hle⟩
  · cases h
    exact ⟨rfl, hle⟩

theorem contract_moves (h : contract s needs v = some v') :
    v'.place = v.place ∧ v'.left = v.left + 1 ∧ v'.right = v.right ∧ (needs.keys = ∅ → v'.valid = v.valid) := by
  rw [contract] at h
  simp only [State.record_left] at h
  obtain ⟨d, -, h⟩ := Option.bind_eq_some_iff.mp h
  obtain ⟨left, hleft, h⟩ := Option.bind_eq_some_iff.mp h
  obtain ⟨-, rfl⟩ := next_eq_some.mp hleft
  by_cases hd : d ∈ needs.keys
  · rw [if_pos hd] at h
    obtain ⟨valid, -, h⟩ := Option.bind_eq_some_iff.mp h
    obtain ⟨windows, -, rfl⟩ := Option.map_eq_some_iff.mp h
    refine ⟨State.record_place, rfl, State.record_right, fun hempty => ?_⟩
    rw [hempty] at hd
    exact absurd hd (Finset.notMem_empty d)
  · rw [if_neg hd] at h
    cases h
    exact ⟨State.record_place, rfl, State.record_right, fun _ => rfl⟩

theorem after_right (h : after s needs k = some v) :
    (v.right : Int) ≤ intMax ∧ (v.place = .returned → s.length ≤ v.right) := by
  induction k generalizing v with
  | zero =>
      cases h
      exact ⟨by decide, fun hplace => by cases hplace⟩
  | succ k ih =>
      obtain ⟨u, hu, hstep⟩ := Option.bind_eq_some_iff.mp h
      obtain ⟨hle, hdone⟩ := ih hu
      rw [step] at hstep
      cases hp : u.place with
      | outer =>
          simp only [hp] at hstep
          split_ifs at hstep with hright
          · obtain ⟨hplace, hmax⟩ := expand_moves hstep
            exact ⟨hmax, fun hreturned => by cases hplace.symm.trans hreturned⟩
          · cases hstep
            exact ⟨hle, fun _ => not_lt.mp hright⟩
      | inner =>
          simp only [hp] at hstep
          split_ifs at hstep with hvalid
          · obtain ⟨hplace, -, hright, -⟩ := contract_moves hstep
            exact ⟨hright ▸ hle, fun hreturned => by cases (hp.symm.trans hplace.symm).trans hreturned⟩
          · cases hstep
            exact ⟨hle, fun hreturned => by cases hreturned⟩
      | returned =>
          simp only [hp] at hstep
          cases hstep
          exact ⟨hle, hdone⟩

theorem after_of_nothing_needed (hs : s ≠ []) (h : after s .empty (k + 1) = some v) :
    v.place = .inner ∧ v.left = k ∧ v.right = 1 ∧ v.valid = 0 := by
  induction k generalizing v with
  | zero =>
      have hright : start.right < s.length := List.length_pos_of_ne_nil hs
      have hnot : s[start.right] ∉ (Tally.empty : Tally UInt8).keys := Finset.notMem_empty _
      have hfirst : expand s .empty start = some ⟨⟨.inner, 0, 1, 0, intMax⟩, .empty, 0⟩ := by
        rw [expand, charAt_of_lt hright, Option.bind_some, next_of_le (by decide), Option.bind_some, if_neg hnot]
        rfl
      have hstep : step s .empty start = expand s .empty start := if_pos hright
      rw [after, after, Option.bind_some, hstep, hfirst] at h
      cases h
      exact ⟨rfl, rfl, rfl, rfl⟩
  | succ k ih =>
      obtain ⟨u, hu, hstep⟩ := Option.bind_eq_some_iff.mp h
      obtain ⟨hplace, hleft, hright, hvalid⟩ := ih hu
      rw [step, hplace] at hstep
      simp only at hstep
      have hnone : u.valid = ((Tally.empty : Tally UInt8).keys.card : Int) := hvalid
      rw [if_pos hnone] at hstep
      obtain ⟨hplace', hleft', hright', hvalid'⟩ := contract_moves hstep
      exact ⟨hplace'.trans hplace, hleft'.trans (congrArg _ hleft), hright'.trans hright, (hvalid' rfl).trans hvalid⟩

theorem stays_of_nil (hcount : ∀ c, (t.count c : Int) ≤ intMax) : Stays [] t := by
  obtain ⟨needs, htally, -⟩ := Tally.ofList_returns hcount
  refine ⟨1, fun k => ?_⟩
  rw [htally, Option.bind_some]
  cases k with
  | zero => exact ⟨start, rfl, ⟨le_rfl, le_rfl⟩, fun hle => absurd hle (by omega)⟩
  | succ k => exact ⟨_, after_nil k, ⟨le_rfl, le_rfl⟩, fun _ => rfl⟩

theorem stays_of_le (hcount : ∀ c, (t.count c : Int) ≤ intMax) (ht : t ≠ []) (hlen : (s.length : Int) ≤ intMax) :
    Stays s t := by
  obtain ⟨needs, htally, hneeds⟩ := Tally.ofList_returns hcount
  refine ⟨rank s.length start.toState + 1, fun k => ?_⟩
  obtain ⟨v, hafter, hin, -, -, hrank⟩ :=
    after_spec hneeds ht hlen (I := fun _ => True) trivial (fun _ _ _ _ _ => trivial) k
  rw [htally, Option.bind_some]
  exact ⟨v, hafter, ⟨hin.left_le, hin.right_le⟩, fun hle => hrank.resolve_right (by omega)⟩

theorem not_stays_of_ne_nil (hs : s ≠ []) : ¬ Stays s [] := by
  rintro ⟨N, hall⟩
  obtain ⟨v, hv, ⟨hle, -⟩, -⟩ := hall 3
  have htally : Tally.ofList ([] : List UInt8) = some .empty := rfl
  rw [htally, Option.bind_some] at hv
  obtain ⟨-, hleft, hright, -⟩ := after_of_nothing_needed (k := 2) hs hv
  omega

theorem stays_iff (s t : List UInt8) :
    Stays s t ↔ (∀ c, (t.count c : Int) ≤ intMax) ∧ (s = [] ∨ t ≠ [] ∧ (s.length : Int) ≤ intMax) := by
  constructor
  · rintro ⟨N, hall⟩
    obtain ⟨v, hv, -, hdone⟩ := hall N
    obtain ⟨needs, htally, hafter⟩ := Option.bind_eq_some_iff.mp hv
    refine ⟨Tally.count_le_of_ofList htally, or_iff_not_imp_left.mpr fun hs => ⟨?_, ?_⟩⟩
    · rintro rfl
      exact not_stays_of_ne_nil hs ⟨N, hall⟩
    · obtain ⟨hmax, hreturned⟩ := after_right hafter
      have hlen := hreturned (hdone le_rfl)
      omega
  · rintro ⟨hcount, rfl | ⟨ht, hlen⟩⟩
    · exact stays_of_nil hcount
    · exact stays_of_le hcount ht hlen

theorem empty_not_stays : ¬ ∀ s t : List UInt8, Stays s t :=
  fun hall => not_stays_of_ne_nil (List.cons_ne_nil 97 []) (hall [97] [])

end LearnNote.Algorithm.MinWindow
