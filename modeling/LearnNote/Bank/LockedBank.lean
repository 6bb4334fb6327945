import Mathlib.Algebra.Order.Ring.Rat
import Mathlib.Tactic.Ring
import LearnNote.Lib.Ledger
import LearnNote.Lib.Transition

namespace LearnNote.Bank

open Lib Lib.Transition

/-- Where a thread is: in transferMoney before and after it has both locks, and between
its two changes; or in total, with k accounts read, their sum, and the changes made since
to accounts that it had read. -/
inductive Thread
  | idle
  | locking (alice bob : Nat) (amount : ℚ)
  | locked (alice bob : Nat) (amount : ℚ)
  | debited (alice bob : Nat) (amount : ℚ)
  | totalling (k : Nat) (sum missed : ℚ)
deriving DecidableEq

/-- A value that total has returned, with the changes it had missed and the money that
was withdrawn and not yet deposited. -/
structure Observation where
  value : ℚ
  missed : ℚ
  inFlight : ℚ
deriving DecidableEq

structure LockedBank where
  accounts : List ℚ
  threads : List Thread
  totals : List Observation

namespace Thread

def inFlight : Thread → ℚ
  | .debited _ _ amount => amount
  | _ => 0

def holds (a : Nat) : Thread → Bool
  | .locked alice bob _ | .debited alice bob _ => a = alice || a = bob
  | _ => false

/-- What a change of an account means for those who are adding up. -/
def observe (a : Nat) (amount : ℚ) : Thread → Thread
  | .totalling k sum missed => .totalling k sum (if a < k then missed + amount else missed)
  | th => th

end Thread

namespace LockedBank

def inFlight (s : LockedBank) : ℚ := (s.threads.map Thread.inFlight).sum

def changeMoney (a : Nat) (amount : ℚ) (s : LockedBank) : LockedBank :=
  { s with
    accounts := Ledger.credit a amount s.accounts
    threads := s.threads.map (Thread.observe a amount) }

def goTo (i : Nat) (th : Thread) (s : LockedBank) : LockedBank := { s with threads := s.threads.set i th }

/-- lock does not return when it is given one mutex twice. -/
def advance (i : Nat) (s : LockedBank) : Option LockedBank :=
  match s.threads[i]? with
  | some (.locking alice bob amount) =>
      if alice = bob ∨ s.threads.any (Thread.holds alice) ∨ s.threads.any (Thread.holds bob) then none
      else some (s.goTo i (.locked alice bob amount))
  | some (.locked alice bob amount) =>
      match s.accounts[alice]? with
      | some money =>
          some (if amount > money then s.goTo i .idle
            else (s.changeMoney alice (-amount)).goTo i (.debited alice bob amount))
      | none => none
  | some (.debited _ bob amount) => some ((s.changeMoney bob amount).goTo i .idle)
  | some (.totalling k sum missed) =>
      match s.accounts[k]? with
      | some money => some (s.goTo i (.totalling (k + 1) (sum + money) missed))
      | none => some { s.goTo i .idle with totals := s.totals ++ [⟨sum, missed, s.inFlight⟩] }
  | _ => none

inductive Act
  | transferMoney (i alice bob : Nat) (amount : ℚ)
  | total (i : Nat)
  | advance (i : Nat)

def step : Act → LockedBank → Option LockedBank
  | .transferMoney i alice bob amount, s =>
      if s.threads[i]? = some .idle ∧ alice < s.accounts.length ∧ bob < s.accounts.length then
        some (s.goTo i (.locking alice bob amount))
      else none
  | .total i, s => if s.threads[i]? = some .idle then some (s.goTo i (.totalling 0 0 0)) else none
  | .advance i, s => s.advance i

def start (balances : List ℚ) (s : LockedBank) : Prop :=
  ∃ threads, s = ⟨balances, List.replicate threads .idle, []⟩

/-- A walk has what it read, and what is to come, but for the changes it has missed. A
transfer is between accounts of the bank. -/
def Fits (accounts : List ℚ) : Thread → Prop
  | .idle => True
  | .locking alice bob _ | .locked alice bob _ | .debited alice bob _ =>
      alice < accounts.length ∧ bob < accounts.length
  | .totalling k sum missed => sum + (accounts.drop k).sum + missed = accounts.sum

structure Inv (money : ℚ) (s : LockedBank) : Prop where
  fits : ∀ th ∈ s.threads, Fits s.accounts th
  conserved : s.accounts.sum + s.inFlight = money
  observed : ∀ o ∈ s.totals, o.value + o.missed + o.inFlight = money

variable {s t : LockedBank} {money amount : ℚ} {accounts : List ℚ} {th : Thread} {a i : Nat}

theorem fits_observe (ha : a < accounts.length) (h : Fits accounts th) :
    Fits (Ledger.credit a amount accounts) (th.observe a amount) := by
  cases th with
  | totalling k sum missed =>
      have hdrop := Ledger.sum_drop_credit ha amount k
      have hsum := Ledger.sum_credit ha amount
      simp only [Fits, Thread.observe] at h ⊢
      rw [hdrop, hsum, ← h]
      by_cases hk : a < k
      · rw [if_pos hk, if_neg (Nat.not_le_of_lt hk)]
        ring
      · rw [if_neg hk, if_pos (Nat.le_of_not_lt hk)]
        ring
  | idle => trivial
  | _ => simpa [Fits, Thread.observe] using h

theorem inFlight_observe (a : Nat) (amount : ℚ) (th : Thread) : (th.observe a amount).inFlight = th.inFlight := by
  cases th <;> rfl

theorem inFlight_goTo (hi : s.threads[i]? = some th) (k : Thread) :
    (s.goTo i k).inFlight = s.inFlight - th.inFlight + k.inFlight :=
  Ledger.sum_map_set Thread.inFlight hi k

theorem inFlight_changeMoney (a : Nat) (amount : ℚ) (s : LockedBank) :
    (s.changeMoney a amount).inFlight = s.inFlight := by
  rw [inFlight, changeMoney, List.map_map, inFlight]
  congr 1
  apply List.map_congr_left
  exact fun th _ => inFlight_observe a amount th

theorem changeMoney_observed (hi : s.threads[i]? = some th) (hth : th.observe a amount = th) :
    (s.changeMoney a amount).threads[i]? = some th := by
  rw [changeMoney, List.getElem?_map, hi, Option.map_some, hth]

namespace Inv

theorem goTo (h : Inv money s) (hi : s.threads[i]? = some th) {k : Thread} (hk : Fits s.accounts k)
    (hsame : k.inFlight = th.inFlight) : Inv money (s.goTo i k) := by
  refine ⟨fun x hx => ?_, ?_, h.observed⟩
  · rcases List.mem_or_eq_of_mem_set hx with hx | rfl
    · exact h.fits x hx
    · exact hk
  · rw [inFlight_goTo hi, hsame, sub_add_cancel]
    exact h.conserved

theorem change (h : Inv money s) (hi : s.threads[i]? = some th) (hth : th.observe a amount = th)
    (ha : a < s.accounts.length) {k : Thread} (hk : Fits (Ledger.credit a amount s.accounts) k)
    (hflight : k.inFlight = th.inFlight - amount) : Inv money ((s.changeMoney a amount).goTo i k) := by
  refine ⟨fun x hx => ?_, ?_, h.observed⟩
  · rcases List.mem_or_eq_of_mem_set hx with hx | rfl
    · obtain ⟨y, hy, rfl⟩ := List.mem_map.mp hx
      exact fits_observe ha (h.fits y hy)
    · exact hk
  · rw [inFlight_goTo (changeMoney_observed hi hth), inFlight_changeMoney, hflight, ← h.conserved]
    have hsum : ((s.changeMoney a amount).goTo i k).accounts.sum = s.accounts.sum + amount :=
      Ledger.sum_credit ha amount
    rw [hsum]
    ring

theorem finish (h : Inv money s) {k : Nat} {sum missed : ℚ} (hi : s.threads[i]? = some (.totalling k sum missed))
    (hk : s.accounts[k]? = none) :
    Inv money { s.goTo i .idle with totals := s.totals ++ [⟨sum, missed, s.inFlight⟩] } := by
  obtain ⟨h1, h2, -⟩ := h.goTo hi (k := .idle) trivial rfl
  refine ⟨h1, h2, fun o ho => ?_⟩
  rcases List.mem_append.mp ho with ho | ho
  · exact h.observed o ho
  · rw [List.mem_singleton.mp ho, ← h.conserved]
    have hfits := h.fits _ (List.mem_of_getElem? hi)
    simp only [Fits] at hfits
    rw [List.drop_eq_nil_of_le (List.getElem?_eq_none_iff.mp hk), List.sum_nil] at hfits
    rw [← hfits]
    ring

theorem read (h : Inv money s) {k : Nat} {sum missed m : ℚ} (hi : s.threads[i]? = some (.totalling k sum missed))
    (hk : s.accounts[k]? = some m) : Inv money (s.goTo i (.totalling (k + 1) (sum + m) missed)) := by
  refine h.goTo hi ?_ rfl
  have hfits := h.fits _ (List.mem_of_getElem? hi)
  obtain ⟨hlt, rfl⟩ := List.getElem?_eq_some_iff.mp hk
  simp only [Fits] at hfits ⊢
  rw [List.drop_eq_getElem_cons hlt, List.sum_cons] at hfits
  rw [← hfits]
  ring

theorem advance (h : Inv money s) (hs : s.advance i = some t) : Inv money t := by
  rw [LockedBank.advance] at hs
  split at hs
  next alice bob amount hi =>
    obtain ⟨-, he⟩ := Option.ite_none_left_eq_some.mp hs
    cases he
    have hfits := h.fits _ (List.mem_of_getElem? hi)
    exact h.goTo hi (k := .locked alice bob amount) hfits rfl
  next alice bob amount hi =>
    have hfits := h.fits _ (List.mem_of_getElem? hi)
    split at hs
    next m hm =>
      cases hs
      split
      next => exact h.goTo hi trivial rfl
      next =>
        refine h.change hi rfl hfits.1 ?_ (by simp [Thread.inFlight])
        simpa [Fits] using hfits
    next => cases hs
  next alice bob amount hi =>
    cases hs
    exact h.change hi rfl (h.fits _ (List.mem_of_getElem? hi)).2 trivial (by simp [Thread.inFlight])
  next k sum missed hi =>
    split at hs
    next m hm =>
      cases hs
      exact h.read hi hm
    next hk =>
      cases hs
      exact h.finish hi hk
  next => cases hs

theorem step {act : Act} (h : Inv money s) (hs : step act s = some t) : Inv money t := by
  cases act with
  | transferMoney i alice bob amount =>
      obtain ⟨⟨hi, hvalid⟩, he⟩ := Option.ite_none_right_eq_some.mp hs
      cases he
      exact h.goTo hi hvalid rfl
  | total i =>
      obtain ⟨hi, he⟩ := Option.ite_none_right_eq_some.mp hs
      cases he
      refine h.goTo hi ?_ rfl
      simp [Fits]
  | advance i => exact h.advance hs

end Inv

theorem inv_of_reachable {balances : List ℚ} (h : Reachable (start balances) step always s) : Inv balances.sum s := by
  apply h.invariant (I := Inv balances.sum) ?_ (fun _ _ _ hi _ hs => hi.step hs)
  rintro _ ⟨threads, rfl⟩
  refine ⟨fun th hth => ?_, by simp [inFlight, Thread.inFlight], fun o ho => by cases ho⟩
  rw [List.eq_of_mem_replicate hth]
  trivial

/-- A value of total is right exactly when the changes to accounts it had read already,
and what is withdrawn and not yet deposited at its end, add up to 0. -/
theorem total_right_iff (balances : List ℚ) (s : LockedBank) (h : Reachable (start balances) step always s)
    (o : Observation) (ho : o ∈ s.totals) : o.value = balances.sum ↔ o.missed + o.inFlight = 0 := by
  rw [← (inv_of_reachable h).observed o ho, add_assoc]
  exact left_eq_add

theorem total_right_iff_around :
    ∃ s, Reachable (start [100, 100]) step always s ∧ s.totals = [⟨200, -30, 30⟩] ∧
      ((200 : ℚ) = [100, (100 : ℚ)].sum ↔ (-30 : ℚ) + 30 = 0) := by
  have hrun : (run (guarded step always) [.transferMoney 0 0 1 30, .total 1, .advance 1, .advance 0, .advance 0,
      .advance 1, .advance 1] ⟨[100, 100], List.replicate 2 .idle, []⟩).map (fun s => s.totals) =
      some [⟨200, -30, 30⟩] := by decide +kernel
  obtain ⟨s, hr, he⟩ := reachable_of_run (start [100, 100]) hrun ⟨2, rfl⟩
  exact ⟨s, hr, he, total_right_iff [100, 100] s hr ⟨200, -30, 30⟩ (by rw [he]; simp)⟩

/-- Between the two changes of a transfer total misses what is in flight. -/
theorem total_sees_half_transfer :
    ¬ ∀ (balances : List ℚ) (s : LockedBank), Reachable (start balances) step always s → ∀ o ∈ s.totals,
      o.value = balances.sum := by
  intro h
  have hrun : (run (guarded step always) [.transferMoney 0 0 1 30, .advance 0, .advance 0, .total 1, .advance 1,
      .advance 1, .advance 1] ⟨[100, 100], List.replicate 2 .idle, []⟩).map (fun s => s.totals) =
      some [⟨170, 0, 30⟩] := by decide +kernel
  obtain ⟨s, hr, he⟩ := reachable_of_run (start [100, 100]) hrun ⟨2, rfl⟩
  have hright := h [100, 100] s hr ⟨170, 0, 30⟩ (by rw [he]; simp)
  exact absurd hright (by decide +kernel)

section Finishing

variable {init : LockedBank → Prop}

def stepsLeft (n : Nat) : Thread → Nat
  | .idle => 0
  | .locking _ _ _ => 3
  | .locked _ _ _ => 2
  | .debited _ _ _ => 1
  | .totalling k _ _ => n - k + 1

def work (s : LockedBank) : Nat := (s.threads.map (stepsLeft s.accounts.length)).sum

theorem stepsLeft_observe (n a : Nat) (amount : ℚ) (th : Thread) :
    stepsLeft n (th.observe a amount) = stepsLeft n th := by
  cases th <;> rfl

theorem work_changeMoney (a : Nat) (amount : ℚ) (s : LockedBank) : (s.changeMoney a amount).work = s.work := by
  rw [work, work, changeMoney, Ledger.length_credit, List.map_map]
  congr 1
  apply List.map_congr_left
  exact fun th _ => stepsLeft_observe _ a amount th

theorem work_goTo {k : Thread} (hi : s.threads[i]? = some th)
    (hlt : stepsLeft s.accounts.length k < stepsLeft s.accounts.length th) : (s.goTo i k).work < s.work :=
  Ledger.sum_map_set_lt (stepsLeft s.accounts.length) hi hlt

theorem work_advance (hs : s.advance i = some t) : t.work < s.work := by
  rw [advance] at hs
  split at hs
  next alice bob amount hi =>
    obtain ⟨-, he⟩ := Option.ite_none_left_eq_some.mp hs
    cases he
    exact work_goTo hi (by simp [stepsLeft])
  next alice bob amount hi =>
    split at hs
    next m hm =>
      cases hs
      split
      next => exact work_goTo hi (by simp [stepsLeft])
      next =>
        rw [← work_changeMoney alice (-amount) s]
        exact work_goTo (changeMoney_observed hi rfl) (by simp [stepsLeft])
    next => cases hs
  next alice bob amount hi =>
    cases hs
    rw [← work_changeMoney bob amount s]
    exact work_goTo (changeMoney_observed hi rfl) (by simp [stepsLeft])
  next k sum missed hi =>
    split at hs
    next m hm =>
      cases hs
      have hk := (List.getElem?_eq_some_iff.mp hm).1
      exact work_goTo hi (by simp only [stepsLeft]; omega)
    next =>
      cases hs
      exact work_goTo hi (by simp [stepsLeft])
  next => cases hs

/-- A transfer from an account to itself waits for two locks that are one. -/
def locksTwice : Thread → Bool
  | .locking alice bob _ => alice = bob
  | _ => false

theorem threads_goTo_of_ne {j : Nat} (hji : j ≠ i) (k : Thread) : (s.goTo j k).threads[i]? = s.threads[i]? :=
  List.getElem?_set_ne hji

theorem stays_locking {j alice : Nat} (hi : s.threads[i]? = some (.locking alice alice amount))
    (hs : s.advance j = some t) : t.threads[i]? = some (.locking alice alice amount) := by
  have hne : j ≠ i := by
    rintro rfl
    rw [advance, hi] at hs
    simp at hs
  rw [advance] at hs
  split at hs
  next =>
    obtain ⟨-, he⟩ := Option.ite_none_left_eq_some.mp hs
    cases he
    rwa [threads_goTo_of_ne hne]
  next =>
    split at hs
    next =>
      cases hs
      split
      · rwa [threads_goTo_of_ne hne]
      · rw [threads_goTo_of_ne hne]
        exact changeMoney_observed hi rfl
    next => cases hs
  next =>
    cases hs
    rw [threads_goTo_of_ne hne]
    exact changeMoney_observed hi rfl
  next =>
    split at hs
    · cases hs
      rwa [threads_goTo_of_ne hne]
    · cases hs
      exact (threads_goTo_of_ne hne _).trans hi
  next => cases hs

theorem mem_observe {accounts : List Thread} (hth : th ∈ accounts.map (Thread.observe a amount)) (h : locksTwice th) :
    th ∈ accounts := by
  obtain ⟨k, hk, rfl⟩ := List.mem_map.mp hth
  cases k with
  | locking => exact hk
  | idle | locked | debited | totalling => cases h

theorem locksTwice_mem (hs : s.advance i = some t) (hth : th ∈ t.threads) (h : locksTwice th) : th ∈ s.threads := by
  have hgoTo {u : LockedBank} {k : Thread} (hk : locksTwice k = false) (hmem : th ∈ (u.goTo i k).threads) :
      th ∈ u.threads := by
    rcases List.mem_or_eq_of_mem_set hmem with hmem | rfl
    · exact hmem
    · rw [hk] at h
      cases h
  rw [advance] at hs
  split at hs
  next =>
    obtain ⟨-, he⟩ := Option.ite_none_left_eq_some.mp hs
    cases he
    exact hgoTo rfl hth
  next =>
    split at hs
    next =>
      cases hs
      split at hth
      · exact hgoTo rfl hth
      · exact mem_observe (hgoTo rfl hth) h
    next => cases hs
  next =>
    cases hs
    exact mem_observe (hgoTo rfl hth) h
  next =>
    split at hs
    · cases hs
      exact hgoTo rfl hth
    · cases hs
      exact hgoTo (k := .idle) rfl hth
  next => cases hs

/-- Between two steps of a transfer that has the locks, or of total, nothing is waited for. -/
def underWay : Thread → Bool
  | .idle | .locking _ _ _ => false
  | _ => true

/-- lock takes both locks or none, so a thread that waits keeps nobody waiting. -/
theorem exists_advance (h : Inv money s) (hi : s.threads[i]? = some th) (hidle : th ≠ .idle)
    (hone : locksTwice th = false) : ∃ j t, s.advance j = some t := by
  by_cases hany : ∃ (j : Nat) (k : Thread), s.threads[j]? = some k ∧ underWay k = true
  · obtain ⟨j, k, hj, hk⟩ := hany
    have hfits := h.fits k (List.mem_of_getElem? hj)
    refine ⟨j, ?_⟩
    cases k with
    | idle | locking => cases hk
    | locked alice bob amount => simp [advance, hj, List.getElem?_eq_getElem hfits.1]
    | debited alice bob amount => simp [advance, hj]
    | totalling k sum missed => cases hk : s.accounts[k]? <;> simp [advance, hj, hk]
  · have hnone : ∀ a, s.threads.any (Thread.holds a) = false := by
      intro a
      rw [List.any_eq_false]
      intro k hk
      obtain ⟨j, hj⟩ := List.mem_iff_getElem?.mp hk
      cases k with
      | idle | locking | totalling => simp [Thread.holds]
      | locked | debited => exact absurd ⟨j, _, hj, rfl⟩ hany
    cases th with
    | idle => exact absurd rfl hidle
    | locking alice bob amount => exact ⟨i, by simp [advance, hi, hnone, of_decide_eq_false hone]⟩
    | locked | debited | totalling => exact absurd ⟨i, _, hi, rfl⟩ hany

theorem Inv.finishes (h : Inv money s) (hone : ∀ th ∈ s.threads, locksTwice th = false)
    (hr : Reachable init LockedBank.advance always s) :
    ∃ t, Reachable init LockedBank.advance always t ∧ Inv money t ∧ ∀ th ∈ t.threads, th = .idle := by
  have hgo : ∀ s, (Inv money s ∧ ∀ th ∈ s.threads, locksTwice th = false) →
      (∀ th ∈ s.threads, th = .idle) ∨ ∃ i t, always i s ∧ s.advance i = some t ∧
        (Inv money t ∧ ∀ th ∈ t.threads, locksTwice th = false) ∧ t.work < s.work := by
    rintro s ⟨h, hone⟩
    by_cases hidle : ∀ th ∈ s.threads, th = .idle
    · exact .inl hidle
    · obtain ⟨th, hth⟩ := not_forall.mp hidle
      obtain ⟨hmem, hne⟩ := Classical.not_imp.mp hth
      obtain ⟨i, hi⟩ := List.mem_iff_getElem?.mp hmem
      obtain ⟨j, t, hs⟩ := exists_advance h hi hne (hone th hmem)
      refine .inr ⟨j, t, trivial, hs, ⟨h.advance hs, fun k hk => ?_⟩, work_advance hs⟩
      by_contra htwice
      exact htwice (hone k (locksTwice_mem hs hk ((Bool.not_eq_false _).mp htwice)))
  obtain ⟨t, hr', ⟨ht, -⟩, hidle⟩ := exists_done work hgo hr ⟨h, hone⟩
  exact ⟨t, hr', ht, hidle⟩

/-- Taking both locks at once ends in a deadlock only for a transfer from an account to itself: from
wherever the threads are they can all come to their end, and then all the money is there. -/
theorem transfers_never_deadlock (balances : List ℚ) (s : LockedBank) (h : Reachable (start balances) step always s) :
    (∃ t, Reachable (· = s) LockedBank.advance always t ∧ (∀ th ∈ t.threads, th = .idle) ∧
      t.accounts.sum = balances.sum) ↔ ∀ a amount, .locking a a amount ∉ s.threads := by
  constructor
  · rintro ⟨t, hr, hidle, -⟩ a amount hmem
    obtain ⟨i, hi⟩ := List.mem_iff_getElem?.mp hmem
    have hstays : t.threads[i]? = some (.locking a a amount) := by
      apply hr.invariant (I := fun t => t.threads[i]? = some (.locking a a amount))
      · rintro _ rfl
        exact hi
      · exact fun j s t hi _ hs => stays_locking hi hs
    cases hidle _ (List.mem_of_getElem? hstays)
  · intro hone
    have hself : Reachable (· = s) LockedBank.advance always s := .start rfl
    have hfalse : ∀ th ∈ s.threads, locksTwice th = false := by
      intro th hth
      cases th with
      | locking alice bob amount =>
          apply decide_eq_false
          rintro rfl
          exact hone _ _ hth
      | idle | locked | debited | totalling => rfl
    obtain ⟨t, hr, ht, hidle⟩ := (inv_of_reachable h).finishes hfalse hself
    have hflight : t.inFlight = 0 := by
      rw [inFlight, List.eq_replicate_of_mem hidle]
      simp [Thread.inFlight]
    have hsum := ht.conserved
    rw [hflight, add_zero] at hsum
    exact ⟨t, hr, hidle, hsum⟩

theorem transfers_never_deadlock_crossing :
    ∃ s, Reachable (start [100, 100]) step always s ∧
      s.threads = [.locked 0 1 30, .locking 1 0 50, .totalling 1 100 0] ∧
      ∃ t, Reachable (· = s) LockedBank.advance always t ∧ (∀ th ∈ t.threads, th = .idle) ∧
        t.accounts.sum = [100, (100 : ℚ)].sum := by
  have hrun : (run (guarded step always) [.transferMoney 0 0 1 30, .transferMoney 1 1 0 50, .total 2, .advance 0,
      .advance 2] ⟨[100, 100], List.replicate 3 .idle, []⟩).map (fun s => s.threads) =
      some [.locked 0 1 30, .locking 1 0 50, .totalling 1 100 0] := by decide +kernel
  obtain ⟨s, hr, he⟩ := reachable_of_run (start [100, 100]) hrun ⟨3, rfl⟩
  refine ⟨s, hr, he, (transfers_never_deadlock [100, 100] s hr).mpr fun a amount => ?_⟩
  rw [he]
  simp only [List.mem_cons, reduceCtorEq, Thread.locking.injEq, List.not_mem_nil, false_or, or_false, not_and]
  omega

end Finishing

end LockedBank

end LearnNote.Bank
