import Mathlib.Data.Rat.Defs
import Mathlib.Algebra.Order.Ring.Rat
import Mathlib.Tactic.Ring
import LearnNote.Lib.Ledger
import LearnNote.Lib.Transition

namespace LearnNote.Bank

open Lib Lib.Transition

/-- Where a thread is in transferMoney: about to withdraw, or to deposit. -/
inductive Transfer
  | idle
  | withdrawing (alice bob : Nat) (amount : ℚ)
  | depositing (bob : Nat) (amount : ℚ)
deriving DecidableEq

namespace Transfer

def inFlight : Transfer → ℚ
  | .depositing _ amount => amount
  | _ => 0

end Transfer

/-- The money of the accounts, and the threads. -/
structure WaitingBank where
  accounts : List ℚ
  threads : List Transfer

namespace WaitingBank

/-- The locked body, when the money is sufficient; until then the caller waits. -/
def changeMoney (a : Nat) (amount : ℚ) (accounts : List ℚ) : Option (List ℚ) :=
  match accounts[a]? with
  | some money => if 0 < money + amount then some (Ledger.credit a amount accounts) else none
  | none => none

def advance (i : Nat) (s : WaitingBank) : Option WaitingBank :=
  match s.threads[i]? with
  | some (.withdrawing alice bob amount) =>
      (changeMoney alice (-amount) s.accounts).map (fun accounts =>
        ⟨accounts, s.threads.set i (.depositing bob amount)⟩)
  | some (.depositing bob amount) =>
      (changeMoney bob amount s.accounts).map (fun accounts => ⟨accounts, s.threads.set i .idle⟩)
  | _ => none

inductive Act
  | transferMoney (i alice bob : Nat) (amount : ℚ)
  | advance (i : Nat)

def step : Act → WaitingBank → Option WaitingBank
  | .transferMoney i alice bob amount, s =>
      if s.threads[i]? = some .idle then some { s with threads := s.threads.set i (.withdrawing alice bob amount) }
      else none
  | .advance i, s => s.advance i

def start (balances : List ℚ) (s : WaitingBank) : Prop :=
  ∃ threads, s = ⟨balances, List.replicate threads .idle⟩

def total (s : WaitingBank) : ℚ := s.accounts.sum

def inFlight (s : WaitingBank) : ℚ := (s.threads.map Transfer.inFlight).sum

structure Inv (money : ℚ) (s : WaitingBank) : Prop where
  positive : ∀ m ∈ s.accounts, 0 < m
  conserved : s.total + s.inFlight = money

variable {s t : WaitingBank} {money amount : ℚ} {accounts accounts' : List ℚ} {a i : Nat}

theorem changeMoney_spec (h : changeMoney a amount accounts = some accounts') (hpos : ∀ m ∈ accounts, 0 < m) :
    (∀ m ∈ accounts', 0 < m) ∧ accounts'.sum = accounts.sum + amount := by
  rw [changeMoney] at h
  split at h
  next m hm =>
    obtain ⟨hlt, he⟩ := Option.ite_none_right_eq_some.mp h
    cases he
    refine ⟨fun x hx => ?_, Ledger.sum_credit (List.getElem?_eq_some_iff.mp hm).1 amount⟩
    obtain ⟨b, hb⟩ := List.mem_iff_getElem?.mp hx
    rw [Ledger.credit, List.getElem?_modify] at hb
    obtain ⟨y, hy, rfl⟩ := Option.map_eq_some_iff.mp hb
    by_cases hab : a = b
    · rw [hab] at hm
      cases hm.symm.trans hy
      rw [if_pos hab]
      exact hlt
    · rw [if_neg hab]
      exact hpos y (List.mem_of_getElem? hy)
  next => cases h

theorem Inv.change (h : Inv money s) {k v : Transfer} (hi : s.threads[i]? = some k)
    (hs : changeMoney a amount s.accounts = some accounts') (hflight : v.inFlight = k.inFlight - amount) :
    Inv money ⟨accounts', s.threads.set i v⟩ := by
  obtain ⟨hpos, hsum⟩ := changeMoney_spec hs h.positive
  refine ⟨hpos, ?_⟩
  rw [total, inFlight, hsum, Ledger.sum_map_set Transfer.inFlight hi, hflight, ← h.conserved, total, inFlight]
  ring

theorem Inv.step {act : Act} (h : Inv money s) (hs : step act s = some t) : Inv money t := by
  cases act with
  | transferMoney i alice bob amount =>
      obtain ⟨hi, he⟩ := Option.ite_none_right_eq_some.mp hs
      cases he
      refine ⟨h.positive, ?_⟩
      rw [← h.conserved, inFlight, Ledger.sum_map_set Transfer.inFlight hi]
      simp [Transfer.inFlight, total, inFlight]
  | advance i =>
      simp only [WaitingBank.step, advance] at hs
      split at hs
      next alice bob amount hi =>
        obtain ⟨accounts', hchange, rfl⟩ := Option.map_eq_some_iff.mp hs
        exact h.change hi hchange (by simp [Transfer.inFlight])
      next bob amount hi =>
        obtain ⟨accounts', hchange, rfl⟩ := Option.map_eq_some_iff.mp hs
        exact h.change hi hchange (by simp [Transfer.inFlight])
      next => cases hs

/-- Balances stay positive, and no money is lost or made, whatever is half done. -/
theorem money_conserved (balances : List ℚ) (hpos : ∀ m ∈ balances, 0 < m) (s : WaitingBank)
    (h : Reachable (start balances) step always s) :
    (∀ m ∈ s.accounts, 0 < m) ∧ s.total + s.inFlight = balances.sum := by
  have hi : Inv balances.sum s := by
    apply h.invariant (I := Inv balances.sum) ?_ (fun _ _ _ hi _ hs => hi.step hs)
    rintro _ ⟨threads, rfl⟩
    exact ⟨hpos, by simp [total, inFlight, Transfer.inFlight]⟩
  exact ⟨hi.positive, hi.conserved⟩

/-- Two threads have withdrawn, one of them for a transfer from an account to itself. -/
theorem money_conserved_half_done :
    ∃ s, Reachable (start [100, 1 / 3]) step always s ∧ s.accounts = [199 / 2, 1 / 4] ∧
      s.total + s.inFlight = [100, (1 / 3 : ℚ)].sum := by
  have hrun : (run (guarded step always) [.transferMoney 0 0 1 (1 / 2), .transferMoney 1 1 1 (1 / 12), .advance 1,
      .advance 0] ⟨[100, 1 / 3], List.replicate 2 .idle⟩).map (fun s => s.accounts) = some [199 / 2, 1 / 4] := by
    decide +kernel
  obtain ⟨s, hr, he⟩ := reachable_of_run (start [100, 1 / 3]) hrun ⟨2, rfl⟩
  exact ⟨s, hr, he, (money_conserved [100, 1 / 3] (by decide +kernel) s hr).2⟩

end WaitingBank

end LearnNote.Bank
