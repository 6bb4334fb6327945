import Mathlib.Data.List.OfFn
import LearnNote.Bank.SleepingBank
import LearnNote.Bank.WaitingBank

namespace LearnNote.Bank

open Lib Lib.Transition

section Lists

variable {α : Type*} {n : Nat}

theorem ofFn_update (f : Fin n → α) (i : Fin n) (x : α) :
    List.ofFn (Function.update f i x) = (List.ofFn f).set i x := by
  apply List.ext_getElem
  · simp
  · intro k hk _
    rw [List.length_ofFn] at hk
    rw [List.getElem_ofFn, List.getElem_set, List.getElem_ofFn, Function.update_apply]
    exact if_congr (by rw [Fin.ext_iff, eq_comm]) rfl rfl

theorem credit_ofFn (money : Fin n → ℚ) (k : Fin n) (x : ℚ) :
    Ledger.credit k x (List.ofFn money) = List.ofFn (Function.update money k (money k + x)) := by
  have hk : (k : Nat) < (List.ofFn money).length := by
    rw [List.length_ofFn]
    exact k.isLt
  rw [Ledger.credit, List.modify_eq_set_get _ hk, ofFn_update, List.get_eq_getElem, List.getElem_ofFn]

end Lists

variable {κ θ : Type} {n m : Nat}

/-- What of a thread's place matters to the money: the locks, the tests and the sleep do not. -/
def Spot.transfer (alice bob : Nat) : Spot → Transfer
  | .idle => .idle
  | .busy .withdrawal stage amount =>
      if stage.changed then .depositing bob amount else .withdrawing alice bob amount
  | .busy .deposit stage amount => if stage.changed then .idle else .depositing bob amount

namespace SleepingBank

variable {r : Threads (Fin n) (Fin m)} {s s' : SleepingBank (Fin n) (Fin m)} {t : Fin m} {p : Spot}
  {balances : Fin n → ℚ}

def transfer (r : Threads (Fin n) (Fin m)) (spots : Fin m → Spot) (t : Fin m) : Transfer :=
  (spots t).transfer (r.alice t) (r.bob t)

/-- The bank without locks and sleepers. -/
def awake (r : Threads (Fin n) (Fin m)) (s : SleepingBank (Fin n) (Fin m)) : WaitingBank :=
  ⟨List.ofFn s.money, List.ofFn (transfer r s.spots)⟩

theorem transfer_update (spots : Fin m → Spot) (t : Fin m) (p : Spot) :
    transfer r (Function.update spots t p) =
      Function.update (transfer r spots) t (p.transfer (r.alice t) (r.bob t)) := by
  funext u
  by_cases hu : u = t
  · subst hu
    simp [transfer]
  · simp [transfer, Function.update_of_ne hu]

theorem awake_goTo (t : Fin m) (p : Spot) (s : SleepingBank (Fin n) (Fin m)) :
    (s.goTo t p).awake r =
      ⟨List.ofFn s.money, (List.ofFn (transfer r s.spots)).set t (p.transfer (r.alice t) (r.bob t))⟩ := by
  rw [awake, goTo, transfer_update, ofFn_update]

theorem threads_awake (hp : s.spots t = p) :
    (s.awake r).threads[(t : Nat)]? = some (p.transfer (r.alice t) (r.bob t)) := by
  rw [← hp, awake]
  simp [transfer]

theorem awake_goTo_same (hp : p.transfer (r.alice t) (r.bob t) = transfer r s.spots t) :
    (s.goTo t p).awake r = s.awake r := by
  rw [awake_goTo, hp, ← ofFn_update, Function.update_eq_self, awake]

theorem awake_notifyAll (k : Fin n) (s : SleepingBank (Fin n) (Fin m)) :
    (s.notifyAll r k).awake r = s.awake r := by
  have hsame : transfer r (s.notifyAll r k).spots = transfer r s.spots := by
    funext u
    simp only [transfer, notifyAll]
    split
    next half amount hp =>
      rw [hp]
      split
      · cases half <;> rfl
      · rfl
    next => rfl
  rw [awake, hsame, money_notifyAll, awake]

theorem advance_change {half : Half} {amount : ℚ} (hp : s.spots t = .busy half .changing amount)
    (hpass : 0 < s.money (r.account t half) + half.change amount) :
    WaitingBank.step (.advance t) (s.awake r) =
      some (((s.changeMoney (r.account t half) (half.change amount)).goTo t (.busy half .notifying amount)).awake r) := by
  have hmoney : (s.awake r).accounts[(r.account t half : Nat)]? = some (s.money (r.account t half)) := by
    rw [awake]
    simp
  have hchange : WaitingBank.changeMoney (r.account t half) (half.change amount) (s.awake r).accounts =
      some (List.ofFn (s.changeMoney (r.account t half) (half.change amount)).money) := by
    rw [WaitingBank.changeMoney, hmoney]
    dsimp only
    rw [if_pos hpass, awake, credit_ofFn]
    rfl
  rw [awake_goTo, WaitingBank.step, WaitingBank.advance, threads_awake hp]
  cases half with
  | withdrawal => exact (congrArg (Option.map _) hchange).trans rfl
  | deposit => exact (congrArg (Option.map _) hchange).trans rfl

/-- Each step of a call is a change of an account, or nothing to the model without sleepers. -/
theorem awake_moved (h : Inv r s) (hm : Moved r t s s') :
    s'.awake r = s.awake r ∨ WaitingBank.step (.advance t) (s.awake r) = some (s'.awake r) := by
  have hfits := h.fits t
  have hsame {u : SleepingBank (Fin n) (Fin m)} {p q : Spot} (hq : s.spots t = q) (hspots : u.spots = s.spots)
      (hu : u.awake r = s.awake r) (hp : p.transfer (r.alice t) (r.bob t) = q.transfer (r.alice t) (r.bob t)) :
      (u.goTo t p).awake r = s.awake r := by
    rw [awake_goTo_same (by rw [hp, transfer, hspots, hq]), hu]
  cases hm with
  | enter half amount hp hfree he =>
      subst he
      exact .inl (hsame hp rfl rfl (by cases half <;> rfl))
  | pass half amount hp hpass he =>
      subst he
      exact .inl (hsame hp rfl rfl (by cases half <;> rfl))
  | sleep half amount hp hfail he =>
      subst he
      exact .inl (hsame hp rfl rfl (by cases half <;> rfl))
  | change half amount hp he =>
      subst he
      rw [hp] at hfits
      exact .inr (advance_change hp (hfits.2.2.1 rfl))
  | notify half amount hp he =>
      subst he
      have hspot : (s.notifyAll r (r.account t half)).spots t = .busy half .notifying amount := by
        rw [spots_notifyAll fun half' amount' hp' => ?_, hp]
        cases hp.symm.trans hp'
      left
      rw [awake_goTo_same (by rw [transfer, hspot]; cases half <;> rfl), awake_notifyAll]
  | goOn amount hp he =>
      subst he
      exact .inl (hsame hp rfl rfl rfl)
  | finish amount hp he =>
      subst he
      exact .inl (hsame hp rfl rfl rfl)

/-- The locks and the waits of changeMoney come to the one step that tests and changes: every run of
the model with sleepers is one of the model without. -/
theorem refines_waitingBank (hpos : ∀ k, 0 < balances k) (h : Reachable (start balances) (step r) always s) :
    Reachable (WaitingBank.start (List.ofFn balances)) WaitingBank.step always (s.awake r) := by
  induction h with
  | start h =>
      cases h
      exact .start ⟨m, congrArg (WaitingBank.mk _) (List.ofFn_const m Transfer.idle)⟩
  | next call h _ hs ih =>
      cases call with
      | transferMoney t amount =>
          obtain ⟨⟨hp, -⟩, he⟩ := Option.ite_none_right_eq_some.mp hs
          cases he
          refine .next (.transferMoney t (r.alice t) (r.bob t) amount) ih trivial ?_
          rw [awake_goTo]
          exact if_pos (threads_awake hp)
      | advance t =>
          rcases awake_moved (inv_of_reachable hpos h) (moved_of_advance hs) with hsame | hs'
          · rwa [hsame]
          · exact .next _ ih trivial hs'
      | spurious t =>
          simp only [step] at hs
          split at hs
          next half amount hp =>
            cases hs
            rwa [awake_goTo_same]
            rw [transfer, hp]
            cases half <;> rfl
          next => cases hs

end SleepingBank

end LearnNote.Bank
