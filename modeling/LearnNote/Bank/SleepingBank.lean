import Mathlib.Algebra.BigOperators.Group.Finset.Basic
import Mathlib.Algebra.Order.BigOperators.Group.Finset
import Mathlib.Algebra.Order.Ring.Rat
import Mathlib.Data.Fintype.BigOperators
import Mathlib.Tactic.Linarith
import Mathlib.Tactic.Ring
import LearnNote.Lib.Ledger
import LearnNote.Lib.Transition
import LearnNote.Lib.Waiting

namespace LearnNote.Bank

open Lib Lib.Transition

variable {κ θ : Type}

inductive Half
  | withdrawal
  | deposit
deriving DecidableEq

namespace Half

def account (alice bob : κ) : Half → κ
  | .withdrawal => alice
  | .deposit => bob

def change (amount : ℚ) : Half → ℚ
  | .withdrawal => -amount
  | .deposit => amount

end Half

/-- Where a thread is in changeMoney: before the lock, before the test of wait's condition,
asleep in wait without the lock, and with the lock again before the change, before
notify_all and before the lock is given up. -/
inductive Stage
  | entering
  | testing
  | asleep
  | changing
  | notifying
  | leaving
deriving DecidableEq

namespace Stage

def hasLock : Stage → Bool
  | .entering | .asleep => false
  | _ => true

def changed : Stage → Bool
  | .notifying | .leaving => true
  | _ => false

end Stage

inductive Spot
  | idle
  | busy (half : Half) (stage : Stage) (amount : ℚ)
deriving DecidableEq

namespace Spot

def inFlight : Spot → ℚ
  | .busy .withdrawal stage amount => if stage.changed then amount else 0
  | .busy .deposit stage amount => if stage.changed then 0 else amount
  | .idle => 0

end Spot

structure SleepingBank (κ θ : Type) where
  money : κ → ℚ
  locks : κ → Bool
  spots : θ → Spot

/-- The two accounts of each thread. -/
structure Threads (κ θ : Type) where
  alice : θ → κ
  bob : θ → κ

namespace Threads

def account (r : Threads κ θ) (t : θ) (half : Half) : κ := half.account (r.alice t) (r.bob t)

end Threads

namespace SleepingBank

def Has (r : Threads κ θ) (t : θ) : Spot → κ → Prop
  | .busy half stage _, k => stage.hasLock ∧ r.account t half = k
  | .idle, _ => False

variable [DecidableEq κ] [DecidableEq θ]

def goTo (t : θ) (p : Spot) (s : SleepingBank κ θ) : SleepingBank κ θ :=
  { s with spots := Function.update s.spots t p }

def setLock (k : κ) (b : Bool) (s : SleepingBank κ θ) : SleepingBank κ θ :=
  { s with locks := Function.update s.locks k b }

def changeMoney (k : κ) (amount : ℚ) (s : SleepingBank κ θ) : SleepingBank κ θ :=
  { s with money := Function.update s.money k (s.money k + amount) }

def notifyAll (r : Threads κ θ) (k : κ) (s : SleepingBank κ θ) : SleepingBank κ θ :=
  { s with
    spots := fun t =>
      match s.spots t with
      | .busy half .asleep amount => if r.account t half = k then .busy half .entering amount else s.spots t
      | p => p }

def advance (r : Threads κ θ) (t : θ) (s : SleepingBank κ θ) : Option (SleepingBank κ θ) :=
  match s.spots t with
  | .idle => none
  | .busy half .entering amount =>
      if s.locks (r.account t half) then none
      else some ((s.setLock (r.account t half) true).goTo t (.busy half .testing amount))
  | .busy half .testing amount =>
      if 0 < s.money (r.account t half) + half.change amount then some (s.goTo t (.busy half .changing amount))
      else some ((s.setLock (r.account t half) false).goTo t (.busy half .asleep amount))
  | .busy _ .asleep _ => none
  | .busy half .changing amount =>
      some ((s.changeMoney (r.account t half) (half.change amount)).goTo t (.busy half .notifying amount))
  | .busy half .notifying amount =>
      some ((s.notifyAll r (r.account t half)).goTo t (.busy half .leaving amount))
  | .busy .withdrawal .leaving amount =>
      some ((s.setLock (r.alice t) false).goTo t (.busy .deposit .entering amount))
  | .busy .deposit .leaving _ => some ((s.setLock (r.bob t) false).goTo t .idle)

inductive Call (θ : Type)
  | transferMoney (t : θ) (amount : ℚ)
  | advance (t : θ)
  | spurious (t : θ)

/-- The amounts of randomTransfer are from 0 to 100. A thread may wake up for no reason. -/
def step (r : Threads κ θ) : Call θ → SleepingBank κ θ → Option (SleepingBank κ θ)
  | .transferMoney t amount, s =>
      if s.spots t = .idle ∧ 0 ≤ amount ∧ amount ≤ 100 then some (s.goTo t (.busy .withdrawal .entering amount))
      else none
  | .advance t, s => s.advance r t
  | .spurious t, s =>
      match s.spots t with
      | .busy half .asleep amount => some (s.goTo t (.busy half .entering amount))
      | _ => none

def start (balances : κ → ℚ) (s : SleepingBank κ θ) : Prop := s = ⟨balances, fun _ => false, fun _ => .idle⟩

variable {r : Threads κ θ} {s s' : SleepingBank κ θ} {t u : θ} {p : Spot} {k : κ} {half : Half} {stage : Stage}
  {amount : ℚ} {balances : κ → ℚ}

/-- What one step of changeMoney does. -/
inductive Moved (r : Threads κ θ) (t : θ) (s s' : SleepingBank κ θ) : Prop
  | enter (half : Half) (amount : ℚ) (hp : s.spots t = .busy half .entering amount)
      (hfree : s.locks (r.account t half) = false)
      (he : s' = (s.setLock (r.account t half) true).goTo t (.busy half .testing amount))
  | pass (half : Half) (amount : ℚ) (hp : s.spots t = .busy half .testing amount)
      (hpass : 0 < s.money (r.account t half) + half.change amount) (he : s' = s.goTo t (.busy half .changing amount))
  | sleep (half : Half) (amount : ℚ) (hp : s.spots t = .busy half .testing amount)
      (hfail : ¬ 0 < s.money (r.account t half) + half.change amount)
      (he : s' = (s.setLock (r.account t half) false).goTo t (.busy half .asleep amount))
  | change (half : Half) (amount : ℚ) (hp : s.spots t = .busy half .changing amount)
      (he : s' = (s.changeMoney (r.account t half) (half.change amount)).goTo t (.busy half .notifying amount))
  | notify (half : Half) (amount : ℚ) (hp : s.spots t = .busy half .notifying amount)
      (he : s' = (s.notifyAll r (r.account t half)).goTo t (.busy half .leaving amount))
  | goOn (amount : ℚ) (hp : s.spots t = .busy .withdrawal .leaving amount)
      (he : s' = (s.setLock (r.account t .withdrawal) false).goTo t (.busy .deposit .entering amount))
  | finish (amount : ℚ) (hp : s.spots t = .busy .deposit .leaving amount)
      (he : s' = (s.setLock (r.account t .deposit) false).goTo t .idle)

theorem moved_of_advance (hs : s.advance r t = some s') : Moved r t s s' := by
  rw [advance] at hs
  split at hs
  next => cases hs
  next half amount hp =>
    obtain ⟨hfree, he⟩ := Option.ite_none_left_eq_some.mp hs
    exact .enter half amount hp (Bool.eq_false_iff.mpr hfree) (Option.some.inj he).symm
  next half amount hp =>
    split at hs
    next hpass => cases hs; exact .pass half amount hp hpass rfl
    next hfail => cases hs; exact .sleep half amount hp hfail rfl
  next => cases hs
  next half amount hp => cases hs; exact .change half amount hp rfl
  next half amount hp => cases hs; exact .notify half amount hp rfl
  next amount hp => cases hs; exact .goOn amount hp rfl
  next amount hp => cases hs; exact .finish amount hp rfl

theorem advance_of_moved (hm : Moved r t s s') : s.advance r t = some s' := by
  cases hm with
  | enter half amount hp hfree he => simp [advance, hp, hfree, he]
  | pass half amount hp hpass he => simp [advance, hp, hpass, he]
  | sleep half amount hp hfail he => simp [advance, hp, hfail, he]
  | change half amount hp he | notify half amount hp he | goOn amount hp he | finish amount hp he =>
      simp [advance, hp, he, Threads.account, Half.account]

/-- Only a sleeper, or someone at a lock that is taken, cannot go on. -/
theorem advance_eq_none_iff : s.advance r t = none ↔
    s.spots t = .idle ∨ (∃ half amount, s.spots t = .busy half .asleep amount) ∨
      ∃ half amount, s.spots t = .busy half .entering amount ∧ s.locks (r.account t half) = true := by
  rw [advance]
  cases hp : s.spots t with
  | idle => simp
  | busy half stage amount =>
      cases stage with
      | entering => simp
      | testing => simp; split <;> simp
      | leaving => cases half <;> simp
      | _ => simp

omit [DecidableEq κ] in
theorem spots_goTo_self (t : θ) (p : Spot) (s : SleepingBank κ θ) : (s.goTo t p).spots t = p := Function.update_self ..

omit [DecidableEq κ] in
theorem spots_goTo_of_ne (hne : u ≠ t) (p : Spot) : (s.goTo t p).spots u = s.spots u := Function.update_of_ne hne ..

omit [DecidableEq κ] in
@[simp] theorem money_goTo (t : θ) (p : Spot) (s : SleepingBank κ θ) : (s.goTo t p).money = s.money := rfl

omit [DecidableEq θ] in
@[simp] theorem money_setLock (k : κ) (b : Bool) (s : SleepingBank κ θ) : (s.setLock k b).money = s.money := rfl

omit [DecidableEq θ] in
@[simp] theorem money_notifyAll (k : κ) (s : SleepingBank κ θ) : (s.notifyAll r k).money = s.money := rfl

omit [DecidableEq θ] in
theorem money_changeMoney_self (k : κ) (amount : ℚ) (s : SleepingBank κ θ) :
    (s.changeMoney k amount).money k = s.money k + amount := Function.update_self ..

omit [DecidableEq θ] in
theorem money_changeMoney_of_ne {j : κ} (hne : j ≠ k) (amount : ℚ) (s : SleepingBank κ θ) :
    (s.changeMoney k amount).money j = s.money j := Function.update_of_ne hne ..

omit [DecidableEq θ] in
theorem spots_notifyAll (hu : ∀ half amount, s.spots u = .busy half .asleep amount → r.account u half ≠ k) :
    (s.notifyAll r k).spots u = s.spots u := by
  simp only [notifyAll]
  split
  next half amount hp => exact if_neg (hu half amount hp)
  next => rfl

omit [DecidableEq θ] in
theorem asleep_notifyAll (hp : (s.notifyAll r k).spots u = .busy half .asleep amount) :
    s.spots u = .busy half .asleep amount ∧ r.account u half ≠ k := by
  simp only [notifyAll] at hp
  split at hp
  next half' amount' hp' =>
    split at hp
    next => cases hp
    next hne =>
      rw [hp'] at hp
      cases hp
      exact ⟨hp', hne⟩
  next hawake => exact absurd hp (hawake half amount)

omit [DecidableEq θ] in
theorem has_notifyAll (u : θ) (j : κ) : Has r u ((s.notifyAll r k).spots u) j ↔ Has r u (s.spots u) j := by
  simp only [notifyAll]
  split
  next half amount hp =>
    rw [hp]
    split <;> simp [Has, Stage.hasLock]
  next => rfl

def LocksKept (r : Threads κ θ) (s : SleepingBank κ θ) : Prop := Mutexes s.locks (fun t => Has r t (s.spots t))

theorem LocksKept.moved (h : LocksKept r s) (hm : Moved r t s s') : LocksKept r s' := by
  cases hm with
  | enter half amount hp hfree he =>
      subst he
      exact Mutexes.take (Has r) h hfree hp (by simp [Has, Stage.hasLock, eq_comm])
  | sleep half amount hp _ he =>
      subst he
      exact Mutexes.give (Has r) h hp ⟨rfl, rfl⟩ (by simp [Has, Stage.hasLock, eq_comm])
  | goOn amount hp he =>
      subst he
      exact Mutexes.give (Has r) h hp ⟨rfl, rfl⟩ (by simp [Has, Stage.hasLock, eq_comm])
  | finish amount hp he =>
      subst he
      exact Mutexes.give (Has r) h hp ⟨rfl, rfl⟩ (by simp [Has, Stage.hasLock, eq_comm])
  | pass half amount hp _ he => subst he; exact Mutexes.stay (Has r) h hp (fun _ => Iff.rfl)
  | change half amount hp he => subst he; exact Mutexes.stay (Has r) h hp (fun _ => Iff.rfl)
  | notify half amount hp he =>
      subst he
      have hsame : (s.notifyAll r (r.account t half)).spots t = .busy half .notifying amount := by
        rw [spots_notifyAll fun half' amount' hp' => ?_, hp]
        cases hp.symm.trans hp'
      exact Mutexes.stay (Has r) (h.congr has_notifyAll) hsame (fun _ => Iff.rfl)

omit [DecidableEq κ] in
theorem LocksKept.begin (h : LocksKept r s) (hp : s.spots t = .idle) (half : Half) (amount : ℚ) :
    LocksKept r (s.goTo t (.busy half .entering amount)) :=
  Mutexes.stay (Has r) h hp (by simp [Has, Stage.hasLock])

omit [DecidableEq κ] in
theorem LocksKept.wake (h : LocksKept r s) (hp : s.spots t = .busy half .asleep amount) :
    LocksKept r (s.goTo t (.busy half .entering amount)) :=
  Mutexes.stay (Has r) h hp (fun _ => Iff.rfl)

/-- What a thread at its spot may count on. -/
def Fits (r : Threads κ θ) (money : κ → ℚ) (t : θ) : Spot → Prop
  | .idle => True
  | .busy half stage amount =>
      0 ≤ amount ∧ amount ≤ 100 ∧ (stage = .changing → 0 < money (r.account t half) + half.change amount) ∧
        (stage = .asleep → half = .withdrawal)

/-- Whoever sleeps though the money is there will be woken: someone holds the lock of the account and is
about to notify all. -/
def Awaited (r : Threads κ θ) (s : SleepingBank κ θ) : Prop :=
  ∀ t half amount, s.spots t = .busy half .asleep amount → 0 < s.money (r.account t half) + half.change amount →
    ∃ u half' amount', s.spots u = .busy half' .notifying amount' ∧ r.account u half' = r.account t half

structure Inv (r : Threads κ θ) (s : SleepingBank κ θ) : Prop where
  locks : LocksKept r s
  positive : ∀ k, 0 < s.money k
  fits : ∀ t, Fits r s.money t (s.spots t)
  awaited : Awaited r s

omit [DecidableEq κ] in
theorem fits_goTo (h : ∀ u, u ≠ t → Fits r s.money u (s.spots u)) (hp : Fits r s.money t p) (u : θ) :
    Fits r (s.goTo t p).money u ((s.goTo t p).spots u) := by
  by_cases hu : u = t
  · subst hu
    rwa [spots_goTo_self]
  · rw [spots_goTo_of_ne hu]
    exact h u hu

omit [DecidableEq κ] in
theorem awaited_goTo (h : Awaited r s) (hnot : ∀ half amount, s.spots t ≠ .busy half .notifying amount)
    (hp : ∀ half amount, p = .busy half .asleep amount → ¬ 0 < s.money (r.account t half) + half.change amount) :
    Awaited r (s.goTo t p) := by
  intro u half amount hu hlt
  by_cases hut : u = t
  · subst hut
    rw [spots_goTo_self] at hu
    exact absurd hlt (hp half amount hu)
  · rw [spots_goTo_of_ne hut] at hu
    obtain ⟨v, half', amount', hv, hsame⟩ := h u half amount hu hlt
    refine ⟨v, half', amount', ?_, hsame⟩
    rw [spots_goTo_of_ne, hv]
    rintro rfl
    exact hnot half' amount' hv

theorem awaited_change (h : Awaited r s) (hp : s.spots t = .busy half .changing amount) :
    Awaited r ((s.changeMoney (r.account t half) (half.change amount)).goTo t (.busy half .notifying amount)) := by
  intro u half' amount' hu hlt
  by_cases hsame : r.account t half = r.account u half'
  · exact ⟨t, half, amount, spots_goTo_self .., hsame⟩
  · have hut : u ≠ t := by
      rintro rfl
      rw [spots_goTo_self] at hu
      cases hu
    rw [spots_goTo_of_ne hut] at hu
    rw [money_goTo, money_changeMoney_of_ne (Ne.symm hsame)] at hlt
    obtain ⟨v, half'', amount'', hv, hacc⟩ := h u half' amount' hu hlt
    refine ⟨v, half'', amount'', ?_, hacc⟩
    rw [spots_goTo_of_ne]
    · exact hv
    · rintro rfl
      cases hp.symm.trans hv

theorem awaited_notify (h : Awaited r s) (hp : s.spots t = .busy half .notifying amount) :
    Awaited r ((s.notifyAll r (r.account t half)).goTo t (.busy half .leaving amount)) := by
  intro u half' amount' hu hlt
  have hut : u ≠ t := by
    rintro rfl
    rw [spots_goTo_self] at hu
    cases hu
  rw [spots_goTo_of_ne hut] at hu
  obtain ⟨hu, hne⟩ := asleep_notifyAll hu
  obtain ⟨v, half'', amount'', hv, hacc⟩ := h u half' amount' hu hlt
  refine ⟨v, half'', amount'', ?_, hacc⟩
  rw [spots_goTo_of_ne, spots_notifyAll, hv]
  · intro _ _ hv'
    cases hv.symm.trans hv'
  · rintro rfl
    cases hp.symm.trans hv
    exact hne hacc.symm

omit [DecidableEq θ] in
theorem Inv.others (h : Inv r s) (hk : Has r t (s.spots t) k) (x : ℚ) (u : θ) (hut : u ≠ t) :
    Fits r (s.changeMoney k x).money u (s.spots u) := by
  have hfits := h.fits u
  cases hu : s.spots u with
  | idle => trivial
  | busy half stage amount =>
      rw [hu] at hfits
      refine ⟨hfits.1, hfits.2.1, fun hstage => ?_, hfits.2.2.2⟩
      have hne : r.account u half ≠ k := by
        intro hacc
        have hhas : Has r u (s.spots u) k := by
          rw [hu, hstage]
          exact ⟨rfl, hacc⟩
        exact hut (h.locks.sole u t k hhas hk)
      rw [money_changeMoney_of_ne hne]
      exact hfits.2.2.1 hstage

omit [DecidableEq θ] in
theorem fits_notifyAll (h : Fits r s.money u (s.spots u)) : Fits r s.money u ((s.notifyAll r k).spots u) := by
  simp only [notifyAll]
  split
  next half amount hp =>
    split
    next =>
      rw [hp] at h
      exact ⟨h.1, h.2.1, nofun, nofun⟩
    next => exact h
  next => exact h

theorem Inv.moved (h : Inv r s) (hm : Moved r t s s') : Inv r s' := by
  have hlocks := h.locks.moved hm
  have hfits := h.fits t
  have hothers : ∀ u, u ≠ t → Fits r s.money u (s.spots u) := fun u _ => h.fits u
  cases hm with
  | enter half amount hp hfree he =>
      subst he
      rw [hp] at hfits
      exact ⟨hlocks, h.positive, fits_goTo hothers ⟨hfits.1, hfits.2.1, nofun, nofun⟩,
        awaited_goTo h.awaited (by simp [setLock, hp]) nofun⟩
  | pass half amount hp hpass he =>
      subst he
      rw [hp] at hfits
      exact ⟨hlocks, h.positive, fits_goTo hothers ⟨hfits.1, hfits.2.1, fun _ => hpass, nofun⟩,
        awaited_goTo h.awaited (by simp [hp]) nofun⟩
  | sleep half amount hp hfail he =>
      subst he
      rw [hp] at hfits
      -- a deposit leaves the money positive, so it is a withdrawal that waits
      have hhalf : half = .withdrawal := by
        cases half with
        | withdrawal => rfl
        | deposit => exact absurd (add_pos_of_pos_of_nonneg (h.positive _) hfits.1) hfail
      refine ⟨hlocks, h.positive, fits_goTo hothers ⟨hfits.1, hfits.2.1, nofun, fun _ => hhalf⟩,
        awaited_goTo h.awaited (by simp [setLock, hp]) ?_⟩
      rintro _ _ ⟨⟩
      exact hfail
  | change half amount hp he =>
      subst he
      have hhas : Has r t (s.spots t) (r.account t half) := by
        rw [hp]
        exact ⟨rfl, rfl⟩
      rw [hp] at hfits
      refine ⟨hlocks, fun k => ?_, fits_goTo (h.others hhas _) ⟨hfits.1, hfits.2.1, nofun, nofun⟩,
        awaited_change h.awaited hp⟩
      by_cases hk : k = r.account t half
      · subst hk
        rw [money_goTo, money_changeMoney_self]
        exact hfits.2.2.1 rfl
      · rw [money_goTo, money_changeMoney_of_ne hk]
        exact h.positive k
  | notify half amount hp he =>
      subst he
      rw [hp] at hfits
      exact ⟨hlocks, h.positive, fits_goTo (fun u _ => fits_notifyAll (h.fits u)) ⟨hfits.1, hfits.2.1, nofun, nofun⟩,
        awaited_notify h.awaited hp⟩
  | goOn amount hp he =>
      subst he
      rw [hp] at hfits
      exact ⟨hlocks, h.positive, fits_goTo hothers ⟨hfits.1, hfits.2.1, nofun, nofun⟩,
        awaited_goTo h.awaited (by simp [setLock, hp]) nofun⟩
  | finish amount hp he =>
      subst he
      exact ⟨hlocks, h.positive, fits_goTo hothers trivial, awaited_goTo h.awaited (by simp [setLock, hp]) nofun⟩

theorem Inv.step {call : Call θ} (h : Inv r s) (hs : step r call s = some s') : Inv r s' := by
  cases call with
  | transferMoney t amount =>
      obtain ⟨⟨hp, hpos, hle⟩, he⟩ := Option.ite_none_right_eq_some.mp hs
      cases he
      exact ⟨h.locks.begin hp .withdrawal amount, h.positive, fits_goTo (fun u _ => h.fits u) ⟨hpos, hle, nofun, nofun⟩,
        awaited_goTo h.awaited (by simp [hp]) nofun⟩
  | advance t => exact h.moved (moved_of_advance hs)
  | spurious t =>
      simp only [SleepingBank.step] at hs
      split at hs
      next half amount hp =>
        cases hs
        have hfits := h.fits t
        rw [hp] at hfits
        exact ⟨h.locks.wake hp, h.positive, fits_goTo (fun u _ => h.fits u) ⟨hfits.1, hfits.2.1, nofun, nofun⟩,
          awaited_goTo h.awaited (by simp [hp]) nofun⟩
      next => cases hs

theorem inv_of_reachable (hpos : ∀ k, 0 < balances k) (h : Reachable (start balances) (step r) always s) : Inv r s := by
  apply h.invariant (I := Inv r) ?_ (fun _ _ _ hi _ hs => hi.step hs)
  rintro _ rfl
  exact ⟨Mutexes.free fun _ _ h => h, hpos, fun _ => trivial, nofun⟩

/-- Only withdrawals sleep, and one that sleeps though the money is there is woken by the next step of
another thread. -/
theorem sleeper_is_woken (r : Threads κ θ) (balances : κ → ℚ) (hpos : ∀ k, 0 < balances k) (s : SleepingBank κ θ)
    (h : Reachable (start balances) (step r) always s) (t : θ) (half : Half) (amount : ℚ)
    (hp : s.spots t = .busy half .asleep amount) :
    half = .withdrawal ∧ (amount < s.money (r.alice t) →
      ∃ u s', s.advance r u = some s' ∧ s'.spots t = .busy .withdrawal .entering amount) := by
  have hinv := inv_of_reachable hpos h
  have hhalf : half = .withdrawal := by
    have hfits := hinv.fits t
    rw [hp] at hfits
    exact hfits.2.2.2 rfl
  subst hhalf
  refine ⟨rfl, fun hlt => ?_⟩
  obtain ⟨u, half', amount', hu, hacc⟩ := hinv.awaited t .withdrawal amount hp (by
    rw [Half.change, ← sub_eq_add_neg]
    exact sub_pos.mpr hlt)
  refine ⟨u, _, by rw [advance, hu], ?_⟩
  have htu : t ≠ u := by
    rintro rfl
    cases hp.symm.trans hu
  rw [spots_goTo_of_ne htu]
  simp only [notifyAll, hp, hacc, if_pos]

def oneEachWay : Threads Bool Bool := ⟨id, not⟩

/-- 30 have come in since the thread fell asleep, and the depositor has not yet notified. -/
theorem sleeper_is_woken_before_notify :
    ∃ s, Reachable (start fun _ => 100) (step oneEachWay) always s ∧
      (s.spots true, s.money true) = (.busy .withdrawal .asleep 100, 130) ∧
      ((100 : ℚ) < s.money true →
        ∃ u s', s.advance oneEachWay u = some s' ∧ s'.spots true = .busy .withdrawal .entering 100) := by
  have hrun : (run (guarded (step oneEachWay) always) ([.transferMoney true 100, .advance true, .advance true,
      .transferMoney false 30] ++ List.replicate 8 (.advance false)) ⟨fun _ => 100, fun _ => false, fun _ => .idle⟩).map
      (fun s => (s.spots true, s.money true)) = some (.busy .withdrawal .asleep 100, 130) := by decide +kernel
  obtain ⟨s, hr, he⟩ := reachable_of_run (start fun _ => 100) hrun rfl
  refine ⟨s, hr, he, ?_⟩
  exact (sleeper_is_woken oneEachWay (fun _ => 100) (fun _ => by norm_num) s hr true .withdrawal 100
    (congrArg Prod.fst he)).2

/-- Nobody can go on, unless woken for no reason. -/
def Standstill (r : Threads κ θ) (s : SleepingBank κ θ) : Prop := ∀ t, s.spots t ≠ .idle ∧ s.advance r t = none

/-- Whoever has a lock goes on, so nobody has one and all are asleep. -/
theorem Standstill.asleep (hst : Standstill r s) (h : Inv r s) (t : θ) :
    ∃ amount, s.spots t = .busy .withdrawal .asleep amount ∧ s.money (r.alice t) ≤ amount := by
  have hfree : ∀ k, s.locks k = false := by
    intro k
    rw [Bool.eq_false_iff]
    intro hlocked
    obtain ⟨u, hu⟩ := (h.locks.locked k).mp hlocked
    rcases advance_eq_none_iff.mp (hst u).2 with hp | ⟨half, amount, hp⟩ | ⟨half, amount, hp, -⟩
    · exact (hst u).1 hp
    · rw [hp] at hu
      cases hu.1
    · rw [hp] at hu
      cases hu.1
  have hfits := h.fits t
  rcases advance_eq_none_iff.mp (hst t).2 with hp | ⟨half, amount, hp⟩ | ⟨half, amount, -, hlocked⟩
  · exact absurd hp (hst t).1
  · rw [hp] at hfits
    cases hfits.2.2.2 rfl
    refine ⟨amount, hp, le_of_not_gt fun hlt => ?_⟩
    obtain ⟨u, half', amount', hu, -⟩ := h.awaited t .withdrawal amount hp (by
      rw [Half.change, ← sub_eq_add_neg]
      exact sub_pos.mpr hlt)
    have hstuck := (hst u).2
    rw [advance, hu] at hstuck
    cases hstuck
  · rw [hfree] at hlocked
    cases hlocked

def Waits (r : Threads κ θ) (money : κ → ℚ) (t : θ) (p : Spot) : Prop :=
  ∃ stage amount, p = .busy .withdrawal stage amount ∧ (stage = .entering ∨ stage = .testing ∨ stage = .asleep) ∧
    money (r.alice t) ≤ amount

theorem waits_step {call : Call θ} (h : ∀ t, Waits r s.money t (s.spots t)) (hs : step r call s = some s') :
    s'.money = s.money ∧ ∀ t, Waits r s.money t (s'.spots t) := by
  have hgo : ∀ {t p}, Waits r s.money t p → ∀ u, Waits r s.money u ((s.goTo t p).spots u) := by
    intro t p hp u
    by_cases hu : u = t
    · subst hu
      rwa [spots_goTo_self]
    · rw [spots_goTo_of_ne hu]
      exact h u
  cases call with
  | transferMoney t amount =>
      obtain ⟨⟨hp, -⟩, -⟩ := Option.ite_none_right_eq_some.mp hs
      obtain ⟨stage, amount, ht, -⟩ := h t
      cases hp.symm.trans ht
  | advance t =>
      obtain ⟨stage, amount, ht, hstage, hle⟩ := h t
      cases moved_of_advance hs with
      | enter half amount' hp hfree he =>
          cases hp.symm.trans ht
          subst he
          exact ⟨rfl, hgo ⟨_, _, rfl, .inr (.inl rfl), hle⟩⟩
      | pass half amount' hp hpass he =>
          cases hp.symm.trans ht
          rw [Half.change, ← sub_eq_add_neg] at hpass
          exact absurd (sub_pos.mp hpass) (not_lt_of_ge hle)
      | sleep half amount' hp hfail he =>
          cases hp.symm.trans ht
          subst he
          exact ⟨rfl, hgo ⟨_, _, rfl, .inr (.inr rfl), hle⟩⟩
      | change half amount' hp he | notify half amount' hp he | goOn amount' hp he =>
          cases hp.symm.trans ht
          simp at hstage
      | finish amount' hp he => cases hp.symm.trans ht
  | spurious t =>
      obtain ⟨stage, amount, ht, hstage, hle⟩ := h t
      simp only [step] at hs
      split at hs
      next half amount' hp =>
        cases hp.symm.trans ht
        cases hs
        exact ⟨rfl, hgo ⟨_, _, rfl, .inl rfl, hle⟩⟩
      next => cases hs

theorem Standstill.forever (hst : Standstill r s) (h : Inv r s) (hr : Reachable (· = s) (step r) always s') :
    s'.money = s.money := by
  have hinv := hr.invariant (I := fun s' => s'.money = s.money ∧ ∀ t, Waits r s'.money t (s'.spots t)) ?_ ?_
  · exact hinv.1
  · rintro _ rfl
    refine ⟨rfl, fun t => ?_⟩
    obtain ⟨amount, hp, hle⟩ := hst.asleep h t
    exact ⟨_, amount, hp, .inr (.inr rfl), hle⟩
  · rintro call s₁ s₂ ⟨hmoney, hwaits⟩ - hs
    obtain ⟨hsame, hwaits'⟩ := waits_step hwaits hs
    rw [← hsame] at hwaits'
    exact ⟨hsame.trans hmoney, hwaits'⟩

section TwoAccounts

/-- All the money there is, also what is between two accounts. -/
def worth [Fintype κ] [Fintype θ] (s : SleepingBank κ θ) : ℚ := ∑ k, s.money k + ∑ t, (s.spots t).inFlight

omit [DecidableEq κ] in
theorem inFlight_goTo [Fintype θ] (s : SleepingBank κ θ) (t : θ) (p : Spot) :
    ∑ u, ((s.goTo t p).spots u).inFlight = ∑ u, (s.spots u).inFlight - (s.spots t).inFlight + p.inFlight :=
  Ledger.sum_comp_update Spot.inFlight s.spots t p

omit [DecidableEq κ] in
theorem worth_goTo [Fintype κ] [Fintype θ] {q : Spot} (hq : s.spots t = q) (hsame : p.inFlight = q.inFlight) :
    (s.goTo t p).worth = s.worth := by
  rw [worth, worth, inFlight_goTo, hq, hsame, sub_add_cancel, money_goTo]

omit [DecidableEq θ] in
theorem worth_notifyAll [Fintype κ] [Fintype θ] (k : κ) (s : SleepingBank κ θ) :
    (s.notifyAll r k).worth = s.worth := by
  have hsame : ∀ u, ((s.notifyAll r k).spots u).inFlight = (s.spots u).inFlight := by
    intro u
    simp only [notifyAll]
    split
    next half amount hp =>
      split
      next => rw [hp]; cases half <;> rfl
      next => rfl
    next => rfl
  rw [worth, worth, Finset.sum_congr rfl (fun u _ => hsame u), money_notifyAll]

theorem worth_moved [Fintype κ] [Fintype θ] (hm : Moved r t s s') : s'.worth = s.worth := by
  cases hm with
  | enter half amount hp _ he | sleep half amount hp _ he =>
      subst he
      exact worth_goTo (s := s.setLock _ _) hp (by cases half <;> rfl)
  | pass half amount hp _ he =>
      subst he
      exact worth_goTo hp (by cases half <;> rfl)
  | change half amount hp he =>
      subst he
      have hmoney := Ledger.sum_comp_update id s.money (r.account t half)
        (s.money (r.account t half) + half.change amount)
      have hspot : (s.changeMoney (r.account t half) (half.change amount)).spots t = .busy half .changing amount := hp
      simp only [id] at hmoney
      rw [worth, worth, inFlight_goTo, money_goTo, hspot, changeMoney, hmoney]
      cases half <;>
        simp only [Spot.inFlight, Stage.changed, Half.change, if_true, Bool.false_eq_true, if_false] <;> ring
  | notify half amount hp he =>
      subst he
      have hspot : (s.notifyAll r (r.account t half)).spots t = .busy half .notifying amount := by
        rw [spots_notifyAll fun half' amount' hp' => ?_, hp]
        cases hp.symm.trans hp'
      rw [worth_goTo hspot (by cases half <;> rfl), worth_notifyAll]
  | goOn amount hp he | finish amount hp he =>
      subst he
      exact worth_goTo (s := s.setLock _ _) hp rfl

theorem worth_of_reachable [Fintype κ] [Fintype θ] (h : Reachable (start balances) (step r) always s) :
    s.worth = ∑ k, balances k := by
  apply h.invariant (I := fun s => s.worth = ∑ k, balances k)
  · rintro _ rfl
    simp [worth, Spot.inFlight]
  · rintro call s s' hworth - hs
    rw [← hworth]
    cases call with
    | transferMoney t amount =>
        obtain ⟨⟨hp, -⟩, he⟩ := Option.ite_none_right_eq_some.mp hs
        cases he
        exact worth_goTo hp rfl
    | advance t => exact worth_moved (moved_of_advance hs)
    | spurious t =>
        simp only [step] at hs
        split at hs
        next half amount hp =>
          cases hs
          exact worth_goTo hp (by cases half <;> rfl)
        next => cases hs

omit [DecidableEq κ] in
theorem goTo_goTo (t : θ) (p q : Spot) (s : SleepingBank κ θ) : (s.goTo t p).goTo t q = s.goTo t q := by
  rw [goTo, goTo, goTo, Function.update_idem]

omit [DecidableEq θ] in
theorem setLock_setLock (k : κ) (b : Bool) (hk : s.locks k = false) : (s.setLock k b).setLock k false = s := by
  simp only [setLock, Function.update_idem, ← hk, Function.update_eq_self]

theorem step_transferMoney (hp : s.spots t = .idle) (hpos : 0 ≤ amount) (hle : amount ≤ 100) :
    step r (.transferMoney t amount) s = some (s.goTo t (.busy .withdrawal .entering amount)) := if_pos ⟨hp, hpos, hle⟩

theorem setLock_goTo (t : θ) (p : Spot) (k : κ) (b : Bool) (s : SleepingBank κ θ) :
    (s.goTo t p).setLock k b = (s.setLock k b).goTo t p := rfl

theorem changeMoney_goTo (t : θ) (p : Spot) (k : κ) (x : ℚ) (s : SleepingBank κ θ) :
    (s.goTo t p).changeMoney k x = (s.changeMoney k x).goTo t p := rfl

omit [DecidableEq θ] in
theorem changeMoney_setLock (j k : κ) (b : Bool) (x : ℚ) (s : SleepingBank κ θ) :
    (s.setLock j b).changeMoney k x = (s.changeMoney k x).setLock j b := rfl

omit [DecidableEq θ] in
theorem notifyAll_eq_self (h : ∀ u half amount, s.spots u ≠ .busy half .asleep amount) : s.notifyAll r k = s := by
  obtain ⟨money, locks, spots⟩ := s
  rw [notifyAll]
  congr 1
  funext u
  split
  next half amount hp => exact absurd hp (h u half amount)
  next => rfl

section Runs

variable {init : SleepingBank κ θ → Prop}

theorem reachable_moved (h : Reachable init (step r) always s) (hm : Moved r t s s') :
    Reachable init (step r) always s' := .next (.advance t) h trivial (advance_of_moved hm)

theorem reachable_asleep (h : Reachable init (step r) always s) (hp : s.spots t = .idle)
    (hfree : s.locks (r.alice t) = false) (hpos : 0 ≤ amount) (hle : amount ≤ 100)
    (hshort : s.money (r.alice t) ≤ amount) :
    Reachable init (step r) always (s.goTo t (.busy .withdrawal .asleep amount)) := by
  have hfail : ¬ 0 < s.money (r.account t .withdrawal) + Half.withdrawal.change amount := by
    rw [Half.change, ← sub_eq_add_neg]
    exact not_lt_of_ge (sub_nonpos.mpr hshort)
  have hbegin := Reachable.next _ h trivial (step_transferMoney (r := r) hp hpos hle)
  have henter := reachable_moved hbegin (.enter .withdrawal amount (spots_goTo_self ..) hfree rfl)
  have hsleep := reachable_moved henter (.sleep .withdrawal amount (spots_goTo_self ..) hfail rfl)
  have hback : (s.setLock (r.account t .withdrawal) true).setLock (r.account t .withdrawal) false = s :=
    setLock_setLock _ true hfree
  simp only [setLock_goTo, goTo_goTo, hback] at hsleep
  exact hsleep

theorem reachable_changed (h : Reachable init (step r) always s) (half : Half)
    (hp : s.spots t = .busy half .entering amount) (hfree : s.locks (r.account t half) = false)
    (hawake : ∀ u half amount, s.spots u ≠ .busy half .asleep amount)
    (hpass : 0 < s.money (r.account t half) + half.change amount) :
    Reachable init (step r) always
      (((s.changeMoney (r.account t half) (half.change amount)).setLock (r.account t half) true).goTo t
        (.busy half .leaving amount)) := by
  have henter := reachable_moved h (.enter half amount hp hfree rfl)
  have htest := reachable_moved henter (.pass half amount (spots_goTo_self ..) hpass rfl)
  have hchange := reachable_moved htest (.change half amount (spots_goTo_self ..) rfl)
  have hnotify := reachable_moved hchange (.notify half amount (spots_goTo_self ..) rfl)
  rw [notifyAll_eq_self] at hnotify
  · simpa only [goTo_goTo, changeMoney_goTo, changeMoney_setLock] using hnotify
  · intro u half' amount'
    by_cases hu : u = t
    · subst hu
      rw [spots_goTo_self]
      nofun
    · rw [spots_goTo_of_ne hu, goTo_goTo, changeMoney_goTo, spots_goTo_of_ne hu]
      exact hawake u half' amount'

end Runs

def resting (money : κ → ℚ) (ts : List θ) : SleepingBank κ θ :=
  ⟨money, fun _ => false, fun u => if u ∈ ts then .busy .withdrawal .asleep 100 else .idle⟩

theorem reachable_resting {money : κ → ℚ} (h : Reachable (start balances) (step r) always (resting money []))
    (hle : ∀ k, money k ≤ 100) (ts : List θ) (hts : ts.Nodup) :
    Reachable (start balances) (step r) always (resting money ts) := by
  induction ts with
  | nil => exact h
  | cons t ts ih =>
      obtain ⟨hnew, hts⟩ := List.nodup_cons.mp hts
      have hnext := reachable_asleep (t := t) (ih hts) (if_neg hnew) rfl (by norm_num) le_rfl (hle (r.alice t))
      have hsame : (resting money ts).goTo t (.busy .withdrawal .asleep 100) = resting money (t :: ts) := by
        rw [goTo, resting, resting]
        congr 1
        funext u
        by_cases hu : u = t <;> simp [hu]
      rwa [hsame] at hnext

theorem resting_changeMoney (money : κ → ℚ) (ts : List θ) (k : κ) (x : ℚ) :
    (resting money ts).changeMoney k x = resting (Function.update money k (money k + x)) ts := rfl

omit [DecidableEq κ] in
theorem resting_awake (money : κ → ℚ) (hp : ∀ half amount, p ≠ .busy half .asleep amount) (u : θ) (half : Half)
    (amount : ℚ) : ((resting money []).goTo t p).spots u ≠ .busy half .asleep amount := by
  by_cases hu : u = t
  · subst hu
    rw [spots_goTo_self]
    exact hp half amount
  · rw [spots_goTo_of_ne hu]
    nofun

theorem reachable_transfer {money : κ → ℚ} (h : Reachable (start balances) (step r) always (resting money []))
    (t : θ) (amount : ℚ) (hpos : 0 ≤ amount) (hle : amount ≤ 100) (hlt : amount < money (r.alice t))
    (hbob : 0 < money (r.bob t)) (hne : r.bob t ≠ r.alice t) :
    Reachable (start balances) (step r) always
      (resting (Function.update (Function.update money (r.alice t) (money (r.alice t) + -amount)) (r.bob t)
        (money (r.bob t) + amount)) []) := by
  have hbegin := Reachable.next _ h trivial (step_transferMoney (r := r) (t := t) rfl hpos hle)
  have hpass : 0 < money (r.alice t) + -amount := by
    rw [← sub_eq_add_neg]
    exact sub_pos.mpr hlt
  have hwithdrawn := reachable_changed hbegin .withdrawal (spots_goTo_self ..) rfl (resting_awake money nofun) hpass
  have hdeposit := reachable_moved hwithdrawn (.goOn amount (spots_goTo_self ..) rfl)
  have hback : ∀ money : κ → ℚ, ∀ k,
      ((resting money ([] : List θ)).setLock k true).setLock k false = resting money [] :=
    fun money k => setLock_setLock k true rfl
  simp only [changeMoney_goTo, setLock_goTo, goTo_goTo, resting_changeMoney, Half.change, hback] at hdeposit
  have hpass' : 0 < Function.update money (r.alice t) (money (r.alice t) + -amount) (r.bob t) + amount := by
    rw [Function.update_of_ne hne]
    exact add_pos_of_pos_of_nonneg hbob hpos
  have hdeposited := reachable_changed hdeposit .deposit (spots_goTo_self ..) rfl (resting_awake _ nofun) hpass'
  have hfinish := reachable_moved hdeposited (.finish amount (spots_goTo_self ..) rfl)
  simp only [changeMoney_goTo, setLock_goTo, goTo_goTo, resting_changeMoney, Half.change, hback] at hfinish
  have hidle : ∀ money : κ → ℚ, (resting money ([] : List θ)).goTo t .idle = resting money [] := by
    intro money
    rw [goTo, resting]
    congr 1
    funext u
    by_cases hu : u = t <;> simp [hu]
  have hsame : Function.update money (r.alice t) (money (r.alice t) + -amount) (r.bob t) = money (r.bob t) :=
    Function.update_of_ne hne _ _
  rw [hidle] at hfinish
  rw [← hsame]
  exact hfinish

theorem reachable_standstill [Fintype θ] {money : κ → ℚ}
    (h : Reachable (start balances) (step r) always (resting money [])) (hle : ∀ k, money k ≤ 100) :
    ∃ s, Reachable (start balances) (step r) always s ∧ Standstill r s := by
  have hasleep : ∀ t, (resting money (Finset.univ : Finset θ).toList).spots t = .busy .withdrawal .asleep 100 :=
    fun t => if_pos (Finset.mem_toList.mpr (Finset.mem_univ t))
  refine ⟨_, reachable_resting h hle _ (Finset.nodup_toList Finset.univ), fun t => ⟨?_, ?_⟩⟩
  · rw [hasleep]
    nofun
  · rw [advance, hasleep]

end TwoAccounts

end SleepingBank

end LearnNote.Bank
