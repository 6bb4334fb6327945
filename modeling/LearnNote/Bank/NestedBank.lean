import Mathlib.Algebra.BigOperators.Group.Finset.Basic
import Mathlib.Algebra.Order.BigOperators.Group.Finset
import Mathlib.Algebra.Order.Ring.Rat
import Mathlib.Data.Fintype.BigOperators
import Mathlib.Tactic.Ring
import LearnNote.Lib.Transition
import LearnNote.Lib.Waiting

namespace LearnNote.Bank

open Lib Lib.Transition Relation

variable {κ θ : Type}

/-- The two accounts of a randomTransfer. -/
structure Route (κ : Type) where
  alice : κ
  bob : κ

/-- Where a thread is in transferMoney: it takes the lock of alice, then that of bob, and
gives them up in the opposite order. -/
inductive Place
  | idle
  | lockingAlice (amount : ℚ)
  | lockingBob (amount : ℚ)
  | locked (amount : ℚ)
  | withdrawing (amount : ℚ)
  | depositing (amount : ℚ)
  | unlockingBob
  | unlockingAlice
deriving DecidableEq

namespace Place

def hasAlice : Place → Bool
  | .idle | .lockingAlice _ => false
  | _ => true

def hasBob : Place → Bool
  | .locked _ | .withdrawing _ | .depositing _ | .unlockingBob => true
  | _ => false

def inFlight : Place → ℚ
  | .depositing amount => amount
  | _ => 0

def amount : Place → ℚ
  | .lockingAlice amount | .lockingBob amount | .locked amount | .withdrawing amount | .depositing amount => amount
  | _ => 0

def left : Place → Nat
  | .idle => 0
  | .lockingAlice _ => 7
  | .lockingBob _ => 6
  | .locked _ => 5
  | .withdrawing _ => 4
  | .depositing _ => 3
  | .unlockingBob => 2
  | .unlockingAlice => 1

end Place

structure NestedBank (κ θ : Type) where
  money : κ → ℚ
  locks : κ → Bool
  places : θ → Place

namespace NestedBank

def Has (r : Route κ) (p : Place) (k : κ) : Prop := (p.hasAlice ∧ k = r.alice) ∨ (p.hasBob ∧ k = r.bob)

def Holds (routes : θ → Route κ) (places : θ → Place) (t : θ) (k : κ) : Prop := Has (routes t) (places t) k

def wants (routes : θ → Route κ) (places : θ → Place) (t : θ) : Option κ :=
  match places t with
  | .lockingAlice _ => some (routes t).alice
  | .lockingBob _ => some (routes t).bob
  | _ => none

def Sends (routes : θ → Route κ) (a b : κ) : Prop := ∃ t, (routes t).alice = a ∧ (routes t).bob = b

variable [DecidableEq κ] [DecidableEq θ]

def goTo (t : θ) (p : Place) (s : NestedBank κ θ) : NestedBank κ θ :=
  { s with places := Function.update s.places t p }

def changeMoney (a : κ) (amount : ℚ) (s : NestedBank κ θ) : NestedBank κ θ :=
  { s with money := Function.update s.money a (s.money a + amount) }

/-- A thread that locks what is locked waits, also where it has locked it itself. -/
def lock (a : κ) (s : NestedBank κ θ) : Option (NestedBank κ θ) :=
  if s.locks a then none else some { s with locks := Function.update s.locks a true }

def unlock (a : κ) (s : NestedBank κ θ) : NestedBank κ θ := { s with locks := Function.update s.locks a false }

def advance (routes : θ → Route κ) (t : θ) (s : NestedBank κ θ) : Option (NestedBank κ θ) :=
  match s.places t with
  | .idle => none
  | .lockingAlice amount => (s.lock (routes t).alice).map (goTo t (.lockingBob amount))
  | .lockingBob amount => (s.lock (routes t).bob).map (goTo t (.locked amount))
  | .locked amount =>
      some (s.goTo t (if amount > s.money (routes t).alice then .unlockingBob else .withdrawing amount))
  | .withdrawing amount => some ((s.changeMoney (routes t).alice (-amount)).goTo t (.depositing amount))
  | .depositing amount => some ((s.changeMoney (routes t).bob amount).goTo t .unlockingBob)
  | .unlockingBob => some ((s.unlock (routes t).bob).goTo t .unlockingAlice)
  | .unlockingAlice => some ((s.unlock (routes t).alice).goTo t .idle)

inductive Act (θ : Type)
  | transferMoney (t : θ) (amount : ℚ)
  | advance (t : θ)

/-- The amounts of randomTransfer are from 0 to 100. -/
def step (routes : θ → Route κ) : Act θ → NestedBank κ θ → Option (NestedBank κ θ)
  | .transferMoney t amount, s =>
      if s.places t = .idle ∧ 0 ≤ amount ∧ amount ≤ 100 then some (s.goTo t (.lockingAlice amount)) else none
  | .advance t, s => s.advance routes t

def start (balances : κ → ℚ) (s : NestedBank κ θ) : Prop := s = ⟨balances, fun _ => false, fun _ => .idle⟩

def waiting (routes : θ → Route κ) (s : NestedBank κ θ) : Waiting θ κ :=
  ⟨Holds routes s.places, wants routes s.places⟩

variable {routes : θ → Route κ} {s s' : NestedBank κ θ} {t u : θ} {p : Place} {k : κ} {balances : κ → ℚ}

omit [DecidableEq κ] in
theorem places_goTo (t : θ) (p : Place) (s : NestedBank κ θ) : (s.goTo t p).places = Function.update s.places t p := rfl

omit [DecidableEq κ] in
@[simp] theorem locks_goTo (t : θ) (p : Place) (s : NestedBank κ θ) : (s.goTo t p).locks = s.locks := rfl

omit [DecidableEq κ] in
@[simp] theorem money_goTo (t : θ) (p : Place) (s : NestedBank κ θ) : (s.goTo t p).money = s.money := rfl

omit [DecidableEq θ] in
theorem money_changeMoney_self (a : κ) (amount : ℚ) (s : NestedBank κ θ) :
    (s.changeMoney a amount).money a = s.money a + amount := Function.update_self ..

omit [DecidableEq θ] in
theorem money_changeMoney_of_ne {a : κ} (hne : k ≠ a) (amount : ℚ) :
    (s.changeMoney a amount).money k = s.money k := Function.update_of_ne hne ..

omit [DecidableEq θ] in
theorem lock_of_free (h : s.locks k = false) : s.lock k = some { s with locks := Function.update s.locks k true } := by
  simp [lock, h]

omit [DecidableEq θ] in
theorem lock_eq_some (h : s.lock k = some s') :
    s.locks k = false ∧ s' = { s with locks := Function.update s.locks k true } := by
  obtain ⟨hfree, he⟩ := Option.ite_none_left_eq_some.mp h
  exact ⟨Bool.eq_false_iff.mpr hfree, (Option.some.inj he).symm⟩

/-- What one step of a transfer does to the locks and to the place of its thread. -/
inductive Moved (routes : θ → Route κ) (t : θ) (s s' : NestedBank κ θ) : Prop
  | takeAlice (amount : ℚ) (hp : s.places t = .lockingAlice amount) (hfree : s.locks (routes t).alice = false)
      (he : s' = goTo t (.lockingBob amount) { s with locks := Function.update s.locks (routes t).alice true })
  | takeBob (amount : ℚ) (hp : s.places t = .lockingBob amount) (hfree : s.locks (routes t).bob = false)
      (he : s' = goTo t (.locked amount) { s with locks := Function.update s.locks (routes t).bob true })
  | refuse (amount : ℚ) (hp : s.places t = .locked amount) (he : s' = s.goTo t .unlockingBob)
  | accept (amount : ℚ) (hp : s.places t = .locked amount) (hfunded : amount ≤ s.money (routes t).alice)
      (he : s' = s.goTo t (.withdrawing amount))
  | withdraw (amount : ℚ) (hp : s.places t = .withdrawing amount)
      (he : s' = (s.changeMoney (routes t).alice (-amount)).goTo t (.depositing amount))
  | deposit (amount : ℚ) (hp : s.places t = .depositing amount)
      (he : s' = (s.changeMoney (routes t).bob amount).goTo t .unlockingBob)
  | giveBob (hp : s.places t = .unlockingBob) (he : s' = (s.unlock (routes t).bob).goTo t .unlockingAlice)
  | giveAlice (hp : s.places t = .unlockingAlice) (he : s' = (s.unlock (routes t).alice).goTo t .idle)

theorem moved_of_advance (hs : s.advance routes t = some s') : Moved routes t s s' := by
  rw [advance] at hs
  split at hs
  next => cases hs
  next amount hp =>
    obtain ⟨s₁, hlock, rfl⟩ := Option.map_eq_some_iff.mp hs
    obtain ⟨hfree, rfl⟩ := lock_eq_some hlock
    exact .takeAlice amount hp hfree rfl
  next amount hp =>
    obtain ⟨s₁, hlock, rfl⟩ := Option.map_eq_some_iff.mp hs
    obtain ⟨hfree, rfl⟩ := lock_eq_some hlock
    exact .takeBob amount hp hfree rfl
  next amount hp =>
    cases hs
    by_cases hlt : amount > s.money (routes t).alice
    · rw [if_pos hlt]
      exact .refuse amount hp rfl
    · rw [if_neg hlt]
      exact .accept amount hp (le_of_not_gt hlt) rfl
  next amount hp => cases hs; exact .withdraw amount hp rfl
  next amount hp => cases hs; exact .deposit amount hp rfl
  next hp => cases hs; exact .giveBob hp rfl
  next hp => cases hs; exact .giveAlice hp rfl

theorem Moved.places_eq (h : Moved routes t s s') :
    ∃ p, s'.places = Function.update s.places t p ∧ p.left < (s.places t).left := by
  cases h with
  | takeAlice amount hp _ he | takeBob amount hp _ he | refuse amount hp he | accept amount hp _ he
  | withdraw amount hp he | deposit amount hp he | giveBob hp he | giveAlice hp he =>
      subst he
      exact ⟨_, rfl, by simp [hp, Place.left]⟩

theorem advance_isSome (hp : s.places t ≠ .idle) (hfree : ∀ k, wants routes s.places t = some k → s.locks k = false) :
    ∃ s', s.advance routes t = some s' := by
  rw [wants] at hfree
  rw [advance]
  cases hplace : s.places t with
  | idle => exact absurd hplace hp
  | lockingAlice amount =>
      rw [hplace] at hfree
      simp [lock, hfree (routes t).alice rfl]
  | lockingBob amount =>
      rw [hplace] at hfree
      simp [lock, hfree (routes t).bob rfl]
  | _ => exact ⟨_, rfl⟩

theorem advance_of_locked (hwants : wants routes s.places t = some k) (hlocked : s.locks k = true) :
    s.advance routes t = none := by
  rw [wants] at hwants
  rw [advance]
  cases hplace : s.places t with
  | lockingAlice amount =>
      rw [hplace] at hwants
      cases hwants
      simp [lock, hlocked]
  | lockingBob amount =>
      rw [hplace] at hwants
      cases hwants
      simp [lock, hlocked]
  | _ => simp [hplace] at hwants

/-- Only a thread whose accounts are different ones gets both locks. -/
structure LocksKept (routes : θ → Route κ) (s : NestedBank κ θ) : Prop where
  mutexes : Mutexes s.locks (fun t => Has (routes t) (s.places t))
  apart : ∀ t, (s.places t).hasBob → (routes t).alice ≠ (routes t).bob

omit [DecidableEq κ] in
theorem LocksKept.goOn (h : LocksKept routes s) {locks : κ → Bool} {money : κ → ℚ}
    (hm : Mutexes locks (fun u => Has (routes u) (Function.update s.places t p u)))
    (hp : p.hasBob → (s.places t).hasBob ∨ (routes t).alice ≠ (routes t).bob) :
    LocksKept routes ⟨money, locks, Function.update s.places t p⟩ := by
  refine ⟨hm, fun u hu => ?_⟩
  dsimp only at hu
  by_cases hut : u = t
  · subst hut
    rw [Function.update_self] at hu
    exact (hp hu).elim (h.apart u) id
  · rw [Function.update_of_ne hut] at hu
    exact h.apart u hu

theorem LocksKept.moved (h : LocksKept routes s) (hm : Moved routes t s s') : LocksKept routes s' := by
  let has := fun t => Has (routes t)
  have hmutexes := h.mutexes
  cases hm with
  | takeAlice amount hp hfree he =>
      subst he
      exact h.goOn (Mutexes.take has hmutexes hfree hp (by simp [has, Has, Place.hasAlice, Place.hasBob])) nofun
  | takeBob amount hp hfree he =>
      subst he
      have hne : (routes t).alice ≠ (routes t).bob := by
        rintro heq
        exact hmutexes.not_held hfree t (.inl ⟨by rw [hp]; rfl, heq.symm⟩)
      exact h.goOn (Mutexes.take has hmutexes hfree hp (by simp [has, Has, Place.hasAlice, Place.hasBob]))
        fun _ => .inr hne
  | refuse amount hp he | accept amount hp _ he | withdraw amount hp he | deposit amount hp he =>
      subst he
      exact h.goOn (Mutexes.stay has hmutexes hp (fun _ => Iff.rfl)) fun _ => .inl (by rw [hp]; rfl)
  | giveBob hp he =>
      subst he
      refine h.goOn (Mutexes.give has hmutexes hp (.inr ⟨rfl, rfl⟩) (fun j => ?_)) nofun
      simp only [has, Has, Place.hasAlice, Place.hasBob, true_and, Bool.false_eq_true, false_and, or_false]
      -- the two locks are different, so the other one stays
      constructor
      · rintro rfl
        exact ⟨.inl rfl, h.apart t (by rw [hp]; rfl)⟩
      · rintro ⟨h, hne⟩
        exact h.resolve_right hne
  | giveAlice hp he =>
      subst he
      exact h.goOn (Mutexes.give has hmutexes hp (.inl ⟨rfl, rfl⟩)
        (by simp [has, Has, Place.hasAlice, Place.hasBob])) nofun

omit [DecidableEq κ] in
theorem LocksKept.begin (h : LocksKept routes s) (hp : s.places t = .idle) (amount : ℚ) :
    LocksKept routes (s.goTo t (.lockingAlice amount)) :=
  h.goOn (Mutexes.stay (fun t => Has (routes t)) h.mutexes hp (fun _ => Iff.rfl)) nofun

theorem LocksKept.step {act : Act θ} (h : LocksKept routes s) (hs : step routes act s = some s') :
    LocksKept routes s' := by
  cases act with
  | transferMoney t amount =>
      obtain ⟨⟨hp, -⟩, he⟩ := Option.ite_none_right_eq_some.mp hs
      cases he
      exact h.begin hp amount
  | advance t => exact h.moved (moved_of_advance hs)

omit [DecidableEq κ] [DecidableEq θ] in
theorem LocksKept.start (balances : κ → ℚ) : ∀ s, start balances s → LocksKept routes (s : NestedBank κ θ) := by
  rintro _ rfl
  refine ⟨Mutexes.free ?_, fun t ht => ?_⟩
  · simp [Has, Place.hasAlice, Place.hasBob]
  · cases ht

theorem locksKept_of_reachable (h : Reachable (start balances) (step routes) always s) : LocksKept routes s :=
  h.invariant (I := LocksKept routes) (LocksKept.start balances) (fun _ _ _ hi _ hs => hi.step hs)

omit [DecidableEq κ] [DecidableEq θ] in
/-- A thread waits for the lock of bob with that of alice, and for that of alice with none. -/
theorem nested (s : NestedBank κ θ) : (waiting routes s).Nested (Sends routes) := by
  intro t k l hk hl
  simp only [waiting, Holds, Has, wants] at hk hl
  split at hl
  next amount hp =>
    rw [hp] at hk
    simp [Place.hasAlice, Place.hasBob] at hk
  next amount hp =>
    cases hl
    rw [hp] at hk
    rcases hk with ⟨-, rfl⟩ | ⟨hbob, -⟩
    · exact ⟨t, rfl, rfl⟩
    · cases hbob
  next => cases hl

section Stuck

variable {D : Set θ}

theorem deadlocked_step {act : Act θ} (h : LocksKept routes s) (hD : (waiting routes s).Deadlocked D)
    (hs : step routes act s = some s') :
    (waiting routes s').Deadlocked D ∧ ∀ t ∈ D, s'.places t = s.places t := by
  have hblocked : ∀ t ∈ D, ∃ k, wants routes s.places t = some k ∧ s.locks k = true := by
    intro t ht
    obtain ⟨u, -, k, hk, hu⟩ := hD.blocked t ht
    exact ⟨k, hk, (h.mutexes.locked k).mpr ⟨u, hu⟩⟩
  have hsame : ∀ t ∈ D, s'.places t = s.places t := by
    intro t ht
    obtain ⟨k, hk, hlocked⟩ := hblocked t ht
    cases act with
    | transferMoney u amount =>
        obtain ⟨⟨hp, -⟩, he⟩ := Option.ite_none_right_eq_some.mp hs
        cases he
        refine Function.update_of_ne ?_ _ _
        rintro rfl
        simp [wants, hp] at hk
    | advance u =>
        have hne : t ≠ u := by
          rintro rfl
          rw [step, advance_of_locked hk hlocked] at hs
          cases hs
        obtain ⟨p, hp, -⟩ := (moved_of_advance hs).places_eq
        rw [hp, Function.update_of_ne hne]
  refine ⟨⟨hD.nonempty, fun t ht => ?_⟩, hsame⟩
  obtain ⟨u, hu, k, hk, hheld⟩ := hD.blocked t ht
  refine ⟨u, hu, k, ?_, ?_⟩
  · rw [← hk]
    simp only [waiting, wants, hsame t ht]
  · simp only [waiting, Holds, hsame u hu] at hheld ⊢
    exact hheld

theorem deadlocked_forever (h : LocksKept routes s) (hD : (waiting routes s).Deadlocked D)
    (hr : Reachable (· = s) (step routes) always s') : ∀ t ∈ D, s'.places t = s.places t := by
  have hinv := hr.invariant (I := fun s' => LocksKept routes s' ∧ (waiting routes s').Deadlocked D ∧
    ∀ t ∈ D, s'.places t = s.places t) ?_ ?_
  · exact hinv.2.2
  · rintro _ rfl
    exact ⟨h, hD, fun _ _ => rfl⟩
  · rintro act s₁ s₂ ⟨h₁, hD₁, hsame⟩ - hs
    obtain ⟨hD₂, hstep⟩ := deadlocked_step h₁ hD₁ hs
    exact ⟨h₁.step hs, hD₂, fun t ht => (hstep t ht).trans (hsame t ht)⟩

def firstLocks (routes : θ → Route κ) (balances : κ → ℚ) (ts : List θ) : NestedBank κ θ :=
  ⟨balances, fun k => decide (k ∈ ts.map (fun t => (routes t).alice)), fun t => if t ∈ ts then .lockingBob 0 else .idle⟩

theorem reachable_firstLocks (balances : κ → ℚ) (ts : List θ) (hts : (ts.map (fun t => (routes t).alice)).Nodup) :
    Reachable (start balances) (step routes) always (firstLocks routes balances ts) := by
  induction ts with
  | nil => exact .start (by simp [start, firstLocks])
  | cons t ts ih =>
      rw [List.map_cons, List.nodup_cons] at hts
      obtain ⟨hnew, hts⟩ := hts
      have hidle : (firstLocks routes balances ts).places t = .idle := if_neg fun ht => hnew (List.mem_map_of_mem ht)
      have hfree : (firstLocks routes balances ts).locks (routes t).alice = false := decide_eq_false hnew
      have hbegin : step routes (.transferMoney t 0) (firstLocks routes balances ts) =
          some ((firstLocks routes balances ts).goTo t (.lockingAlice 0)) := if_pos ⟨hidle, by norm_num, by norm_num⟩
      refine .next (.advance t) (.next (.transferMoney t 0) (ih hts) trivial hbegin) trivial ?_
      have hlock := lock_of_free (s := (firstLocks routes balances ts).goTo t (.lockingAlice 0)) hfree
      have hplace : ((firstLocks routes balances ts).goTo t (.lockingAlice 0)).places t = .lockingAlice 0 :=
        Function.update_self ..
      simp only [step, advance, hplace, hlock, Option.map_some]
      rw [goTo, goTo, Function.update_idem, firstLocks, firstLocks]
      congr 2
      · funext k
        by_cases hk : k = (routes t).alice <;> simp [hk]
      · funext u
        by_cases hu : u = t <;> simp [hu]

/-- Around a circuit each account has a thread that holds it and waits for the next. -/
theorem reachable_deadlock [Fintype κ] (balances : κ → ℚ) {a : κ} (ha : TransGen (Sends routes) a a) :
    ∃ s, Reachable (start balances) (step routes) always s ∧ ∃ D, (waiting routes s).Deadlocked D := by
  classical
  let circular := Finset.univ.filter (fun a => TransGen (Sends routes) a a)
  have hnext : ∀ k : circular, ∃ t, (routes t).alice = k ∧ (routes t).bob ∈ circular := by
    rintro ⟨k, hk⟩
    obtain ⟨l, ⟨t, halice, hbob⟩, hl⟩ := next_on_circuit (Finset.mem_filter.mp hk).2
    exact ⟨t, halice, hbob ▸ Finset.mem_filter.mpr ⟨Finset.mem_univ l, hl⟩⟩
  choose sender halice hbob using hnext
  let ts := circular.attach.toList.map sender
  have hts : (ts.map (fun t => (routes t).alice)).Nodup := by
    rw [List.map_map]
    refine List.Nodup.map ?_ circular.attach.nodup_toList
    intro k l hkl
    simp only [Function.comp_apply, halice] at hkl
    exact Subtype.ext hkl
  have hmem : ∀ k, sender k ∈ ts := fun k => List.mem_map_of_mem (by simp)
  refine ⟨_, reachable_firstLocks balances ts hts, {t | t ∈ ts}, ⟨_, hmem ⟨a, by simpa [circular] using ha⟩⟩, ?_⟩
  intro t ht
  obtain ⟨k, -, rfl⟩ := List.mem_map.mp ht
  refine ⟨sender ⟨_, hbob k⟩, hmem _, (routes (sender k)).bob, ?_, ?_⟩
  · simp only [waiting, wants, firstLocks, if_pos (hmem k)]
  · simp only [waiting, Holds, Has, firstLocks, if_pos (hmem _)]
    exact .inl ⟨rfl, (halice ⟨_, hbob k⟩).symm⟩

end Stuck

section Finishing

def stepsLeft [Fintype θ] (s : NestedBank κ θ) : Nat := ∑ t, (s.places t).left

theorem stepsLeft_lt [Fintype θ] (hs : s.advance routes t = some s') : s'.stepsLeft < s.stepsLeft := by
  obtain ⟨p, hp, hlt⟩ := (moved_of_advance hs).places_eq
  apply Finset.sum_lt_sum
  · intro u _
    rw [hp]
    by_cases hu : u = t
    · subst hu
      rw [Function.update_self]
      exact Nat.le_of_lt hlt
    · rw [Function.update_of_ne hu]
  · refine ⟨t, Finset.mem_univ t, ?_⟩
    rwa [hp, Function.update_self]

theorem exists_advance [Fintype κ] (h : LocksKept routes s) (hacyclic : ∀ a, ¬ TransGen (Sends routes) a a)
    (hp : s.places t ≠ .idle) : ∃ u s', s.advance routes u = some s' := by
  obtain ⟨u, hu, hfree⟩ := Waiting.exists_unblocked (nested s) hacyclic t
  refine ⟨u, advance_isSome ?_ fun k hk => ?_⟩
  · rcases ReflTransGen.cases_tail hu with rfl | ⟨v, -, k, -, hk⟩
    · exact hp
    · intro hidle
      simp [waiting, Holds, Has, hidle, Place.hasAlice, Place.hasBob] at hk
  · rw [Bool.eq_false_iff]
    intro hlocked
    obtain ⟨v, hv⟩ := (h.mutexes.locked k).mp hlocked
    exact hfree v ⟨k, hk, hv⟩

theorem transfers_finish [Fintype κ] [Fintype θ] (hacyclic : ∀ a, ¬ TransGen (Sends routes) a a)
    {init : NestedBank κ θ → Prop} (h : LocksKept routes s) (hr : Reachable init (advance routes) always s) :
    ∃ s', Reachable init (advance routes) always s' ∧ ∀ t, s'.places t = .idle := by
  have hgo : ∀ s, LocksKept routes s → (∀ t, s.places t = .idle) ∨ ∃ u s', always u s ∧
      s.advance routes u = some s' ∧ LocksKept routes s' ∧ s'.stepsLeft < s.stepsLeft := by
    intro s h
    by_cases hidle : ∀ t, s.places t = .idle
    · exact .inl hidle
    · obtain ⟨t, ht⟩ := not_forall.mp hidle
      obtain ⟨u, s', hs⟩ := exists_advance h hacyclic ht
      exact .inr ⟨u, s', trivial, hs, h.moved (moved_of_advance hs), stepsLeft_lt hs⟩
  obtain ⟨s', hr', -, hidle⟩ := exists_done stepsLeft hgo hr h
  exact ⟨s', hr', hidle⟩

end Finishing

section Atomic

def transferMoney (r : Route κ) (amount : ℚ) (money : κ → ℚ) : κ → ℚ :=
  Function.update (Function.update money r.alice (money r.alice - amount)) r.bob (money r.bob + amount)

def transferStep (routes : θ → Route κ) (transfer : θ × ℚ) (money : κ → ℚ) : Option (κ → ℚ) :=
  if 0 ≤ transfer.2 ∧ transfer.2 ≤ money (routes transfer.1).alice then
    some (transferMoney (routes transfer.1) transfer.2 money)
  else none

variable [Fintype θ]

/-- The balances once the deposits that are on their way have arrived. -/
def settled (routes : θ → Route κ) (s : NestedBank κ θ) (k : κ) : ℚ :=
  s.money k + ∑ t, if (routes t).bob = k then (s.places t).inFlight else 0

theorem settled_goTo (routes : θ → Route κ) (s : NestedBank κ θ) (t : θ) (p : Place) (k : κ) :
    settled routes (s.goTo t p) k =
      settled routes s k + if (routes t).bob = k then p.inFlight - (s.places t).inFlight else 0 := by
  have hsame : ∑ u ∈ Finset.univ.erase t, (if (routes u).bob = k then ((s.goTo t p).places u).inFlight else 0) =
      ∑ u ∈ Finset.univ.erase t, if (routes u).bob = k then (s.places u).inFlight else 0 := by
    apply Finset.sum_congr rfl
    intro u hu
    rw [places_goTo, Function.update_of_ne (Finset.ne_of_mem_erase hu)]
  rw [settled, settled, ← Finset.add_sum_erase _ _ (Finset.mem_univ t), hsame,
    ← Finset.add_sum_erase _ _ (Finset.mem_univ t), places_goTo, Function.update_self, money_goTo]
  split <;> ring

theorem settled_goTo_same (hp : p.inFlight = (s.places t).inFlight) :
    settled routes (s.goTo t p) = settled routes s := by
  funext k
  rw [settled_goTo, hp, sub_self, ite_self, add_zero]

omit [DecidableEq θ] in
theorem settled_changeMoney (routes : θ → Route κ) (s : NestedBank κ θ) (a : κ) (amount : ℚ) (k : κ) :
    settled routes (s.changeMoney a amount) k = settled routes s k + if k = a then amount else 0 := by
  by_cases hk : k = a
  · subst hk
    rw [settled, settled, money_changeMoney_self, if_pos rfl]
    exact add_right_comm _ _ _
  · rw [settled, settled, money_changeMoney_of_ne hk, if_neg hk, add_zero]
    rfl

omit [DecidableEq θ] in
theorem settled_of_holds (h : LocksKept routes s) (hk : Holds routes s.places t k) (ht : (s.places t).inFlight = 0) :
    settled routes s k = s.money k := by
  rw [settled, add_eq_left]
  apply Finset.sum_eq_zero
  intro u _
  split
  next hbob =>
    cases hplace : s.places u with
    | depositing amount =>
        have hu : Holds routes s.places u k := .inr ⟨by rw [hplace]; rfl, hbob.symm⟩
        rw [← h.mutexes.sole u t k hu hk, hplace] at ht
        exact ht
    | _ => rfl
  next => rfl

/-- What has been checked under the locks stays true until the withdrawal. -/
structure Funded (routes : θ → Route κ) (s : NestedBank κ θ) : Prop where
  locks : LocksKept routes s
  fair : ∀ t, 0 ≤ (s.places t).amount
  funded : ∀ t amount, s.places t = .withdrawing amount → amount ≤ s.money (routes t).alice

/-- What the transfers decided so far have come to, one after another. -/
def Settles (routes : θ → Route κ) (balances : κ → ℚ) (s : NestedBank κ θ) : Prop :=
  Reachable (· = balances) (transferStep routes) always (settled routes s)

omit [DecidableEq κ] [Fintype θ] in
theorem fair_goTo (h : ∀ t, 0 ≤ (s.places t).amount) (hp : 0 ≤ p.amount) (u : θ) :
    0 ≤ ((s.goTo t p).places u).amount := by
  by_cases hu : u = t
  · subst hu
    rwa [places_goTo, Function.update_self]
  · rw [places_goTo, Function.update_of_ne hu]
    exact h u

omit [DecidableEq κ] [Fintype θ] in
theorem funded_goTo (h : ∀ u amount, u ≠ t → s.places u = .withdrawing amount → amount ≤ s.money (routes u).alice)
    (hp : ∀ amount, p = .withdrawing amount → amount ≤ s.money (routes t).alice) (u : θ) (amount : ℚ)
    (hu : (s.goTo t p).places u = .withdrawing amount) : amount ≤ (s.goTo t p).money (routes u).alice := by
  by_cases hut : u = t
  · subst hut
    rw [places_goTo, Function.update_self] at hu
    exact hp amount hu
  · rw [places_goTo, Function.update_of_ne hut] at hu
    exact h u amount hut hu

omit [DecidableEq θ] [Fintype θ] in
theorem Funded.others (h : Funded routes s) (hk : Holds routes s.places t k) (amount : ℚ) (u : θ) (x : ℚ)
    (hut : u ≠ t) (hu : s.places u = .withdrawing x) : x ≤ (s.changeMoney k amount).money (routes u).alice := by
  have hne : (routes u).alice ≠ k := by
    intro halice
    exact hut (h.locks.mutexes.sole u t k (.inl ⟨by rw [hu]; rfl, halice.symm⟩) hk)
  rw [money_changeMoney_of_ne hne]
  exact h.funded u x hu

omit [Fintype θ] in
theorem Funded.moved (h : Funded routes s) (hm : Moved routes t s s') : Funded routes s' := by
  have hlocks := h.locks.moved hm
  have hamount := h.fair t
  have hsame : ∀ u x, u ≠ t → s.places u = .withdrawing x → x ≤ s.money (routes u).alice :=
    fun u x _ hu => h.funded u x hu
  cases hm with
  | takeAlice amount hp hfree he | takeBob amount hp hfree he =>
      subst he
      rw [hp] at hamount
      exact ⟨hlocks, fair_goTo h.fair hamount, funded_goTo hsame nofun⟩
  | refuse amount hp he | giveBob hp he | giveAlice hp he =>
      subst he
      exact ⟨hlocks, fair_goTo h.fair le_rfl, funded_goTo hsame nofun⟩
  | accept amount hp hfunded he =>
      subst he
      rw [hp] at hamount
      refine ⟨hlocks, fair_goTo h.fair hamount, funded_goTo hsame ?_⟩
      rintro _ ⟨⟩
      exact hfunded
  | withdraw amount hp he =>
      subst he
      rw [hp] at hamount
      have halice : Holds routes s.places t (routes t).alice := .inl ⟨by rw [hp]; rfl, rfl⟩
      exact ⟨hlocks, fair_goTo h.fair hamount, funded_goTo (h.others halice (-amount)) nofun⟩
  | deposit amount hp he =>
      subst he
      have hbob : Holds routes s.places t (routes t).bob := .inr ⟨by rw [hp]; rfl, rfl⟩
      exact ⟨hlocks, fair_goTo h.fair le_rfl, funded_goTo (h.others hbob amount) nofun⟩

/-- The withdrawal is where a transfer takes place; the other steps change nothing. -/
theorem Settles.moved (h : Settles routes balances s) (hf : Funded routes s) (hm : Moved routes t s s') :
    Settles routes balances s' := by
  cases hm with
  | takeAlice amount hp hfree he | takeBob amount hp hfree he | refuse amount hp he | accept amount hp hfunded he
  | giveBob hp he | giveAlice hp he =>
      subst he
      rw [Settles, settled_goTo_same (by simp [hp, Place.inFlight, unlock])]
      exact h
  | withdraw amount hp he =>
      subst he
      have halice : Holds routes s.places t (routes t).alice := .inl ⟨by rw [hp]; rfl, rfl⟩
      have hmoney := settled_of_holds hf.locks halice (by rw [hp]; rfl)
      have hfair := hf.fair t
      rw [hp] at hfair
      refine .next (t, amount) h trivial ?_
      rw [transferStep, if_pos ⟨hfair, by rw [hmoney]; exact hf.funded t amount hp⟩]
      congr 1
      funext k
      have hplace : (s.changeMoney (routes t).alice (-amount)).places t = .withdrawing amount := hp
      rw [settled_goTo, settled_changeMoney, hplace, transferMoney]
      by_cases hb : k = (routes t).bob
      · subst hb
        have hne := hf.locks.apart t (by rw [hp]; rfl)
        simp [Function.update_self, hne.symm, Place.inFlight]
      · rw [Function.update_of_ne hb, if_neg (Ne.symm hb)]
        by_cases ha : k = (routes t).alice
        · subst ha
          rw [Function.update_self, if_pos rfl]
          ring
        · rw [Function.update_of_ne ha, if_neg ha]
          ring
  | deposit amount hp he =>
      subst he
      have hsame : settled routes ((s.changeMoney (routes t).bob amount).goTo t .unlockingBob) = settled routes s := by
        funext k
        have hplace : (s.changeMoney (routes t).bob amount).places t = .depositing amount := hp
        rw [settled_goTo, settled_changeMoney, hplace]
        by_cases hb : k = (routes t).bob
        · subst hb
          simp [Place.inFlight]
        · rw [if_neg hb, if_neg (Ne.symm hb), add_zero, add_zero]
      rw [Settles, hsame]
      exact h

end Atomic

/-- The invariant of a run. -/
structure Inv [Fintype θ] (routes : θ → Route κ) (balances : κ → ℚ) (s : NestedBank κ θ) : Prop where
  funded : Funded routes s
  settles : Settles routes balances s
  solvent : (∀ k, 0 ≤ balances k) → ∀ k, 0 ≤ s.money k

theorem Inv.moved [Fintype θ] (h : Inv routes balances s) (hm : Moved routes t s s') : Inv routes balances s' := by
  refine ⟨h.funded.moved hm, h.settles.moved h.funded hm, fun hpos k => ?_⟩
  have hsolvent := h.solvent hpos k
  have hfair := h.funded.fair t
  cases hm with
  | takeAlice _ hp _ he | takeBob _ hp _ he | refuse _ hp he | accept _ hp _ he | giveBob hp he | giveAlice hp he =>
      subst he
      exact hsolvent
  | withdraw amount hp he =>
      subst he
      have hfunded := h.funded.funded t amount hp
      rw [money_goTo]
      by_cases hk : k = (routes t).alice
      · subst hk
        rw [money_changeMoney_self, ← sub_eq_add_neg]
        exact sub_nonneg.mpr hfunded
      · rwa [money_changeMoney_of_ne hk]
  | deposit amount hp he =>
      subst he
      rw [hp] at hfair
      rw [money_goTo]
      by_cases hk : k = (routes t).bob
      · subst hk
        rw [money_changeMoney_self]
        exact add_nonneg hsolvent hfair
      · rwa [money_changeMoney_of_ne hk]

theorem Inv.step [Fintype θ] {act : Act θ} (h : Inv routes balances s) (hs : step routes act s = some s') :
    Inv routes balances s' := by
  cases act with
  | transferMoney t amount =>
      obtain ⟨⟨hp, hfair, -⟩, he⟩ := Option.ite_none_right_eq_some.mp hs
      cases he
      refine ⟨⟨h.funded.locks.begin hp amount, fair_goTo h.funded.fair hfair, ?_⟩, ?_, h.solvent⟩
      · exact funded_goTo (fun u x _ hu => h.funded.funded u x hu) nofun
      · rw [Settles, settled_goTo_same (by rw [hp]; rfl)]
        exact h.settles
  | advance t => exact h.moved (moved_of_advance hs)

omit [DecidableEq θ] in
theorem Inv.start [Fintype θ] (balances : κ → ℚ) :
    ∀ s, start balances s → Inv routes balances (s : NestedBank κ θ) := by
  rintro _ rfl
  refine ⟨⟨LocksKept.start balances _ rfl, fun _ => le_rfl, nofun⟩, .start ?_, fun hpos => hpos⟩
  funext k
  simp [settled, Place.inFlight]

def bothWays : Fin 2 → Route (Fin 2)
  | 0 => ⟨0, 1⟩
  | 1 => ⟨1, 0⟩

theorem reachable_step_of_advance (h : Reachable (· = s) (advance routes) always s') :
    Reachable (· = s) (step routes) always s' := by
  induction h with
  | start h => exact .start h
  | next t _ hc hs ih => exact .next (.advance t) ih hc hs

/-- A transfer can come to stand still for ever exactly when the transfers of the threads go round
in a circle. -/
theorem stuck_forever_iff_circuit [Fintype κ] [Fintype θ] (routes : θ → Route κ) (balances : κ → ℚ) :
    (∃ s, Reachable (start balances) (step routes) always s ∧ ∃ t, s.places t ≠ .idle ∧
        ∀ s', Reachable (· = s) (step routes) always s' → s'.places t = s.places t) ↔
      ∃ a, TransGen (Sends routes) a a := by
  constructor
  · rintro ⟨s, hs, t, hp, hstuck⟩
    by_contra hacyclic
    have hself : Reachable (· = s) (advance routes) always s := .start rfl
    obtain ⟨s', hr, hidle⟩ := transfers_finish (not_exists.mp hacyclic) (locksKept_of_reachable hs) hself
    rw [← hstuck s' (reachable_step_of_advance hr), hidle] at hp
    exact hp rfl
  · rintro ⟨a, ha⟩
    obtain ⟨s, hs, D, hD⟩ := reachable_deadlock balances ha
    obtain ⟨t, ht⟩ := hD.nonempty
    refine ⟨s, hs, t, fun hidle => ?_, fun s' hr => deadlocked_forever (locksKept_of_reachable hs) hD hr t ht⟩
    obtain ⟨u, -, k, hk, -⟩ := hD.blocked t ht
    simp [waiting, wants, hidle] at hk

end NestedBank

end LearnNote.Bank
