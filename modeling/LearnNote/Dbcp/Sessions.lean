import LearnNote.Dbcp.Accounting

namespace LearnNote.Dbcp

open Lib.Transition

/-- How far the start that launched a producer is: struck if a close was called between
its exit_ = false and its return, and ended once a close is called after its return. -/
inductive Session
  | launched
  | opened (struck : Bool)
  | returned (struck : Bool)
  | ended
deriving DecidableEq

/-- The pool with the session of each producer, and which producer each owner has
launched last. -/
structure Sessions where
  pool : ConnectionPool
  sessions : List Session
  launched : Nat → Nat

namespace Session

def opens : Session → Session
  | .launched => .opened false
  | s => s

def returns : Session → Session
  | .opened struck => .returned struck
  | s => s

def closes : Session → Session
  | .opened _ => .opened true
  | .returned _ => .ended
  | s => s

/-- The start of this producer does not guarantee that exit_ is clear. -/
def exposed : Session → Bool
  | .launched | .opened true | .returned true => true
  | _ => false

theorem ended_of_opens {σ : Session} (h : σ.opens ≠ .ended) : σ ≠ .ended := by
  rintro rfl
  exact h rfl

theorem ended_of_returns {σ : Session} (h : σ.returns ≠ .ended) : σ ≠ .ended := by
  rintro rfl
  exact h rfl

theorem ended_of_closes {σ : Session} (h : σ.closes ≠ .ended) : σ ≠ .ended := by
  rintro rfl
  exact h rfl

end Session

namespace Sessions

open ConnectionPool (Act Moves moves_of_step)

def record (a : Act) (s : Sessions) (t : ConnectionPool) : Sessions :=
  match a with
  | .close _ => { s with pool := t, sessions := s.sessions.map Session.closes }
  | .advance i _ =>
      match s.pool.owners[i]? with
      | some .launchProducer =>
          { pool := t
            sessions := s.sessions ++ [.launched]
            launched := Function.update s.launched i s.sessions.length }
      | some .opening => { s with pool := t, sessions := s.sessions.modify (s.launched i) Session.opens }
      | some .notifying => { s with pool := t, sessions := s.sessions.modify (s.launched i) Session.returns }
      | _ => { s with pool := t }
  | _ => { s with pool := t }

def step (a : Act) (s : Sessions) : Option Sessions := (ConnectionPool.step a s.pool).map (s.record a)

def start (s : Sessions) : Prop := ConnectionPool.start s.pool ∧ s.sessions = []

/-- A producer whose start has not cleared exit_ yet, or whose start a close has struck,
takes a step only where exit_ is clear. -/
def Sheltered : Act → Sessions → Prop
  | .produce p _, s => s.sessions[p]?.any Session.exposed = true → s.pool.exit = false
  | _, _ => True

instance : ∀ (a : Act) (s : Sessions), Decidable (Sheltered a s)
  | .produce _ _, _ => inferInstanceAs (Decidable (_ → _))
  | .start _ _ _ _, _ | .close _, _ | .advance _ _, _ | .call _, _ | .wake _ _, _ | .getConnection _, _ |
    .release _, _ | .scan _ _ _ _, _ | .tick _, _ => inferInstanceAs (Decidable True)

/-- The producers whose sessions have not ended are in their loops. -/
def InLoop (s : Sessions) : Prop :=
  ∀ (p : Nat) (σ : Session), s.sessions[p]? = some σ → σ ≠ .ended → s.pool.producers[p]? = some true

/-- From exit_ = false on to the next close the pool is open. -/
structure Kept (s : Sessions) : Prop where
  length : s.sessions.length = s.pool.producers.length
  inLoop : InLoop s
  open_ : ∀ (p : Nat) (σ : Session), s.sessions[p]? = some σ → σ ≠ .ended → σ.exposed = false → s.pool.exit = false

variable {s t : Sessions}

theorem record_pool (a : Act) (s : Sessions) (t : ConnectionPool) : (s.record a t).pool = t := by
  cases a with
  | advance i connected =>
      simp only [record]
      split <;> rfl
  | _ => rfl

theorem record_sessions {i : Nat} {connected : Bool} {o : ConnectionPool.Owner} {u : ConnectionPool}
    (hi : s.pool.owners[i]? = some o) (hlaunch : o ≠ .launchProducer) (hopening : o ≠ .opening)
    (hnotifying : o ≠ .notifying) : (s.record (.advance i connected) u).sessions = s.sessions := by
  rw [record, hi]
  cases o with
  | launchProducer => exact absurd rfl hlaunch
  | opening => exact absurd rfl hopening
  | notifying => exact absurd rfl hnotifying
  | _ => rfl

theorem Kept.frame (h : Kept s) (hsessions : t.sessions = s.sessions)
    (hproducers : t.pool.producers = s.pool.producers) (hexit : t.pool.exit = s.pool.exit) : Kept t := by
  obtain ⟨h1, h2, h3⟩ := h
  refine ⟨by rw [hsessions, hproducers, h1], ?_, ?_⟩
  · rw [InLoop, hsessions, hproducers]
    exact h2
  · rw [hsessions, hexit]
    exact h3

theorem Kept.launch (h : Kept s) (hsessions : t.sessions = s.sessions ++ [.launched])
    (hproducers : t.pool.producers = s.pool.producers ++ [true]) (hexit : t.pool.exit = s.pool.exit) : Kept t := by
  have hcases : ∀ {p : Nat} {σ : Session}, t.sessions[p]? = some σ →
      s.sessions[p]? = some σ ∨ p = s.sessions.length ∧ σ = .launched := by
    intro p σ hp
    rw [hsessions, List.getElem?_append] at hp
    split at hp
    next => exact .inl hp
    next hle =>
      obtain ⟨hlt, he⟩ := List.getElem?_eq_some_iff.mp hp
      have hzero : p - s.sessions.length = 0 := Nat.lt_one_iff.mp hlt
      simp only [hzero, List.getElem_cons_zero] at he
      exact .inr ⟨by omega, he.symm⟩
  refine ⟨by simp [hsessions, hproducers, h.length], ?_, ?_⟩
  · intro p σ hp hended
    rw [hproducers]
    rcases hcases hp with hp | ⟨rfl, -⟩
    · have hloop := h.inLoop p σ hp hended
      rw [List.getElem?_append_left (List.getElem?_eq_some_iff.mp hloop).1, hloop]
    · rw [h.length, List.getElem?_concat_length]
  · intro p σ hp hended hexposed
    rw [hexit]
    rcases hcases hp with hp | ⟨-, rfl⟩
    · exact h.open_ p σ hp hended hexposed
    · cases hexposed

theorem Kept.modify {f : Session → Session} (h : Kept s) (i : Nat) (hsessions : t.sessions = s.sessions.modify i f)
    (hended : ∀ {σ}, f σ ≠ .ended → σ ≠ .ended) (hproducers : t.pool.producers = s.pool.producers)
    (hopen : ∀ σ, f σ ≠ .ended → (f σ).exposed = false → t.pool.exit = false ∨ σ.exposed = false)
    (hexit : t.pool.exit = false ∨ t.pool.exit = s.pool.exit) : Kept t := by
  refine ⟨by rw [hsessions, hproducers, List.length_modify, h.length], ?_, ?_⟩
  · intro p σ hp hne
    rw [hsessions, List.getElem?_modify] at hp
    obtain ⟨τ, hτ, rfl⟩ := Option.map_eq_some_iff.mp hp
    rw [hproducers]
    apply h.inLoop p τ hτ
    split at hne
    next => exact hended hne
    next => exact hne
  · intro p σ hp hne hexposed
    rw [hsessions, List.getElem?_modify] at hp
    obtain ⟨τ, hτ, rfl⟩ := Option.map_eq_some_iff.mp hp
    rcases hexit with hexit | hexit
    · exact hexit
    by_cases hip : i = p
    · rw [if_pos hip] at hne hexposed
      rcases hopen τ hne hexposed with hopen | hτe
      · exact hopen
      · exact hexit.trans (h.open_ p τ hτ (hended hne) hτe)
    · rw [if_neg hip] at hne hexposed
      exact hexit.trans (h.open_ p τ hτ hne hexposed)

theorem Kept.close (h : Kept s) (hsessions : t.sessions = s.sessions.map Session.closes)
    (hproducers : t.pool.producers = s.pool.producers) : Kept t := by
  have hcases : ∀ {p : Nat} {σ : Session}, t.sessions[p]? = some σ →
      ∃ τ, s.sessions[p]? = some τ ∧ τ.closes = σ := by
    intro p σ hp
    rw [hsessions, List.getElem?_map] at hp
    exact Option.map_eq_some_iff.mp hp
  refine ⟨by rw [hsessions, hproducers, List.length_map, h.length], ?_, ?_⟩
  · intro p σ hp hended
    obtain ⟨τ, hτ, rfl⟩ := hcases hp
    rw [hproducers]
    exact h.inLoop p τ hτ (Session.ended_of_closes hended)
  · intro p σ hp hended hexposed
    obtain ⟨τ, -, rfl⟩ := hcases hp
    cases τ with
    | launched => cases hexposed
    | opened struck => cases hexposed
    | returned struck => exact absurd rfl hended
    | ended => exact absurd rfl hended

theorem Kept.leave (h : Kept s) {p : Nat} (hp : s.pool.producers[p]? = some true) (hexit : s.pool.exit = true)
    (hsheltered : s.sessions[p]?.any Session.exposed = true → s.pool.exit = false)
    (hsessions : t.sessions = s.sessions) (hproducers : t.pool.producers = s.pool.producers.set p false)
    (hsame : t.pool.exit = s.pool.exit) : Kept t := by
  refine ⟨by rw [hsessions, hproducers, List.length_set, h.length], ?_, ?_⟩
  · intro q σ hq hended
    rw [hsessions] at hq
    by_cases he : q = p
    · -- the session of a producer that leaves has ended
      subst he
      have hopen : s.pool.exit = false := by
        cases hexposed : σ.exposed with
        | true => exact hsheltered (by rw [hq]; exact hexposed)
        | false => exact h.open_ q σ hq hended hexposed
      rw [hexit] at hopen
      cases hopen
    · rw [hproducers, List.getElem?_set_ne (Ne.symm he)]
      exact h.inLoop q σ hq hended
  · rw [hsessions, hsame]
    exact h.open_

theorem Kept.move {a : Act} {u : ConnectionPool} (h : Kept s) (hsheltered : Sheltered a s)
    (hm : Moves s.pool a u) : Kept (s.record a u) := by
  have hpool := record_pool a s u
  cases hm with
  | launchProducer i connected hi =>
      apply h.launch
      · simp only [record, hi]
      · rw [hpool]
      · rw [hpool]
  | reopen i connected hi =>
      refine h.modify (f := .opens) (s.launched i) (by simp only [record, hi])
        Session.ended_of_opens (by rw [hpool]) ?_ ?_
      · exact fun _ _ _ => .inl (by rw [hpool])
      · exact .inl (by rw [hpool])
  | started i connected hi =>
      refine h.modify (f := .returns) (s.launched i) (by simp only [record, hi]) Session.ended_of_returns ?_ ?_ ?_
      · rw [hpool, ConnectionPool.notifyAll]
      · intro σ _ hexposed
        right
        cases σ with
        | opened struck =>
            cases struck with
            | true => cases hexposed
            | false => rfl
        | _ => exact hexposed
      · exact .inr (by rw [hpool, ConnectionPool.notifyAll])
  | close i hi => exact h.close rfl rfl
  | leaveProducer i connected hi hexit => exact h.leave hi hexit hsheltered rfl rfl rfl
  | add i n connected hi | added i n connected hi =>
      exact h.frame (record_sessions hi (by simp) (by simp) (by simp)) (congrArg (·.producers) hpool)
        (congrArg (·.exit) hpool)
  | launchScanner i connected hi | drain i connected hi =>
      exact h.frame (record_sessions hi (by simp) (by simp) (by simp)) (congrArg (·.producers) hpool)
        (congrArg (·.exit) hpool)
  | scan i delays stale t hi hopen hloop =>
      have hkeep : u.producers = s.pool.producers ∧ u.exit = s.pool.exit :=
        ConnectionPool.evictLoop_keeps_stale (P := fun u => u.producers = s.pool.producers ∧ u.exit = s.pool.exit)
          (fun _ _ h => h) (fun _ _ h => h) _ _ ⟨rfl, rfl⟩ hloop
      exact h.frame rfl hkeep.1 hkeep.2
  | _ => exact h.frame rfl rfl rfl

theorem kept_of_step {a : Act} (h : Kept s) (hsheltered : Sheltered a s) (hs : step a s = some t) : Kept t := by
  obtain ⟨u, hu, rfl⟩ := Option.map_eq_some_iff.mp hs
  exact h.move hsheltered (moves_of_step hu)

/-- A producer that is not sheltered leaves its loop before its session has ended. -/
theorem not_inLoop {a : Act} (hsheltered : ¬ Sheltered a s) (hs : step a s = some t) : ¬ InLoop t := by
  cases a with
  | produce p connected =>
      simp only [Sheltered, Classical.not_imp, Bool.not_eq_false] at hsheltered
      obtain ⟨hexposed, hexit⟩ := hsheltered
      obtain ⟨σ, hσ, hσe⟩ := (Option.any_eq_true _ _).mp hexposed
      obtain ⟨u, hu, rfl⟩ := Option.map_eq_some_iff.mp hs
      obtain ⟨hp, hu⟩ := Option.ite_none_right_eq_some.mp hu
      rw [if_pos hexit] at hu
      cases hu
      intro hloop
      have hended : σ ≠ .ended := by
        rintro rfl
        cases hσe
      have hstill := hloop p σ hσ hended
      simp only [record] at hstill
      rw [List.getElem?_set_self (List.getElem?_eq_some_iff.mp hp).1] at hstill
      cases hstill
  | _ => exact absurd trivial hsheltered

def init (owners clients : Nat) : Sessions := ⟨ConnectionPool.init owners clients, [], fun _ => 0⟩

end Sessions

end LearnNote.Dbcp
