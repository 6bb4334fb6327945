import Mathlib.Data.List.Nodup
import LearnNote.Lib.Slots
import LearnNote.Timing.Timer

namespace LearnNote.Timing

open Lib

namespace Timer

/-- The steps as a relation, with what each has found and what it leaves. -/
inductive Moves (s : Timer) : Act → Timer → Prop
  | run (htick : s.tick = .created) : Moves s .run { s with tick := .testing }
  | runAfter (c msTime isPeriod isRepeated repeatedNum) (hd : s.destructor = .idle)
      (hc : s.clients[c]? = some .idle) :
      Moves s (.runAfter c msTime isPeriod isRepeated repeatedNum)
        (s.runAfter c msTime isPeriod isRepeated repeatedNum)
  | runRepeated (c msTime repeatedNum isPeriod) (hd : s.destructor = .idle) (hc : s.clients[c]? = some .idle) :
      Moves s (.runRepeated c msTime repeatedNum isPeriod) (s.runRepeated c msTime repeatedNum isPeriod)
  | enter (c n) (hc : s.clients[c]? = some (.numbered n)) : Moves s (.advance c) (s.enter c n)
  | build (c n) (hc : s.clients[c]? = some (.entered n)) : Moves s (.advance c) (s.build c n)
  | push (c n) (hc : s.clients[c]? = some (.built n)) (hfree : s.tick.node = none) :
      Moves s (.advance c) (s.push c n)
  | cancel (id) (hd : s.destructor = .idle) : Moves s (.cancel id) (s.cancel id)
  | test (i) (htick : s.tick = .testing) :
      Moves s (.runLocal i) { s with tick := if s.tmRuning then .locking else .left }
  | rest (i) (htick : s.tick = .locking) (hq : s.tmQueue = []) :
      Moves s (.runLocal i) { s with tick := .asleep false }
  | doze (i) (htick : s.tick = .locking) (hq : s.tmQueue ≠ []) :
      Moves s (.runLocal i) { s with tick := .asleep true }
  | pop (i n) (htick : s.tick = .locking) (hn : n ∈ s.tmQueue) (htop : IsTop n s.tmQueue)
      (hdue : early n s.now = false) : Moves s (.runLocal i) (s.pop n)
  | pass (i n) (htick : s.tick = .popped n) (hexist : s.tmIdStateMap.exist n.tnId = true) :
      Moves s (.runLocal i) (s.pass n)
  | drop (i n) (htick : s.tick = .popped n) (hexist : s.tmIdStateMap.exist n.tnId = false) :
      Moves s (.runLocal i) { s with tick := .testing }
  | requeue (i n m) (htick : s.tick = .checked n) (hagain : again n s.now = some m) :
      Moves s (.runLocal i) (s.requeue m)
  | done (i n) (htick : s.tick = .checked n) (hagain : again n s.now = none) :
      Moves s (.runLocal i) { s with tick := .testing }
  | wake (timed) (htick : s.tick = .asleep timed) : Moves s .wake { s with tick := .testing }
  | clock (delay) : Moves s (.clock delay) { s with now := s.now + delay }
  | destroy (hd : s.destructor = .idle) :
      Moves s .destroy
        { s with
          tmRuning := false
          destructor := .joining }
  | join (hd : s.destructor = .joining) : Moves s .join { s with destructor := .joined }
  | finish (hd : s.destructor = .joined) :
      Moves s .finish
        { s with
          tick := s.tick.notified
          destructor := .ended }

variable {s t : Timer}

theorem moves_advance {c : Nat} (hs : s.advance c = some t) : Moves s (.advance c) t := by
  rw [advance] at hs
  split at hs
  next n hc =>
    cases hs
    exact .enter c n hc
  next n hc =>
    cases hs
    exact .build c n hc
  next n hc =>
    obtain ⟨hfree, he⟩ := Option.ite_none_right_eq_some.mp hs
    cases he
    exact .push c n hc hfree
  next => cases hs

theorem moves_runLocal {i : Nat} (hs : s.runLocal i = some t) : Moves s (.runLocal i) t := by
  rw [runLocal] at hs
  split at hs
  next htick =>
    cases hs
    exact .test i htick
  next htick =>
    split at hs
    next =>
      obtain ⟨hq, he⟩ := Option.ite_none_right_eq_some.mp hs
      cases he
      exact .rest i htick hq
    next n hi =>
      have hn : n ∈ s.tmQueue := List.mem_of_getElem? hi
      obtain ⟨htop, hs⟩ := Option.ite_none_left_eq_some.mp hs
      split at hs
      next =>
        cases hs
        exact .doze i htick (List.ne_nil_of_mem hn)
      next hdue =>
        cases hs
        exact .pop i n htick hn (not_not.mp htop) (by simpa using hdue)
  next n htick =>
    cases hs
    split
    next hexist => exact .pass i n htick hexist
    next hexist => exact .drop i n htick (by simpa using hexist)
  next n htick =>
    split at hs
    next m hagain =>
      cases hs
      exact .requeue i n m htick hagain
    next hagain =>
      cases hs
      exact .done i n htick hagain
  next => cases hs

theorem moves_wake (hs : step .wake s = some t) : Moves s .wake t := by
  obtain ⟨hne, he⟩ := Option.ite_none_left_eq_some.mp hs
  cases he
  cases htick : s.tick with
  | asleep timed => exact .wake timed htick
  | _ =>
      rw [htick] at hne
      exact absurd rfl hne

theorem moves_of_step {a : Act} (hs : step a s = some t) : Moves s a t := by
  cases a with
  | run =>
      obtain ⟨⟨-, htick⟩, he⟩ := Option.ite_none_right_eq_some.mp hs
      cases he
      exact .run htick
  | runAfter c msTime isPeriod isRepeated repeatedNum =>
      obtain ⟨⟨hd, hc⟩, he⟩ := Option.ite_none_right_eq_some.mp hs
      cases he
      exact .runAfter c msTime isPeriod isRepeated repeatedNum hd hc
  | runRepeated c msTime repeatedNum isPeriod =>
      obtain ⟨⟨hd, hc⟩, he⟩ := Option.ite_none_right_eq_some.mp hs
      cases he
      exact .runRepeated c msTime repeatedNum isPeriod hd hc
  | advance c => exact moves_advance hs
  | cancel id =>
      obtain ⟨hd, he⟩ := Option.ite_none_right_eq_some.mp hs
      cases he
      exact .cancel id hd
  | runLocal i => exact moves_runLocal hs
  | wake => exact moves_wake hs
  | clock delay =>
      cases hs
      exact .clock delay
  | destroy =>
      obtain ⟨hd, he⟩ := Option.ite_none_right_eq_some.mp hs
      cases he
      exact .destroy hd
  | join =>
      obtain ⟨⟨hd, -⟩, he⟩ := Option.ite_none_right_eq_some.mp hs
      cases he
      exact .join hd
  | finish =>
      obtain ⟨hd, he⟩ := Option.ite_none_right_eq_some.mp hs
      cases he
      exact .finish hd

end Timer

end LearnNote.Timing
