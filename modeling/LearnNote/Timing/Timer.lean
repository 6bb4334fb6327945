import Mathlib.Data.List.Basic
import Mathlib.Logic.Function.Basic
import LearnNote.Lib.Transition

namespace LearnNote.Timing

abbrev HashMap (K V : Type) := K → Option V

namespace HashMap

variable {K V : Type} [DecidableEq K]

def emplace (key : K) (val : V) (m : HashMap K V) : HashMap K V := Function.update m key (some val)

def erase (key : K) (m : HashMap K V) : HashMap K V := Function.update m key none

def exist (key : K) (m : HashMap K V) : Bool := (m key).isSome

theorem exist_emplace (key other : K) (val : V) (m : HashMap K V) :
    (m.emplace key val).exist other = (decide (other = key) || m.exist other) := by
  by_cases h : other = key
  · simp [emplace, exist, h]
  · simp [emplace, exist, h]

theorem exist_erase (key other : K) (m : HashMap K V) :
    (m.erase key).exist other = (!decide (other = key) && m.exist other) := by
  by_cases h : other = key
  · simp [erase, exist, h]
  · simp [erase, exist, h]

end HashMap

/-- Times in nanoseconds. The callback is known by the number of the call that bound it. -/
structure TimerNode where
  tnTmPoint : Int
  tnCallback : Nat
  tnId : Int
  tnRepeatedNum : Int
  tnIsPeriod : Bool
  tnIsRepeated : Bool
  tnPeriod : Int
deriving DecidableEq

inductive IdState
  | runing

namespace Timer

/-- Where the tick thread is in run_local; it holds tm_mutex_ with a node in hand, before
and after the existence check. -/
inductive Tick
  | created
  | testing
  | locking
  | asleep (timed : Bool)
  | popped (n : TimerNode)
  | checked (n : TimerNode)
  | left
deriving DecidableEq

/-- Where a caller of run_after or run_repeated is: it has its id, has entered it in the
map, has set the time of the node. -/
inductive Client
  | idle
  | numbered (n : TimerNode)
  | entered (n : TimerNode)
  | built (n : TimerNode)
deriving DecidableEq

inductive Destructor
  | idle
  | joining
  | joined
  | ended
deriving DecidableEq

inductive Event
  | entered (id : Int)
  | added (n : TimerNode)
  | cancelled (id : Int)
  | popped (n : TimerNode)
  | passed (n : TimerNode)
  | requeued (n : TimerNode)
deriving DecidableEq

end Timer

/-- The timer, its tick thread, the callers and the destructor, the clock, the number of
calls so far, and what has happened. -/
structure Timer where
  tmQueue : List TimerNode
  tmRuning : Bool
  tick : Timer.Tick
  tmId : Int
  tmIdStateMap : HashMap Int IdState
  clients : List Timer.Client
  destructor : Timer.Destructor
  now : Int
  calls : Nat
  log : List Timer.Event

namespace Timer

def Tick.notified : Tick → Tick
  | .asleep _ => .testing
  | k => k

def Tick.node : Tick → Option TimerNode
  | .popped n | .checked n => some n
  | _ => none

def Client.node : Client → Option TimerNode
  | .idle => none
  | .numbered n | .entered n | .built n => some n

def fetchAdd (id : Int) : Int := if id = 2147483647 then -2147483648 else id + 1

def number (c : Nat) (n : TimerNode) (s : Timer) : Timer :=
  { s with
    tmId := fetchAdd s.tmId
    calls := s.calls + 1
    clients := s.clients.set c (.numbered { n with tnId := s.tmId, tnCallback := s.calls }) }

/-- What the node says on repetition is not set. -/
def runAfter (c : Nat) (msTime : Int) (isPeriod isRepeated : Bool) (repeatedNum : Int) (s : Timer) : Timer :=
  s.number c
    { tnTmPoint := 0
      tnCallback := 0
      tnId := 0
      tnRepeatedNum := repeatedNum
      tnIsPeriod := isPeriod
      tnIsRepeated := isRepeated
      tnPeriod := msTime * 1000000 }

/-- tn_is_period is not set. The period counts microseconds. -/
def runRepeated (c : Nat) (msTime repeatedNum : Int) (isPeriod : Bool) (s : Timer) : Timer :=
  s.number c
    { tnTmPoint := 0
      tnCallback := 0
      tnId := 0
      tnRepeatedNum := repeatedNum
      tnIsPeriod := isPeriod
      tnIsRepeated := true
      tnPeriod := msTime * 1000 }

def enter (c : Nat) (n : TimerNode) (s : Timer) : Timer :=
  { s with
    tmIdStateMap := s.tmIdStateMap.emplace n.tnId .runing
    clients := s.clients.set c (.entered n)
    log := s.log ++ [.entered n.tnId] }

def build (c : Nat) (n : TimerNode) (s : Timer) : Timer :=
  { s with clients := s.clients.set c (.built { n with tnTmPoint := s.now + n.tnPeriod }) }

def push (c : Nat) (n : TimerNode) (s : Timer) : Timer :=
  { s with
    tmQueue := s.tmQueue ++ [n]
    tick := s.tick.notified
    clients := s.clients.set c .idle
    log := s.log ++ [.added n] }

/-- The next step of a call. The push takes tm_mutex_ and notifies. -/
def advance (c : Nat) (s : Timer) : Option Timer :=
  match s.clients[c]? with
  | some (.numbered n) => some (s.enter c n)
  | some (.entered n) => some (s.build c n)
  | some (.built n) => if s.tick.node = none then some (s.push c n) else none
  | _ => none

def cancel (id : Int) (s : Timer) : Timer :=
  { s with
    tmIdStateMap := s.tmIdStateMap.erase id
    log := s.log ++ [.cancelled id] }

/-- The top of the queue: no node is due earlier. -/
def IsTop (n : TimerNode) (queue : List TimerNode) : Prop := ∀ m ∈ queue, n.tnTmPoint ≤ m.tnTmPoint

instance (n : TimerNode) (queue : List TimerNode) : Decidable (IsTop n queue) :=
  inferInstanceAs (Decidable (∀ _ ∈ _, _))

/-- At least one millisecond is left. -/
def early (n : TimerNode) (now : Int) : Bool := 0 < (n.tnTmPoint - now).tdiv 1000000

/-- The node as it goes back to the queue, if it does. -/
def again (n : TimerNode) (now : Int) : Option TimerNode :=
  if n.tnIsPeriod then some { n with tnTmPoint := now + n.tnPeriod }
  else if n.tnIsRepeated ∧ 0 < n.tnRepeatedNum then
    some { n with tnTmPoint := now + n.tnPeriod, tnRepeatedNum := n.tnRepeatedNum - 1 }
  else none

def pop (n : TimerNode) (s : Timer) : Timer :=
  { s with
    tmQueue := s.tmQueue.erase n
    tick := .popped n
    log := s.log ++ [.popped n] }

def pass (n : TimerNode) (s : Timer) : Timer :=
  { s with
    tick := .checked n
    log := s.log ++ [.passed n] }

def requeue (n : TimerNode) (s : Timer) : Timer :=
  { s with
    tmQueue := s.tmQueue ++ [n]
    tick := .testing
    log := s.log ++ [.requeued n] }

/-- The next step of the tick thread; where several nodes are at the top, i chooses. -/
def runLocal (i : Nat) (s : Timer) : Option Timer :=
  match s.tick with
  | .testing => some { s with tick := if s.tmRuning then .locking else .left }
  | .locking =>
      match s.tmQueue[i]? with
      | none => if s.tmQueue = [] then some { s with tick := .asleep false } else none
      | some n =>
          if ¬ IsTop n s.tmQueue then none
          else if early n s.now then some { s with tick := .asleep true }
          else some (s.pop n)
  | .popped n => some (if s.tmIdStateMap.exist n.tnId then s.pass n else { s with tick := .testing })
  | .checked n =>
      match again n s.now with
      | some m => some (s.requeue m)
      | none => some { s with tick := .testing }
  | _ => none

inductive Act
  | run
  | runAfter (c : Nat) (msTime : Int) (isPeriod isRepeated : Bool) (repeatedNum : Int)
  | runRepeated (c : Nat) (msTime repeatedNum : Int) (isPeriod : Bool)
  | advance (c : Nat)
  | cancel (id : Int)
  | runLocal (i : Nat)
  | wake
  | clock (delay : Nat)
  | destroy
  | join
  | finish

/-- No call begins once the destructor has. The tick thread wakes when it is notified,
when its time is over, or for no reason. -/
def step : Act → Timer → Option Timer
  | .run, s => if s.destructor = .idle ∧ s.tick = .created then some { s with tick := .testing } else none
  | .runAfter c msTime isPeriod isRepeated repeatedNum, s =>
      if s.destructor = .idle ∧ s.clients[c]? = some .idle then
        some (s.runAfter c msTime isPeriod isRepeated repeatedNum)
      else none
  | .runRepeated c msTime repeatedNum isPeriod, s =>
      if s.destructor = .idle ∧ s.clients[c]? = some .idle then some (s.runRepeated c msTime repeatedNum isPeriod)
      else none
  | .advance c, s => s.advance c
  | .cancel id, s => if s.destructor = .idle then some (s.cancel id) else none
  | .runLocal i, s => s.runLocal i
  | .wake, s => if s.tick.notified = s.tick then none else some { s with tick := s.tick.notified }
  | .clock delay, s => some { s with now := s.now + delay }
  | .destroy, s =>
      if s.destructor = .idle then some { s with tmRuning := false, destructor := .joining } else none
  | .join, s =>
      if s.destructor = .joining ∧ (s.tick = .left ∨ s.tick = .created) then some { s with destructor := .joined }
      else none
  | .finish, s =>
      if s.destructor = .joined then some { s with tick := s.tick.notified, destructor := .ended } else none

def init (clients : Nat) : Timer where
  tmQueue := []
  tmRuning := true
  tick := .created
  tmId := 0
  tmIdStateMap := fun _ => none
  clients := List.replicate clients .idle
  destructor := .idle
  now := 0
  calls := 0
  log := []

def start (s : Timer) : Prop := ∃ clients, s = init clients

end Timer

end LearnNote.Timing
