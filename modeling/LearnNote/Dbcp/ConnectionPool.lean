import Mathlib.Data.List.Basic
import Mathlib.Logic.Function.Basic
import LearnNote.Lib.Unsigned

namespace LearnNote.Dbcp

def intMax : Int := 2147483647

def intMin : Int := -2147483648

/-- An int that is compared with a size_t. -/
def asSize (n : Int) : Nat := if 0 ≤ n then n.toNat else (n + 18446744073709551616).toNat

/-- Whether conn_ is non-null, and the time of the last return. -/
structure Connection where
  connected : Bool
  aliveTime : Nat

namespace ConnectionPool

/-- Where a thread is in start or close. -/
inductive Owner
  | idle
  | adding (i : Nat)
  | launchProducer
  | launchScanner
  | opening
  | notifying
  | closing
deriving DecidableEq

/-- A caller of GetConnection is about to take the lock, at first or after a wait that
has perhaps timed out, or it sleeps in wait_for. -/
inductive Client
  | idle
  | ready (timedOut : Bool)
  | sleeping
deriving DecidableEq

end ConnectionPool

/-- The pool, the memory of its connections, the threads around it, and what has
happened so far: the connections created and deleted, the calls of start and close,
whether cv_ has been notified since the queue became non-empty, and whether a close has
returned with no start under way or begun since. -/
structure ConnectionPool where
  minSize : Nat
  maxSize : Nat
  maxIdleTime : Nat
  exit : Bool
  connectionCount : Int
  connectionQueue : List Nat
  connections : Nat → Connection
  now : Nat
  leased : List Nat
  owners : List ConnectionPool.Owner
  clients : List ConnectionPool.Client
  producers : List Bool
  scanners : List Bool
  created : Nat
  deleted : List Nat
  starts : Nat
  closes : Nat
  notified : Bool
  settled : Bool

namespace ConnectionPool

def notifyAll (s : ConnectionPool) : ConnectionPool :=
  { s with
    clients := s.clients.map (fun c => if c = .sleeping then .ready false else c)
    notified := true }

def push (c : Nat) (s : ConnectionPool) : ConnectionPool :=
  { s with
    connectionQueue := s.connectionQueue ++ [c]
    notified := if s.connectionQueue = [] then false else s.notified }

def increment (n : Int) : Int := if n = intMax then intMin else n + 1

def decrement (n : Int) : Int := if n = intMin then intMax else n - 1

def addConnection (connected : Bool) (s : ConnectionPool) : ConnectionPool :=
  { s with
    connections := Function.update s.connections s.created ⟨connected, s.now⟩
    created := s.created + 1
    connectionCount := increment s.connectionCount }.push s.created

def getConnection (i : Nat) (s : ConnectionPool) : Option ConnectionPool :=
  match s.clients[i]? with
  | some (.ready timedOut) =>
      match s.connectionQueue with
      | [] => some { s with clients := s.clients.set i (if timedOut then .idle else .sleeping) }
      | c :: cs =>
          some { s with
            connectionQueue := cs
            leased := s.leased ++ [c]
            clients := s.clients.set i .idle }.notifyAll
  | _ => none

def refreshAliveTime (c : Nat) (s : ConnectionPool) : ConnectionPool :=
  { s with connections := Function.update s.connections c { s.connections c with aliveTime := s.now } }

def release (c : Nat) (s : ConnectionPool) : Option ConnectionPool :=
  if c ∈ s.leased then
    some (if s.exit then { s with leased := s.leased.erase c, deleted := s.deleted ++ [c] }
      else ({ s with leased := s.leased.erase c }.refreshAliveTime c).push c)
  else none

def produceConnectionTask (i : Nat) (connected : Bool) (s : ConnectionPool) : Option ConnectionPool :=
  if s.producers[i]? = some true then
    if s.exit then some { s with producers := s.producers.set i false }
    else if s.connectionQueue = [] then
      some (if asSize s.connectionCount < s.maxSize then s.addConnection connected else s).notifyAll
    else some s
  else none

/-- The idle time in milliseconds, read when the clock has gone on. -/
def getAliveTime (c : Nat) (s : ConnectionPool) : Nat := (s.now - (s.connections c).aliveTime) / 1000000

def isIdle (c : Nat) (s : ConnectionPool) : Bool := sizeT (s.maxIdleTime * 1000) ≤ s.getAliveTime c

def tooMany (s : ConnectionPool) : Bool := s.minSize < asSize s.connectionCount

def evict (c : Nat) (s : ConnectionPool) : ConnectionPool :=
  { s with
    connectionQueue := s.connectionQueue.tail
    connectionCount := decrement s.connectionCount
    deleted := s.deleted ++ [c] }

def tick (delay : Nat) (s : ConnectionPool) : ConnectionPool := { s with now := s.now + delay }

/-- The eviction loop on an empty queue, where front() is undefined: the pointers that
it happens to read. -/
def evictStale : List Nat → ConnectionPool → Option ConnectionPool
  | [], s => if s.tooMany then none else some s
  | c :: cs, s =>
      if s.tooMany then if s.isIdle c then evictStale cs (s.evict c) else some s
      else some s

/-- The eviction loop, along the queue. The clock goes on before each look at a connection. -/
def evictLoop (stale : List Nat) : List Nat → List Nat → ConnectionPool → Option ConnectionPool
  | [], _, s => evictStale stale s
  | c :: cs, delays, s =>
      if s.tooMany then
        let s := s.tick (delays.headD 0)
        if s.isIdle c then evictLoop stale cs delays.tail (s.evict c) else some s
      else some s

def scannerConnectionTask (i : Nat) (ready : Bool) (delays stale : List Nat) (s : ConnectionPool) :
    Option ConnectionPool :=
  if s.scanners[i]? = some true then
    if ready = false ∨ s.exit = true then some { s with scanners := s.scanners.set i false }
    else evictLoop stale s.connectionQueue delays s
  else none

def Owner.starting : Owner → Bool
  | .idle | .closing => false
  | _ => true

/-- The locked part of close. -/
def drain (i : Nat) (s : ConnectionPool) : ConnectionPool :=
  { s with
    connectionQueue := []
    deleted := s.deleted ++ s.connectionQueue
    owners := s.owners.set i .idle
    settled := !s.owners.any Owner.starting }.notifyAll

def advance (i : Nat) (connected : Bool) (s : ConnectionPool) : Option ConnectionPool :=
  match s.owners[i]? with
  | none | some .idle => none
  | some (.adding n) =>
      if n < s.minSize then some { s.addConnection connected with owners := s.owners.set i (.adding (n + 1)) }
      else some { s with owners := s.owners.set i .launchProducer }
  | some .launchProducer =>
      some { s with producers := s.producers ++ [true], owners := s.owners.set i .launchScanner }
  | some .launchScanner => some { s with scanners := s.scanners ++ [true], owners := s.owners.set i .opening }
  | some .opening => some { s with exit := false, owners := s.owners.set i .notifying }
  | some .notifying => some { s with owners := s.owners.set i .idle }.notifyAll
  | some .closing => some (s.drain i)

inductive Act
  | start (i minSize maxSize maxIdleTime : Nat)
  | close (i : Nat)
  | advance (i : Nat) (connected : Bool)
  | call (i : Nat)
  | wake (i : Nat) (timedOut : Bool)
  | getConnection (i : Nat)
  | release (c : Nat)
  | produce (i : Nat) (connected : Bool)
  | scan (i : Nat) (ready : Bool) (delays stale : List Nat)
  | tick (delay : Nat)

/-- A call of start whose configuration is read, a call of close up to its lock, and the
locked sections. A sleeper may wake at any time. -/
def step : Act → ConnectionPool → Option ConnectionPool
  | .start i minSize maxSize maxIdleTime, s =>
      if s.owners[i]? = some .idle then
        some { s with
          minSize := minSize
          maxSize := maxSize
          maxIdleTime := maxIdleTime
          owners := s.owners.set i (.adding 0)
          starts := s.starts + 1
          settled := false }
      else none
  | .close i, s =>
      if s.owners[i]? = some .idle then
        some { s with exit := true, owners := s.owners.set i .closing, closes := s.closes + 1 }
      else none
  | .advance i connected, s => s.advance i connected
  | .call i, s =>
      if s.clients[i]? = some .idle then some { s with clients := s.clients.set i (.ready false) } else none
  | .wake i timedOut, s =>
      if s.clients[i]? = some .sleeping then some { s with clients := s.clients.set i (.ready timedOut) } else none
  | .getConnection i, s => s.getConnection i
  | .release c, s => s.release c
  | .produce i connected, s => s.produceConnectionTask i connected
  | .scan i ready delays stale, s => s.scannerConnectionTask i ready delays stale
  | .tick delay, s => some (s.tick delay)

def init (owners clients : Nat) : ConnectionPool where
  minSize := 0
  maxSize := 0
  maxIdleTime := 0
  exit := false
  connectionCount := 0
  connectionQueue := []
  connections := fun _ => ⟨false, 0⟩
  now := 0
  leased := []
  owners := List.replicate owners .idle
  clients := List.replicate clients .idle
  producers := []
  scanners := []
  created := 0
  deleted := []
  starts := 0
  closes := 0
  notified := false
  settled := false

def start (s : ConnectionPool) : Prop := ∃ owners clients, s = init owners clients

/-- A call of start from its beginning to its end, without other threads in between. -/
def starting (i minSize maxSize maxIdleTime : Nat) : List Act :=
  .start i minSize maxSize maxIdleTime :: List.replicate (minSize + 5) (.advance i true)

end ConnectionPool

end LearnNote.Dbcp
