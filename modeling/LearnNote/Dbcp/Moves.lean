import LearnNote.Dbcp.ConnectionPool

namespace LearnNote.Dbcp

namespace ConnectionPool

/-- The steps as a relation, with what each has found and what it leaves. -/
inductive Moves (s : ConnectionPool) : Act → ConnectionPool → Prop
  | start (i minSize maxSize maxIdleTime) (hi : s.owners[i]? = some .idle) :
      Moves s (.start i minSize maxSize maxIdleTime)
        { s with
          minSize := minSize
          maxSize := maxSize
          maxIdleTime := maxIdleTime
          owners := s.owners.set i (.adding 0)
          starts := s.starts + 1
          settled := false }
  | add (i n connected) (hi : s.owners[i]? = some (.adding n)) (hlt : n < s.minSize) :
      Moves s (.advance i connected) { s.addConnection connected with owners := s.owners.set i (.adding (n + 1)) }
  | added (i n connected) (hi : s.owners[i]? = some (.adding n)) (hnot : ¬ n < s.minSize) :
      Moves s (.advance i connected) { s with owners := s.owners.set i .launchProducer }
  | launchProducer (i connected) (hi : s.owners[i]? = some .launchProducer) :
      Moves s (.advance i connected)
        { s with
          producers := s.producers ++ [true]
          owners := s.owners.set i .launchScanner }
  | launchScanner (i connected) (hi : s.owners[i]? = some .launchScanner) :
      Moves s (.advance i connected)
        { s with
          scanners := s.scanners ++ [true]
          owners := s.owners.set i .opening }
  | reopen (i connected) (hi : s.owners[i]? = some .opening) :
      Moves s (.advance i connected)
        { s with
          exit := false
          owners := s.owners.set i .notifying }
  | started (i connected) (hi : s.owners[i]? = some .notifying) :
      Moves s (.advance i connected) { s with owners := s.owners.set i .idle }.notifyAll
  | close (i) (hi : s.owners[i]? = some .idle) :
      Moves s (.close i)
        { s with
          exit := true
          owners := s.owners.set i .closing
          closes := s.closes + 1 }
  | drain (i connected) (hi : s.owners[i]? = some .closing) : Moves s (.advance i connected) (s.drain i)
  | call (i) (hi : s.clients[i]? = some .idle) :
      Moves s (.call i) { s with clients := s.clients.set i (.ready false) }
  | wake (i timedOut) (hi : s.clients[i]? = some .sleeping) :
      Moves s (.wake i timedOut) { s with clients := s.clients.set i (.ready timedOut) }
  | sleep (i timedOut) (hi : s.clients[i]? = some (.ready timedOut)) (hq : s.connectionQueue = []) :
      Moves s (.getConnection i) { s with clients := s.clients.set i (if timedOut then .idle else .sleeping) }
  | lease (i timedOut c cs) (hi : s.clients[i]? = some (.ready timedOut)) (hq : s.connectionQueue = c :: cs) :
      Moves s (.getConnection i)
        { s with
          connectionQueue := cs
          leased := s.leased ++ [c]
          clients := s.clients.set i .idle }.notifyAll
  | discard (c) (hc : c ∈ s.leased) (hexit : s.exit = true) :
      Moves s (.release c)
        { s with
          leased := s.leased.erase c
          deleted := s.deleted ++ [c] }
  | giveBack (c) (hc : c ∈ s.leased) (hopen : s.exit = false) :
      Moves s (.release c) (({ s with leased := s.leased.erase c }.refreshAliveTime c).push c)
  | leaveProducer (i connected) (hi : s.producers[i]? = some true) (hexit : s.exit = true) :
      Moves s (.produce i connected) { s with producers := s.producers.set i false }
  | produce (i connected) (hi : s.producers[i]? = some true) (hopen : s.exit = false) (hq : s.connectionQueue = [])
      (hlt : asSize s.connectionCount < s.maxSize) :
      Moves s (.produce i connected) (s.addConnection connected).notifyAll
  | full (i connected) (hi : s.producers[i]? = some true) (hopen : s.exit = false) (hq : s.connectionQueue = [])
      (hnot : ¬ asSize s.connectionCount < s.maxSize) : Moves s (.produce i connected) s.notifyAll
  | rest (i connected) (hi : s.producers[i]? = some true) (hq : s.connectionQueue ≠ []) :
      Moves s (.produce i connected) s
  | leaveScanner (i ready delays stale) (hi : s.scanners[i]? = some true) :
      Moves s (.scan i ready delays stale) { s with scanners := s.scanners.set i false }
  | scan (i delays stale t) (hi : s.scanners[i]? = some true) (hopen : s.exit = false)
      (hloop : evictLoop stale s.connectionQueue delays s = some t) : Moves s (.scan i true delays stale) t
  | tick (delay) : Moves s (.tick delay) (s.tick delay)

variable {s t : ConnectionPool}

theorem moves_advance {i : Nat} {connected : Bool} (hs : s.advance i connected = some t) :
    Moves s (.advance i connected) t := by
  rw [advance] at hs
  split at hs
  next => cases hs
  next => cases hs
  next n hi =>
    split at hs
    next hlt =>
      cases hs
      exact .add i n connected hi hlt
    next hnot =>
      cases hs
      exact .added i n connected hi hnot
  next hi =>
    cases hs
    exact .launchProducer i connected hi
  next hi =>
    cases hs
    exact .launchScanner i connected hi
  next hi =>
    cases hs
    exact .reopen i connected hi
  next hi =>
    cases hs
    exact .started i connected hi
  next hi =>
    cases hs
    exact .drain i connected hi

theorem moves_getConnection {i : Nat} (hs : s.getConnection i = some t) : Moves s (.getConnection i) t := by
  rw [getConnection] at hs
  split at hs
  next timedOut hi =>
    split at hs
    next hq =>
      cases hs
      exact .sleep i timedOut hi hq
    next c cs hq =>
      cases hs
      exact .lease i timedOut c cs hi hq
  next => cases hs

theorem moves_release {c : Nat} (hs : s.release c = some t) : Moves s (.release c) t := by
  obtain ⟨hc, he⟩ := Option.ite_none_right_eq_some.mp hs
  cases he
  split
  next hexit => exact .discard c hc hexit
  next hopen => exact .giveBack c hc (by simpa using hopen)

theorem moves_produce {i : Nat} {connected : Bool} (hs : s.produceConnectionTask i connected = some t) :
    Moves s (.produce i connected) t := by
  obtain ⟨hi, hs⟩ := Option.ite_none_right_eq_some.mp hs
  split at hs
  next hexit =>
    cases hs
    exact .leaveProducer i connected hi hexit
  next hopen =>
    have hopen' : s.exit = false := by simpa using hopen
    split at hs
    next hq =>
      cases hs
      split
      next hlt => exact .produce i connected hi hopen' hq hlt
      next hnot => exact .full i connected hi hopen' hq hnot
    next hq =>
      cases hs
      exact .rest i connected hi hq

theorem moves_scan {i : Nat} {ready : Bool} {delays stale : List Nat}
    (hs : s.scannerConnectionTask i ready delays stale = some t) : Moves s (.scan i ready delays stale) t := by
  obtain ⟨hi, hloop⟩ := Option.ite_none_right_eq_some.mp hs
  split at hloop
  next =>
    cases hloop
    exact .leaveScanner i ready delays stale hi
  next hr =>
    obtain ⟨hready, hopen⟩ := not_or.mp hr
    obtain rfl : ready = true := by simpa using hready
    exact .scan i delays stale t hi (by simpa using hopen) hloop

theorem moves_of_step {a : Act} (hs : step a s = some t) : Moves s a t := by
  cases a with
  | start i minSize maxSize maxIdleTime =>
      obtain ⟨hi, he⟩ := Option.ite_none_right_eq_some.mp hs
      cases he
      exact .start i minSize maxSize maxIdleTime hi
  | close i =>
      obtain ⟨hi, he⟩ := Option.ite_none_right_eq_some.mp hs
      cases he
      exact .close i hi
  | advance i connected => exact moves_advance hs
  | call i =>
      obtain ⟨hi, he⟩ := Option.ite_none_right_eq_some.mp hs
      cases he
      exact .call i hi
  | wake i timedOut =>
      obtain ⟨hi, he⟩ := Option.ite_none_right_eq_some.mp hs
      cases he
      exact .wake i timedOut hi
  | getConnection i => exact moves_getConnection hs
  | release c => exact moves_release hs
  | produce i connected => exact moves_produce hs
  | scan i ready delays stale => exact moves_scan hs
  | tick delay =>
      cases hs
      exact .tick delay

end ConnectionPool

end LearnNote.Dbcp
