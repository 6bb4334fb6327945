import LearnNote.Lib.CheckedInt
import LearnNote.Muduo.EventLoopThreadPool
import LearnNote.Muduo.TcpServer

namespace LearnNote.Muduo

open Lib.Transition

def decimal (n : Nat) : List Char := Nat.toDigits 10 n

/-- An IPv4 address, whose bytes are in network order, and a port. -/
structure InetAddress where
  addr : UInt8 × UInt8 × UInt8 × UInt8
  port : UInt16

namespace InetAddress

def toIp (a : InetAddress) : List Char :=
  decimal a.addr.1.toNat ++ '.' :: decimal a.addr.2.1.toNat ++ '.' :: decimal a.addr.2.2.1.toNat ++
    '.' :: decimal a.addr.2.2.2.toNat

def toIpPort (a : InetAddress) : List Char := a.toIp ++ ':' :: decimal a.port.toNat

end InetAddress

/-- What snprintf leaves of its text in a buffer of a size. -/
def snprintf (size : Nat) (text : List Char) : List Char := text.take (size - 1)

def connName (name ipPort : List Char) (nextConnId : Nat) : List Char :=
  name ++ snprintf 64 ('-' :: ipPort ++ '#' :: decimal nextConnId)

/-- A server with its threads and its map from names to connections, which are numbered in
the order in which they were accepted. Each connection keeps its name. -/
structure NamedServer where
  server : TcpServer
  name : List Char
  listenAddr : InetAddress
  threadPool : EventLoopThreadPool
  nextConnId : Nat
  names : List (List Char)
  connections : List Char → Option Nat

namespace NamedServer

inductive Act
  | newConnection (fd : Nat) (o : TcpServer.Options)
  | connectEstablished (i : Nat)
  | connection (i : Nat) (a : Dispatch.Act)
  | removeConnectionInLoop (i : Nat)
  | destroy (name : List Char)
  | release (i : Nat)

def erase (name : List Char) (t : TcpServer) (s : NamedServer) : NamedServer :=
  { s with server := t, connections := Function.update s.connections name none }

/-- No result is an overflow of nextConnId. -/
def newConnection (fd : Nat) (o : TcpServer.Options) (s : NamedServer) : Option NamedServer :=
  if s.nextConnId < intMax then
    s.threadPool.getNextLoop.bind fun r =>
      (TcpServer.step (.newConnection fd r.1 o) s.server).map fun t =>
        let name := connName s.name s.listenAddr.toIpPort s.nextConnId
        { s with
          server := t
          threadPool := r.2
          nextConnId := s.nextConnId + 1
          names := s.names ++ [name]
          connections := Function.update s.connections name (some s.server.connections.length) }
  else none

/-- The destructor goes through the map, and the other steps do not look at it. -/
def step : Act → NamedServer → Option NamedServer
  | .newConnection fd o, s => s.newConnection fd o
  | .connectEstablished i, s => (TcpServer.step (.connectEstablished i) s.server).map fun t => { s with server := t }
  | .connection i a, s => (TcpServer.step (.connection i a) s.server).map fun t => { s with server := t }
  | .removeConnectionInLoop i, s =>
      s.names[i]?.bind fun name => (TcpServer.step (.removeConnectionInLoop i) s.server).map fun t => s.erase name t
  | .destroy name, s =>
      (s.connections name).bind fun i => (TcpServer.step (.destroy i) s.server).map fun t => s.erase name t
  | .release i, s => (TcpServer.step (.release i) s.server).map fun t => { s with server := t }

/-- A server whose threads have been started. The loop of the server is the first one. -/
def start (s : NamedServer) : Prop :=
  TcpServer.start s.server ∧
    (∃ numThreads, s.threadPool = ((EventLoopThreadPool.new 0).setThreadNum numThreads).start) ∧
    s.nextConnId = 1 ∧ s.names = [] ∧ s.connections = fun _ => none

section Names

variable {n m k : Nat} {name : List Char} {a : InetAddress}

theorem decimal_injective (h : decimal n = decimal m) : n = m := by
  have hn := @Nat.ofDigitChars_ten_toDigits n
  rw [← decimal, h, decimal, Nat.ofDigitChars_ten_toDigits] at hn
  exact hn.symm

theorem length_decimal_le (hk : 0 < k) (h : n < 10 ^ k) : (decimal n).length ≤ k :=
  (Nat.length_toDigits_le_iff (by decide) hk).mpr h

theorem length_byte (b : UInt8) : (decimal b.toNat).length ≤ 3 :=
  length_decimal_le (by decide) (Nat.lt_trans b.toNat_lt (by decide))

theorem length_toIpPort (a : InetAddress) : a.toIpPort.length ≤ 21 := by
  have h1 := length_byte a.addr.1
  have h2 := length_byte a.addr.2.1
  have h3 := length_byte a.addr.2.2.1
  have h4 := length_byte a.addr.2.2.2
  have h5 : (decimal a.port.toNat).length ≤ 5 :=
    length_decimal_le (by decide) (Nat.lt_trans a.port.toNat_lt (by decide))
  simp only [InetAddress.toIpPort, InetAddress.toIp, List.length_append, List.length_cons]
  omega

/-- The buffer has room for the text, and no two numbers give the same name. -/
theorem connName_injective (hn : (n : Int) ≤ intMax) (hm : (m : Int) ≤ intMax)
    (h : connName name a.toIpPort n = connName name a.toIpPort m) : n = m := by
  have hwhole : ∀ k : Nat, (k : Int) ≤ intMax →
      snprintf 64 ('-' :: a.toIpPort ++ '#' :: decimal k) = '-' :: a.toIpPort ++ '#' :: decimal k := by
    intro k hk
    have hip := length_toIpPort a
    have hmax : intMax = 2147483647 := rfl
    have hlen : (decimal k).length ≤ 10 := length_decimal_le (by decide) (by omega)
    apply List.take_of_length_le
    simp only [List.length_append, List.length_cons]
    omega
  rw [connName, connName, hwhole n hn, hwhole m hm] at h
  have htail := List.append_cancel_left (List.append_cancel_left h)
  exact decimal_injective (List.cons.inj htail).2

end Names

/-- Whether the server lists each connection, and its loop. -/
def outline (s : TcpServer) : List (Bool × Nat) := s.connections.map fun x => (x.listed, x.ioLoop)

section Outline

variable {s t : TcpServer} {x y : Served} {i fd ioLoop : Nat}

theorem outline_set (i : Nat) (y : Served) (p : Nat → EPollPoller) :
    outline ⟨s.connections.set i y, p⟩ = (outline s).set i (y.listed, y.ioLoop) := List.map_set

theorem outline_set_same (h : s.connections[i]? = some x) (hl : y.listed = x.listed) (ho : y.ioLoop = x.ioLoop)
    (p : Nat → EPollPoller) : outline ⟨s.connections.set i y, p⟩ = outline s := by
  obtain ⟨hi, rfl⟩ := List.getElem?_eq_some_iff.mp h
  have hi' : i < (outline s).length := by
    rw [outline, List.length_map]
    exact hi
  have hself : (outline s)[i] = (y.listed, y.ioLoop) := by
    simp only [outline, List.getElem_map, hl, ho]
  rw [outline_set, ← hself, List.set_getElem_self]

theorem outline_newConnection {o : TcpServer.Options} (hs : TcpServer.step (.newConnection fd ioLoop o) s = some t) :
    outline t = outline s ++ [(true, ioLoop)] := by
  simp only [TcpServer.step] at hs
  split at hs
  next =>
    rw [TcpServer.newConnection] at hs
    split at hs
    next =>
      obtain ⟨d, -, rfl⟩ := Option.map_eq_some_iff.mp hs
      exact List.map_append
    next =>
      cases hs
      exact List.map_append
  next => cases hs

theorem outline_connectEstablished (hs : TcpServer.step (.connectEstablished i) s = some t) :
    outline t = outline s := by
  obtain ⟨x, hx, hs⟩ := Option.bind_eq_some_iff.mp hs
  split at hs
  · obtain ⟨d, -, rfl⟩ := Option.map_eq_some_iff.mp hs
    exact outline_set_same hx (by rfl) (by rfl) _
  · cases hs

theorem outline_connection {a : Dispatch.Act} (hs : TcpServer.step (.connection i a) s = some t) :
    outline t = outline s := by
  obtain ⟨x, hx, hs⟩ := Option.bind_eq_some_iff.mp hs
  split at hs
  · obtain ⟨d, -, rfl⟩ := Option.map_eq_some_iff.mp hs
    exact outline_set_same hx (by rfl) (by rfl) _
  · cases hs

theorem outline_release (hs : TcpServer.step (.release i) s = some t) : outline t = outline s := by
  obtain ⟨x, hx, hs⟩ := Option.bind_eq_some_iff.mp hs
  split at hs
  · cases hs
    exact outline_set_same hx (by rfl) (by rfl) _
  · cases hs

/-- A connection leaves the map of its server and stays in its loop. -/
def Unlists (i : Nat) (s t : TcpServer) : Prop :=
  ∃ x, s.connections[i]? = some x ∧ outline t = (outline s).set i (false, x.ioLoop)

theorem removeConnectionInLoop_unlists (hs : TcpServer.step (.removeConnectionInLoop i) s = some t) :
    Unlists i s t := by
  obtain ⟨x, hx, hs⟩ := Option.bind_eq_some_iff.mp hs
  split at hs
  · obtain ⟨d, -, rfl⟩ := Option.map_eq_some_iff.mp hs
    exact ⟨x, hx, outline_set _ _ _⟩
  · cases hs

theorem destroy_unlists (hs : TcpServer.step (.destroy i) s = some t) : Unlists i s t := by
  obtain ⟨x, hx, hs⟩ := Option.bind_eq_some_iff.mp hs
  split at hs
  · split at hs
    · obtain ⟨d, -, rfl⟩ := Option.map_eq_some_iff.mp hs
      exact ⟨x, hx, outline_set _ _ _⟩
    · obtain ⟨d, -, rfl⟩ := Option.map_eq_some_iff.mp hs
      exact ⟨x, hx, outline_set _ _ _⟩
  · cases hs

end Outline

variable {s t : NamedServer} {u : TcpServer} {i : Nat} {name : List Char}

/-- The names are numbered from 1, the map holds the connections that are listed under their
names, and the loops have been handed out in turn. -/
structure Inv (s : NamedServer) : Prop where
  length : s.names.length = (outline s.server).length
  nextConnId : s.nextConnId = s.names.length + 1
  small : (s.nextConnId : Int) ≤ intMax
  names : ∀ k name, s.names[k]? = some name → name = connName s.name s.listenAddr.toIpPort (k + 1)
  connections : ∀ name k, s.connections name = some k ↔
    s.names[k]? = some name ∧ ∃ ioLoop, (outline s.server)[k]? = some (true, ioLoop)
  turn : s.threadPool.Turn s.names.length
  loops : s.threadPool.getAllLoops.Nodup
  ioLoop : ∀ k p, (outline s.server)[k]? = some p →
    s.threadPool.getAllLoops[k % s.threadPool.getAllLoops.length]? = some p.2

theorem Inv.unique (h : Inv s) {j k : Nat} (hj : s.names[j]? = some name) (hk : s.names[k]? = some name) : j = k := by
  have hlj := (List.getElem?_eq_some_iff.mp hj).1
  have hlk := (List.getElem?_eq_some_iff.mp hk).1
  have hsmall := h.small
  have hnext := h.nextConnId
  have heq := (h.names j name hj).symm.trans (h.names k name hk)
  have hid := connName_injective (by omega) (by omega) heq
  omega

theorem Inv.same (h : Inv s) (hu : outline u = outline s.server) : Inv { s with server := u } := by
  refine ⟨?_, h.nextConnId, h.small, h.names, ?_, h.turn, h.loops, ?_⟩ <;> simp only [hu]
  · exact h.length
  · exact h.connections
  · exact h.ioLoop

theorem Inv.erase (h : Inv s) (hn : s.names[i]? = some name) (hu : Unlists i s.server u) : Inv (s.erase name u) := by
  obtain ⟨x, hx, hu⟩ := hu
  have hin : i < (outline s.server).length := by
    rw [← h.length]
    exact (List.getElem?_eq_some_iff.mp hn).1
  have hold : (outline s.server)[i]? = some (x.listed, x.ioLoop) := by
    rw [outline, List.getElem?_map, hx]
    rfl
  refine ⟨?_, h.nextConnId, h.small, h.names, fun other k => ?_, h.turn, h.loops, fun k p hp => ?_⟩
  · show s.names.length = (outline u).length
    rw [hu, List.length_set]
    exact h.length
  · show Function.update s.connections name none other = some k ↔ s.names[k]? = some other ∧ _
    show _ ↔ _ ∧ ∃ ioLoop, (outline u)[k]? = some (true, ioLoop)
    rw [hu]
    by_cases ho : other = name
    · subst ho
      rw [Function.update_self]
      refine ⟨nofun, fun ⟨hk, l, hl⟩ => ?_⟩
      obtain rfl := h.unique hk hn
      rw [List.getElem?_set_self hin] at hl
      cases hl
    · rw [Function.update_of_ne ho, h.connections]
      have hne : s.names[k]? = some other → i ≠ k := by
        rintro hk rfl
        rw [hn] at hk
        exact ho (Option.some.inj hk).symm
      constructor
      · rintro ⟨hk, l, hl⟩
        exact ⟨hk, l, by rwa [List.getElem?_set_ne (hne hk)]⟩
      · rintro ⟨hk, l, hl⟩
        exact ⟨hk, l, by rwa [List.getElem?_set_ne (hne hk)] at hl⟩
  · change (outline u)[k]? = some p at hp
    rw [hu] at hp
    by_cases hk : i = k
    · subst hk
      rw [List.getElem?_set_self hin] at hp
      cases hp
      have hloop := h.ioLoop i _ hold
      exact hloop
    · rw [List.getElem?_set_ne hk] at hp
      exact h.ioLoop k p hp

theorem getElem?_concat {α : Type} {l : List α} {a b : α} {k : Nat} :
    (l ++ [a])[k]? = some b ↔ l[k]? = some b ∨ k = l.length ∧ a = b := by
  rcases Nat.lt_trichotomy k l.length with hk | rfl | hk
  · rw [List.getElem?_append_left hk]
    exact ⟨.inl, fun h => h.resolve_right fun hr => Nat.ne_of_lt hk hr.1⟩
  · rw [List.getElem?_concat_length, List.getElem?_eq_none (Nat.le_refl _)]
    simp
  · rw [List.getElem?_eq_none (by rw [List.length_append, List.length_singleton]; omega),
      List.getElem?_eq_none (Nat.le_of_lt hk)]
    simp [Nat.ne_of_gt hk]

theorem Inv.newConnection (h : Inv s) {fd : Nat} {o : TcpServer.Options} (hs : s.newConnection fd o = some t) :
    Inv t := by
  rw [NamedServer.newConnection, Option.ite_none_right_eq_some] at hs
  obtain ⟨hsmall, hs⟩ := hs
  obtain ⟨⟨ioLoop, pool⟩, hpool, hs⟩ := Option.bind_eq_some_iff.mp hs
  obtain ⟨u, hu, rfl⟩ := Option.map_eq_some_iff.mp hs
  obtain ⟨hturn, hnext, hall⟩ := EventLoopThreadPool.getNextLoop_turn h.turn hpool
  have hout := outline_newConnection hu
  have hlen : s.server.connections.length = s.names.length := by
    rw [h.length, outline, List.length_map]
  have hid := h.nextConnId
  have hfresh : connName s.name s.listenAddr.toIpPort s.nextConnId ∉ s.names := by
    intro hm
    obtain ⟨k, hk⟩ := List.getElem?_of_mem hm
    have hlk := (List.getElem?_eq_some_iff.mp hk).1
    have heq := h.names k _ hk
    have hkid := connName_injective (by omega) (by omega) heq
    omega
  refine ⟨?_, ?_, ?_, fun k other hk => ?_, fun other k => ?_, ?_, ?_, fun k p hp => ?_⟩
  · show (s.names ++ [_]).length = (outline u).length
    rw [hout, List.length_append, List.length_append, h.length]
    rfl
  · show s.nextConnId + 1 = (s.names ++ [_]).length + 1
    rw [List.length_append, List.length_singleton, hid]
  · show ((s.nextConnId + 1 : Nat) : Int) ≤ intMax
    omega
  · rcases getElem?_concat.mp hk with hk | ⟨rfl, rfl⟩
    · exact h.names k other hk
    · rw [hid]
  · show Function.update s.connections _ _ other = some k ↔ (s.names ++ [_])[k]? = some other ∧ _
    show _ ↔ _ ∧ ∃ ioLoop, (outline u)[k]? = some (true, ioLoop)
    rw [hout, hlen]
    by_cases ho : other = connName s.name s.listenAddr.toIpPort s.nextConnId
    · subst ho
      rw [Function.update_self]
      constructor
      · intro hk
        obtain rfl := Option.some.inj hk
        exact ⟨getElem?_concat.mpr (.inr ⟨rfl, rfl⟩), ioLoop, getElem?_concat.mpr (.inr ⟨h.length, rfl⟩)⟩
      · rintro ⟨hk, -⟩
        rcases getElem?_concat.mp hk with hk | ⟨rfl, -⟩
        · exact absurd (List.mem_of_getElem? hk) hfresh
        · rfl
    · rw [Function.update_of_ne ho, h.connections]
      constructor
      · rintro ⟨hk, l, hl⟩
        exact ⟨getElem?_concat.mpr (.inl hk), l, getElem?_concat.mpr (.inl hl)⟩
      · rintro ⟨hk, l, hl⟩
        rcases getElem?_concat.mp hk with hk | ⟨-, he⟩
        · refine ⟨hk, l, (getElem?_concat.mp hl).resolve_right fun hr => ?_⟩
          have hlk := (List.getElem?_eq_some_iff.mp hk).1
          rw [h.length] at hlk
          omega
        · exact absurd he.symm ho
  · show EventLoopThreadPool.Turn (s.names ++ [_]).length pool
    rw [List.length_append, List.length_singleton]
    exact hnext
  · show pool.getAllLoops.Nodup
    rw [hall]
    exact h.loops
  · show pool.getAllLoops[k % pool.getAllLoops.length]? = some p.2
    change (outline u)[k]? = some p at hp
    rw [hall]
    rw [hout] at hp
    rcases getElem?_concat.mp hp with hp | ⟨rfl, rfl⟩
    · exact h.ioLoop k p hp
    · rw [← h.length]
      exact hturn

theorem step_inv {a : Act} (h : Inv s) (hs : step a s = some t) : Inv t := by
  cases a with
  | newConnection fd o => exact h.newConnection hs
  | connectEstablished i =>
      obtain ⟨u, hu, rfl⟩ := Option.map_eq_some_iff.mp hs
      exact h.same (outline_connectEstablished hu)
  | connection i a =>
      obtain ⟨u, hu, rfl⟩ := Option.map_eq_some_iff.mp hs
      exact h.same (outline_connection hu)
  | removeConnectionInLoop i =>
      obtain ⟨name, hn, hs⟩ := Option.bind_eq_some_iff.mp hs
      obtain ⟨u, hu, rfl⟩ := Option.map_eq_some_iff.mp hs
      exact h.erase hn (removeConnectionInLoop_unlists hu)
  | destroy name =>
      obtain ⟨i, hi, hs⟩ := Option.bind_eq_some_iff.mp hs
      obtain ⟨u, hu, rfl⟩ := Option.map_eq_some_iff.mp hs
      exact h.erase ((h.connections name i).mp hi).1 (destroy_unlists hu)
  | release i =>
      obtain ⟨u, hu, rfl⟩ := Option.map_eq_some_iff.mp hs
      exact h.same (outline_release hu)

theorem start_inv (h : start s) : Inv s := by
  obtain ⟨⟨hserver, -⟩, ⟨numThreads, hpool⟩, hid, hnames, hmap⟩ := h
  have hout : outline s.server = [] := by
    rw [outline, hserver]
    rfl
  refine ⟨?_, ?_, ?_, fun k name hk => ?_, fun name k => ?_, ?_, ?_, fun k p hp => ?_⟩
  · rw [hnames, hout]
    rfl
  · rw [hid, hnames]
    rfl
  · rw [hid]
    decide
  · rw [hnames, List.getElem?_nil] at hk
    cases hk
  · rw [hmap, hnames, List.getElem?_nil]
    exact ⟨nofun, nofun⟩
  · rw [hnames, hpool]
    exact fun _ => (Nat.zero_mod _).symm
  · rw [hpool]
    exact EventLoopThreadPool.getAllLoops_start numThreads 0
  · rw [hout, List.getElem?_nil] at hp
    cases hp

theorem reachable_inv (h : Reachable start step always s) : Inv s :=
  h.invariant (fun _ => start_inv) (fun _ _ _ hi _ => step_inv hi)

/-- The server without its names and its map makes the same steps. -/
theorem step_server {a : Act} (hs : step a s = some t) : ∃ b, TcpServer.step b s.server = some t.server := by
  cases a with
  | newConnection fd o =>
      rw [step, NamedServer.newConnection, Option.ite_none_right_eq_some] at hs
      obtain ⟨⟨ioLoop, pool⟩, -, hs⟩ := Option.bind_eq_some_iff.mp hs.2
      obtain ⟨u, hu, rfl⟩ := Option.map_eq_some_iff.mp hs
      exact ⟨_, hu⟩
  | connectEstablished i | connection i a | release i =>
      obtain ⟨u, hu, rfl⟩ := Option.map_eq_some_iff.mp hs
      exact ⟨_, hu⟩
  | removeConnectionInLoop i | destroy name =>
      obtain ⟨_, _, hm⟩ := Option.bind_eq_some_iff.mp hs
      obtain ⟨u, hu, rfl⟩ := Option.map_eq_some_iff.mp hm
      exact ⟨_, hu⟩

theorem reachable_server (h : Reachable start step always s) :
    Reachable TcpServer.start TcpServer.step always s.server := by
  induction h with
  | start h => exact .start h.1
  | next a _ _ hs ih =>
      obtain ⟨b, hb⟩ := step_server hs
      exact .next b ih trivial hb

/-- The map holds the connections that were accepted and not removed, each of them under its
own name: no insertion replaces a connection, and no removal takes out another one. -/
theorem connections_exact (s : NamedServer) (h : Reachable start step always s) :
    Reachable TcpServer.start TcpServer.step always s.server ∧ s.names.length = s.server.connections.length ∧
      s.names.Nodup ∧
      ∀ name i, s.connections name = some i ↔
        ∃ x, s.server.connections[i]? = some x ∧ x.listed = true ∧ s.names[i]? = some name := by
  have hi := reachable_inv h
  refine ⟨reachable_server h, ?_, ?_, fun name i => ?_⟩
  · rw [hi.length, outline, List.length_map]
  · rw [List.nodup_iff_injective_getElem]
    rintro ⟨j, hj⟩ ⟨k, hk⟩ he
    have he' : s.names[j] = s.names[k] := he
    have hsame : s.names[k]? = some s.names[j] := (List.getElem?_eq_getElem hk).trans (congrArg some he'.symm)
    exact Fin.ext (hi.unique (List.getElem?_eq_getElem hj) hsame)
  · rw [hi.connections, outline, List.getElem?_map]
    constructor
    · rintro ⟨hn, l, hl⟩
      obtain ⟨x, hx, he⟩ := Option.map_eq_some_iff.mp hl
      exact ⟨x, hx, congrArg Prod.fst he, hn⟩
    · rintro ⟨x, hx, hl, hn⟩
      refine ⟨hn, x.ioLoop, ?_⟩
      rw [hx, ← hl]
      rfl

/-- The connections are spread evenly: each loop has been given as many of them as the
others, or one more, and the loops are never read out of bounds. -/
theorem loops_balanced (s : NamedServer) (h : Reachable start step always s) :
    s.threadPool.getNextLoop.isSome = true ∧
      ∀ (i : Nat) (hi : i < s.threadPool.getAllLoops.length),
        (s.server.connections.map Served.ioLoop).count s.threadPool.getAllLoops[i] =
          s.server.connections.length / s.threadPool.getAllLoops.length +
            if i < s.server.connections.length % s.threadPool.getAllLoops.length then 1 else 0 := by
  have hinv := reachable_inv h
  refine ⟨EventLoopThreadPool.getNextLoop_isSome hinv.turn, fun i hi => ?_⟩
  have hturns := EventLoopThreadPool.count_turns (m := s.server.connections.map Served.ioLoop) hinv.loops ?_ i hi
  · rw [hturns, List.length_map]
  · intro j loop hj
    rw [List.getElem?_map] at hj
    obtain ⟨x, hx, rfl⟩ := Option.map_eq_some_iff.mp hj
    apply hinv.ioLoop j (x.listed, x.ioLoop)
    rw [outline, List.getElem?_map, hx]
    rfl

def echoServer : NamedServer where
  server := TcpServer.empty
  name := ['E', 'c', 'h', 'o', 'S', 'e', 'r', 'v', 'e', 'r']
  listenAddr := ⟨(127, 0, 0, 1), 8080⟩
  threadPool := ((EventLoopThreadPool.new 0).setThreadNum 3).start
  nextConnId := 1
  names := []
  connections := fun _ => none

def clients : List Act :=
  [.newConnection 7 ⟨64, false, true, fun _ => 0⟩, .newConnection 8 ⟨64, false, true, fun _ => 0⟩,
    .connectEstablished 0, .connection 0 (.poll EPOLLIN), .connection 0 (.handle (.ok []) (.ok 0)),
    .connection 0 (.handle (.ok []) (.ok 0)), .connection 0 (.handle (.ok []) (.ok 0)), .removeConnectionInLoop 0]

theorem start_echoServer : start echoServer := ⟨⟨rfl, fun _ => rfl⟩, ⟨3, rfl⟩, rfl, rfl, rfl⟩

theorem connections_exact_clients :
    ∃ s, Reachable start step always s ∧
      s.connections (connName echoServer.name echoServer.listenAddr.toIpPort 1) = none ∧
      ∃ x, s.server.connections[1]? = some x ∧ x.listed = true := by
  have hrun : (run (guarded step always) clients echoServer).map
      (fun s => (s.connections (connName echoServer.name echoServer.listenAddr.toIpPort 1),
        s.connections (connName echoServer.name echoServer.listenAddr.toIpPort 2))) = some (none, some 1) := by
    decide +kernel
  obtain ⟨s, hr, he⟩ := reachable_of_run start hrun start_echoServer
  simp only [Prod.mk.injEq] at he
  obtain ⟨x, hx, hl, -⟩ := ((connections_exact s hr).2.2.2 _ _).mp he.2
  exact ⟨s, hr, he.1, x, hx, hl⟩

theorem loops_balanced_clients :
    ∃ s, Reachable start step always s ∧ s.threadPool.getAllLoops = [1, 2, 3] ∧
      (s.server.connections.map Served.ioLoop).count 2 = 1 := by
  have hrun : (run (guarded step always) clients echoServer).map
      (fun s => (s.threadPool.getAllLoops, s.server.connections.length)) = some ([1, 2, 3], 2) := by decide +kernel
  obtain ⟨s, hr, he⟩ := reachable_of_run start hrun start_echoServer
  simp only [Prod.mk.injEq] at he
  have hlen : s.threadPool.getAllLoops.length = 3 := congrArg List.length he.1
  have hcount := (loops_balanced s hr).2 1 (by omega)
  have htwo : s.threadPool.getAllLoops[1] = 2 := by simp only [he.1, List.getElem_cons_succ, List.getElem_cons_zero]
  rw [htwo, hlen, he.2] at hcount
  exact ⟨s, hr, he.1, hcount⟩

end NamedServer

end LearnNote.Muduo
