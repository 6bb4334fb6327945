import LearnNote.Muduo.Dispatch

namespace LearnNote.Muduo

open Lib.Transition

/-- The functors that share the ownership of their connection. -/
def Functor.owns : Functor → Bool
  | .sendInLoop _ _ | .shutdownInLoop => false
  | _ => true

/-- A connection of a server: its loop and its channel, whether connectEstablished
is still queued, whether the server lists it, the calls of removeConnectionInLoop
that are queued, whether connectDestroted has run, and whether the object exists. -/
structure Served where
  dispatch : Dispatch
  ioLoop : Nat
  polled : PolledChannel
  waiting : Bool
  listed : Bool
  removals : Nat
  destroyed : Bool
  alive : Bool

/-- The connections in the order of their names, and the pollers of the loops. The
loop of the server itself is the first one. -/
structure TcpServer where
  connections : List Served
  pollers : Nat → EPollPoller

namespace TcpServer

def effects (d d' : Dispatch) : List Effect := d'.loop.conn.log.drop d.loop.conn.log.length

/-- A connection goes on, and its poller with it. -/
def serve (i : Nat) (x : Served) (es : List Effect) (s : TcpServer) : TcpServer :=
  let r := EPollPoller.follow i es (x.polled, s.pollers x.ioLoop)
  ⟨s.connections.set i { x with polled := r.1 }, Function.update s.pollers x.ioLoop r.2⟩

def add (x : Served) (es : List Effect) (s : TcpServer) : TcpServer :=
  let r := EPollPoller.follow s.connections.length es (x.polled, s.pollers x.ioLoop)
  ⟨s.connections ++ [{ x with polled := r.1 }], Function.update s.pollers x.ioLoop r.2⟩

structure Options where
  highWaterMark : Nat
  highWaterMarkCallback : Bool
  writeCompleteCallback : Bool
  memory : Nat → UInt8

def accepted (fd ioLoop : Nat) (o : Options) : Served where
  dispatch := ⟨⟨.new o.highWaterMark o.highWaterMarkCallback o.writeCompleteCallback, o.memory, fun _ => .idle⟩, 0, []⟩
  ioLoop := ioLoop
  polled := ⟨fd, ⟨Channel.kNoneEvent⟩, .kNew⟩
  waiting := true
  listed := true
  removals := 0
  destroyed := false
  alive := true

/-- connectEstablished is run at once in the loop of the server, and queued in the others. -/
def newConnection (fd ioLoop : Nat) (o : Options) (s : TcpServer) : Option TcpServer :=
  let x := accepted fd ioLoop o
  if ioLoop = 0 then
    (Dispatch.step (.other (.loop .connectEstablished)) x.dispatch).map (fun d =>
      s.add { x with dispatch := d, waiting := false } (effects x.dispatch d))
  else some (s.add x [])

inductive Act
  | newConnection (fd ioLoop : Nat) (o : Options)
  | connectEstablished (i : Nat)
  | connection (i : Nat) (a : Dispatch.Act)
  | removeConnectionInLoop (i : Nat)
  | destroy (i : Nat)
  | release (i : Nat)

/-- What a connection does without its server. An event comes from the kernel's set. -/
def Own (i : Nat) (x : Served) (s : TcpServer) : Dispatch.Act → Prop
  | .queueDestroted | .other (.loop .connectEstablished) | .other (.loop .connectDestroted) => False
  | .poll _ => ((s.pollers x.ioLoop).epoll x.polled.fd).map Prod.fst = some i
  | _ => True

instance (i : Nat) (x : Served) (s : TcpServer) : DecidablePred (Own i x s) := by
  intro a
  unfold Own
  split <;> infer_instance

/-- The step runs a queued connectDestroted. -/
def runsDestroted (x : Served) : Dispatch.Act → Bool
  | .other (.loop (.runPending _)) => x.dispatch.loop.conn.pendingFunctors.head? == some .connectDestroted
  | _ => false

/-- Each call of the close callback queues a call of removeConnectionInLoop. -/
def closes (es : List Effect) : Nat := es.count .closeCallback

def step : Act → TcpServer → Option TcpServer
  | .newConnection fd ioLoop o, s =>
      if ∀ x ∈ s.connections, x.alive = true → x.polled.fd ≠ fd then s.newConnection fd ioLoop o else none
  | .connectEstablished i, s =>
      s.connections[i]?.bind (fun x =>
        if x.waiting = true ∧ x.alive = true then
          (Dispatch.step (.other (.loop .connectEstablished)) x.dispatch).map (fun d =>
            s.serve i { x with dispatch := d, waiting := false } (effects x.dispatch d))
        else none)
  | .connection i a, s =>
      s.connections[i]?.bind (fun x =>
        if x.waiting = false ∧ x.alive = true ∧ Own i x s a then
          (Dispatch.step a x.dispatch).map (fun d =>
            s.serve i { x with
              dispatch := d
              removals := x.removals + closes (effects x.dispatch d)
              destroyed := x.destroyed || runsDestroted x a } (effects x.dispatch d))
        else none)
  | .removeConnectionInLoop i, s =>
      s.connections[i]?.bind (fun x =>
        if 0 < x.removals ∧ x.alive = true then
          (Dispatch.step .queueDestroted x.dispatch).map (fun d =>
            s.serve i { x with dispatch := d, listed := false, removals := x.removals - 1 } [])
        else none)
  | .destroy i, s =>
      s.connections[i]?.bind (fun x =>
        if x.listed = true ∧ x.alive = true then
          if x.ioLoop = 0 then
            (Dispatch.step (.other (.loop .connectDestroted)) x.dispatch).map (fun d =>
              s.serve i { x with dispatch := d, listed := false, destroyed := true } (effects x.dispatch d))
          else
            (Dispatch.step .queueDestroted x.dispatch).map (fun d =>
              s.serve i { x with dispatch := d, listed := false } [])
        else none)
  | .release i, s =>
      s.connections[i]?.bind (fun x =>
        if x.waiting = false ∧ x.listed = false ∧ x.removals = 0 ∧ x.dispatch.handlers = [] ∧
            x.dispatch.loop.conn.pendingFunctors.any Functor.owns = false then
          some ⟨s.connections.set i { x with alive := false },
            Function.update s.pollers x.ioLoop
              { s.pollers x.ioLoop with epoll := Function.update (s.pollers x.ioLoop).epoll x.polled.fd none }⟩
        else none)

def start (s : TcpServer) : Prop := s.connections = [] ∧ ∀ l, s.pollers l = ⟨fun _ => none, fun _ => none⟩

def Unknown (i : Nat) (x : Served) (s : TcpServer) : Prop :=
  (s.pollers x.ioLoop).channels x.polled.fd ≠ some i ∧
    ((s.pollers x.ioLoop).epoll x.polled.fd).map Prod.fst ≠ some i ∧ x.polled.index = .kNew

variable {s u : TcpServer} {x y : Served} {i : Nat}

/-- Connections that exist have descriptors of their own, the ones in the loop of the
server are established at once, and an established connection is known to its poller. -/
structure Inv (s : TcpServer) : Prop where
  fds : ∀ (i j : Nat) (x y : Served), s.connections[i]? = some x → s.connections[j]? = some y → x.alive = true →
    y.alive = true → x.polled.fd = y.polled.fd → i = j
  base : ∀ (i : Nat) (x : Served), s.connections[i]? = some x → x.ioLoop = 0 → x.waiting = false
  added : ∀ (i : Nat) (x : Served), s.connections[i]? = some x → x.waiting = false → x.polled.index ≠ .kNew
  known : ∀ (i : Nat) (x : Served), s.connections[i]? = some x → x.alive = true →
    EPollPoller.Known i (x.polled, s.pollers x.ioLoop)
  destroyed : ∀ (i : Nat) (x : Served), s.connections[i]? = some x → x.destroyed = true → x.waiting = false

theorem getElem?_set_cases {α : Type} {l : List α} {i j : Nat} {a b : α} (h : (l.set i a)[j]? = some b) :
    j = i ∧ b = a ∨ j ≠ i ∧ l[j]? = some b := by
  by_cases hj : i = j
  · subst hj
    rw [List.getElem?_set_self'] at h
    obtain ⟨_, -, rfl⟩ := Option.map_eq_some_iff.mp h
    exact .inl ⟨rfl, rfl⟩
  · rw [List.getElem?_set_ne hj] at h
    exact .inr ⟨Ne.symm hj, h⟩

theorem getElem?_concat_cases {α : Type} {l : List α} {j : Nat} {a b : α} (h : (l ++ [a])[j]? = some b) :
    j = l.length ∧ b = a ∨ l[j]? = some b := by
  rcases Nat.lt_or_ge j l.length with hj | hj
  · rw [List.getElem?_append_left hj] at h
    exact .inr h
  · rw [List.getElem?_append_right hj, List.getElem?_singleton] at h
    split at h
    next hz => exact .inl ⟨Nat.le_antisymm (Nat.le_of_sub_eq_zero hz) hj, (Option.some.inj h).symm⟩
    next => cases h

theorem Inv.known_update (h : Inv s) {r : PolledChannel × EPollPoller}
    (hr : EPollPoller.Follows i (x.polled, s.pollers x.ioLoop) r) {j : Nat} (hy : s.connections[j]? = some y)
    (hfd : y.alive = true → y.ioLoop = x.ioLoop → y.polled.fd ≠ x.polled.fd) (hlive : y.alive = true) :
    EPollPoller.Known j (y.polled, Function.update s.pollers x.ioLoop r.2 y.ioLoop) := by
  have hk := h.known j y hy hlive
  by_cases hio : y.ioLoop = x.ioLoop
  · rw [hio, Function.update_self]
    intro hi
    apply (hr.others _ (hfd hlive hio)).trans
    rw [hio] at hk
    exact hk hi
  · rw [Function.update_of_ne hio]
    exact hk

theorem Inv.serve (h : Inv s) (hx : s.connections[i]? = some x) (hlive : x.alive = true) (d : Dispatch)
    (w l : Bool) (n : Nat) (b : Bool) (es : List Effect) (hw : w = true → x.waiting = true)
    (hadded : w = false → x.waiting = true → ∃ mask, Effect.enable mask ∈ es)
    (hb : b = true → x.destroyed = true ∨ w = false) :
    Inv (s.serve i { x with dispatch := d, waiting := w, listed := l, removals := n, destroyed := b } es) := by
  have hr := @EPollPoller.follow_follows i es (x.polled, s.pollers x.ioLoop)
  have hwait : x.waiting = false → w = false := fun hf => by
    cases w with
    | false => rfl
    | true => exact absurd (hw rfl) (by rw [hf]; nofun)
  refine ⟨fun j k y z hy hz hly hlz hfd => ?_, fun j y hy => ?_, fun j y hy => ?_, fun j y hy hly => ?_, fun j y hy => ?_⟩
  · rcases getElem?_set_cases hy with ⟨rfl, rfl⟩ | ⟨-, hy'⟩ <;>
      rcases getElem?_set_cases hz with ⟨rfl, rfl⟩ | ⟨-, hz'⟩
    · rfl
    · exact h.fds _ k x z hx hz' hlive hlz (hr.fd.symm.trans hfd)
    · exact h.fds j _ y x hy' hx hly hlive (hfd.trans hr.fd)
    · exact h.fds j k y z hy' hz' hly hlz hfd
  · rcases getElem?_set_cases hy with ⟨rfl, rfl⟩ | ⟨-, hy⟩
    · exact fun hio => hwait (h.base j x hx hio)
    · exact h.base j y hy
  · rcases getElem?_set_cases hy with ⟨rfl, rfl⟩ | ⟨-, hy⟩
    · intro hwf
      cases hxw : x.waiting with
      | false => exact hr.index (h.added j x hx hxw)
      | true =>
          obtain ⟨mask, hm⟩ := hadded hwf hxw
          exact EPollPoller.index_follow hm _
    · exact h.added j y hy
  · rcases getElem?_set_cases hy with ⟨rfl, rfl⟩ | ⟨hne, hy⟩
    · have hk := hr.known (h.known j x hx hlive)
      simpa only [TcpServer.serve, Function.update_self] using hk
    · exact h.known_update hr hy (fun _ _ hfd => hne (h.fds j i y x hy hx hly hlive hfd)) hly
  · rcases getElem?_set_cases hy with ⟨rfl, rfl⟩ | ⟨-, hy⟩
    · intro hb'
      rcases hb hb' with hd | hwf
      · exact hwait (h.destroyed j x hx hd)
      · exact hwf
    · exact h.destroyed j y hy

theorem Inv.add (h : Inv s) (hfd : ∀ y ∈ s.connections, y.alive = true → y.polled.fd ≠ x.polled.fd)
    (es : List Effect) (hbase : x.ioLoop = 0 → x.waiting = false) (hnew : x.polled.index = .kNew)
    (hadded : x.waiting = false → ∃ mask, Effect.enable mask ∈ es) (hd : x.destroyed = false) :
    Inv (s.add x es) := by
  have hr := @EPollPoller.follow_follows s.connections.length es (x.polled, s.pollers x.ioLoop)
  have hfd' : ∀ (j : Nat) (y : Served), s.connections[j]? = some y → y.alive = true →
      y.polled.fd ≠ x.polled.fd := fun j y hy => hfd y (List.mem_of_getElem? hy)
  refine ⟨fun j k y z hy hz hly hlz he => ?_, fun j y hy => ?_, fun j y hy => ?_, fun j y hy hly => ?_, fun j y hy => ?_⟩
  · rcases getElem?_concat_cases hy with ⟨rfl, rfl⟩ | hy' <;>
      rcases getElem?_concat_cases hz with ⟨rfl, rfl⟩ | hz'
    · rfl
    · exact absurd (he.symm.trans hr.fd) (hfd' k z hz' hlz)
    · exact absurd (he.trans hr.fd) (hfd' j y hy' hly)
    · exact h.fds j k y z hy' hz' hly hlz he
  · rcases getElem?_concat_cases hy with ⟨rfl, rfl⟩ | hy
    · exact hbase
    · exact h.base j y hy
  · rcases getElem?_concat_cases hy with ⟨rfl, rfl⟩ | hy
    · intro hw
      obtain ⟨mask, hm⟩ := hadded hw
      exact EPollPoller.index_follow hm _
    · exact h.added j y hy
  · rcases getElem?_concat_cases hy with ⟨rfl, rfl⟩ | hy
    · have hk := hr.known (fun hi => absurd hnew hi)
      simpa only [TcpServer.add, Function.update_self] using hk
    · exact h.known_update hr hy (fun hl _ => hfd' j y hy hl) hly
  · rcases getElem?_concat_cases hy with ⟨rfl, rfl⟩ | hy
    · exact fun hd' => absurd hd' (by rw [hd]; nofun)
    · exact h.destroyed j y hy

theorem Inv.release (h : Inv s) (hx : s.connections[i]? = some x) (p : Nat → EPollPoller)
    (hp : ∀ l, (p l).channels = (s.pollers l).channels) : Inv ⟨s.connections.set i { x with alive := false }, p⟩ := by
  refine ⟨fun j k y z hy hz hly hlz hfd => ?_, fun j y hy => ?_, fun j y hy => ?_, fun j y hy hly => ?_, fun j y hy => ?_⟩
  · rcases getElem?_set_cases hy with ⟨-, rfl⟩ | ⟨-, hy'⟩
    · cases hly
    · rcases getElem?_set_cases hz with ⟨-, rfl⟩ | ⟨-, hz'⟩
      · cases hlz
      · exact h.fds j k y z hy' hz' hly hlz hfd
  · rcases getElem?_set_cases hy with ⟨rfl, rfl⟩ | ⟨-, hy'⟩
    · exact h.base j x hx
    · exact h.base j y hy'
  · rcases getElem?_set_cases hy with ⟨rfl, rfl⟩ | ⟨-, hy'⟩
    · exact h.added j x hx
    · exact h.added j y hy'
  · rcases getElem?_set_cases hy with ⟨-, rfl⟩ | ⟨-, hy'⟩
    · cases hly
    · intro hi
      rw [hp]
      exact h.known j y hy' hly hi
  · rcases getElem?_set_cases hy with ⟨rfl, rfl⟩ | ⟨-, hy'⟩
    · exact h.destroyed j x hx
    · exact h.destroyed j y hy'

theorem enable_mem_effects {d d' : Dispatch} (hs : Dispatch.step (.other (.loop .connectEstablished)) d = some d') :
    ∃ mask, Effect.enable mask ∈ effects d d' := by
  simp only [Dispatch.step] at hs
  split at hs
  · obtain ⟨l, hl, rfl⟩ := Option.map_eq_some_iff.mp hs
    obtain ⟨c, hc, rfl⟩ := Option.map_eq_some_iff.mp hl
    cases ConnectionLoop.moves_of_loopStep hc with
    | connectEstablished =>
        refine ⟨Channel.kReadEvent, ?_⟩
        simp [effects, TcpConnection.connectEstablished, TcpConnection.setState, TcpConnection.enableReading,
          TcpConnection.emit]
  · cases hs

theorem inv_newConnection {fd ioLoop : Nat} {o : Options} (h : Inv s)
    (hfd : ∀ x ∈ s.connections, x.alive = true → x.polled.fd ≠ fd) (hs : s.newConnection fd ioLoop o = some u) :
    Inv u := by
  rw [newConnection] at hs
  split at hs
  next =>
    obtain ⟨d, hd, rfl⟩ := Option.map_eq_some_iff.mp hs
    exact h.add hfd _ (fun _ => rfl) rfl (fun _ => enable_mem_effects hd) rfl
  next hio =>
    cases hs
    exact h.add hfd _ (fun hz => absurd hz hio) rfl nofun rfl

theorem step_inv {a : Act} (h : Inv s) (hs : step a s = some u) : Inv u := by
  cases a with
  | newConnection fd ioLoop o =>
      simp only [step] at hs
      split at hs
      next hfd => exact inv_newConnection h hfd hs
      next => cases hs
  | connectEstablished i =>
      obtain ⟨x, hx, hs⟩ := Option.bind_eq_some_iff.mp hs
      split at hs
      next hw =>
        obtain ⟨d, hd, rfl⟩ := Option.map_eq_some_iff.mp hs
        exact h.serve hx hw.2 d false _ _ _ _ nofun (fun _ _ => enable_mem_effects hd) .inl
      next => cases hs
  | connection i a =>
      obtain ⟨x, hx, hs⟩ := Option.bind_eq_some_iff.mp hs
      split at hs
      next hw =>
        obtain ⟨d, hd, rfl⟩ := Option.map_eq_some_iff.mp hs
        exact h.serve hx hw.2.1 d x.waiting _ _ _ _ id (fun hf ht => absurd ht (by rw [hf]; nofun)) (fun _ => .inr hw.1)
      next => cases hs
  | removeConnectionInLoop i =>
      obtain ⟨x, hx, hs⟩ := Option.bind_eq_some_iff.mp hs
      split at hs
      next hw =>
        obtain ⟨d, hd, rfl⟩ := Option.map_eq_some_iff.mp hs
        exact h.serve hx hw.2 d x.waiting _ _ x.destroyed _ id (fun hf ht => absurd ht (by rw [hf]; nofun)) .inl
      next => cases hs
  | destroy i =>
      obtain ⟨x, hx, hs⟩ := Option.bind_eq_some_iff.mp hs
      split at hs
      next hw =>
        split at hs
        next hio =>
          obtain ⟨d, hd, rfl⟩ := Option.map_eq_some_iff.mp hs
          exact h.serve hx hw.2 d x.waiting _ _ _ _ id (fun hf ht => absurd ht (by rw [hf]; nofun))
            (fun _ => .inr (h.base i x hx hio))
        next =>
          obtain ⟨d, hd, rfl⟩ := Option.map_eq_some_iff.mp hs
          exact h.serve hx hw.2 d x.waiting _ _ x.destroyed _ id (fun hf ht => absurd ht (by rw [hf]; nofun)) .inl
      next => cases hs
  | release i =>
      obtain ⟨x, hx, hs⟩ := Option.bind_eq_some_iff.mp hs
      split at hs
      next hw =>
        cases hs
        refine h.release hx _ (fun l => ?_)
        by_cases hl : l = x.ioLoop
        · rw [hl, Function.update_self]
        · rw [Function.update_of_ne hl]
      next => cases hs

theorem reachable_inv (h : Reachable start step always s) : Inv s := by
  apply h.invariant (I := Inv) ?_ (fun _ _ _ hi _ => step_inv hi)
  rintro s ⟨hs, -⟩
  have hnone : ∀ (i : Nat) (x : Served), s.connections[i]? ≠ some x := by
    intro i x hx
    rw [hs, List.getElem?_nil] at hx
    cases hx
  exact ⟨fun i _ x _ hx => absurd hx (hnone i x), fun i x hx => absurd hx (hnone i x),
    fun i x hx => absurd hx (hnone i x), fun i x hx => absurd hx (hnone i x), fun i x hx => absurd hx (hnone i x)⟩

/-- The poller never forgets a connection: its channel does not become new again,
and stays in the map as long as the connection exists. -/
theorem never_unknown (s : TcpServer) (i : Nat) (x : Served) (h : Reachable start step always s)
    (hx : s.connections[i]? = some x) (hd : x.destroyed = true) :
    ¬ Unknown i x s ∧ x.polled.index ≠ .kNew ∧
      (x.alive = true → (s.pollers x.ioLoop).channels x.polled.fd = some i) := by
  have hi := reachable_inv h
  have hadded := hi.added i x hx (hi.destroyed i x hx hd)
  exact ⟨fun hu => hadded hu.2.2, hadded, fun hl => hi.known i x hx hl hadded⟩

def empty : TcpServer := ⟨[], fun _ => ⟨fun _ => none, fun _ => none⟩⟩

def visit : List Act :=
  [.newConnection 7 0 ⟨64, false, true, fun _ => 0⟩, .connection 0 (.poll EPOLLIN),
    .connection 0 (.handle (.ok []) (.ok 0)), .connection 0 (.handle (.ok []) (.ok 0)),
    .connection 0 (.handle (.ok []) (.ok 0)), .connection 0 (.handle (.ok []) (.ok 0)), .removeConnectionInLoop 0,
    .connection 0 (.other (.loop (.runPending (.ok 0))))]

theorem visited : ∃ s x, Reachable start step always s ∧ s.connections[0]? = some x ∧ x.destroyed = true := by
  have hrun : (run (guarded step always) visit empty).bind
      (fun s => s.connections[0]?.map (fun x => x.destroyed)) = some true := by decide +kernel
  obtain ⟨s, hs, hx⟩ := Option.bind_eq_some_iff.mp hrun
  obtain ⟨x, hx, hd⟩ := Option.map_eq_some_iff.mp hx
  exact ⟨s, x, Reachable.run (.start ⟨rfl, fun _ => rfl⟩) _ hs, hx, hd⟩

theorem never_unknown_visit :
    ∃ s x, Reachable start step always s ∧ s.connections[0]? = some x ∧ x.destroyed = true ∧ ¬ Unknown 0 x s := by
  obtain ⟨s, x, hr, hx, hd⟩ := visited
  exact ⟨s, x, hr, hx, hd, (never_unknown s 0 x hr hx hd).1⟩

/-- After connectDestroted has run the channel is still deleted, not new. -/
theorem visit_leaves_channel :
    ¬ ∀ s i x, Reachable start step always s → s.connections[i]? = some x → x.destroyed = true → Unknown i x s := by
  intro h
  have hrun : (run (guarded step always) visit empty).bind
      (fun s => s.connections[0]?.map (fun x => (x.destroyed, x.polled.index))) = some (true, .kDeleted) := by
    decide +kernel
  obtain ⟨s, hs, hx⟩ := Option.bind_eq_some_iff.mp hrun
  obtain ⟨x, hx, he⟩ := Option.map_eq_some_iff.mp hx
  simp only [Prod.mk.injEq] at he
  have hu := h s 0 x (Reachable.run (.start ⟨rfl, fun _ => rfl⟩) _ hs) hx he.1
  have hindex := hu.2.2
  rw [he.2] at hindex
  cases hindex

end TcpServer

end LearnNote.Muduo
