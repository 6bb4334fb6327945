import LearnNote.Dbcp.Accounting

namespace LearnNote.Dbcp

open Lib.Transition

namespace ConnectionPool

variable {s t : ConnectionPool} {a : Act} {c i : Nat}

def Act.connected : Act → Bool
  | .advance _ connected | .produce _ connected => connected
  | _ => true

def Succeeds (a : Act) (s : ConnectionPool) : Prop := Adds a s → a.connected = true

instance (a : Act) (s : ConnectionPool) : Decidable (Succeeds a s) := inferInstanceAs (Decidable (_ → _))

/-- No connection is in the queue or leased twice, and none before it is created. -/
def Held (s : ConnectionPool) : Prop :=
  (s.connectionQueue ++ s.leased).Nodup ∧ ∀ c ∈ s.connectionQueue ++ s.leased, c < s.created

def Usable (s : ConnectionPool) : Prop :=
  ∀ c ∈ s.connectionQueue ++ s.leased, (s.connections c).connected = true

/-- What a step does to the connections in the queue and with clients. -/
structure Hands (s t : ConnectionPool) : Prop where
  held : (t.connectionQueue ++ t.leased).Subperm (s.connectionQueue ++ s.leased)
  created : t.created = s.created
  connected : ∀ c, (t.connections c).connected = (s.connections c).connected

theorem Hands.of_eq (hq : t.connectionQueue = s.connectionQueue) (hleased : t.leased = s.leased)
    (hcreated : t.created = s.created) (hconnections : t.connections = s.connections) : Hands s t :=
  ⟨by rw [hq, hleased], hcreated, fun c => by rw [hconnections]⟩

theorem Hands.refl (s : ConnectionPool) : Hands s s := .of_eq rfl rfl rfl rfl

theorem Hands.trans {u : ConnectionPool} (h : Hands s t) (h' : Hands t u) : Hands s u :=
  ⟨h'.held.trans h.held, h'.created.trans h.created, fun c => (h'.connected c).trans (h.connected c)⟩

theorem hands_evict (c : Nat) (s : ConnectionPool) : Hands s (s.evict c) :=
  ⟨((List.tail_sublist _).append_right _).subperm, rfl, fun _ => rfl⟩

theorem hands_giveBack (hc : c ∈ s.leased) :
    Hands s (({ s with leased := s.leased.erase c }.refreshAliveTime c).push c) := by
  refine ⟨?_, rfl, fun d => ?_⟩
  · have hback := ((List.perm_cons_erase hc).symm.append_left s.connectionQueue).subperm
    simpa [push, refreshAliveTime] using hback
  · by_cases hd : d = c
    · simp [push, refreshAliveTime, hd]
    · simp [push, refreshAliveTime, hd]

theorem hands_of_moves (hm : Moves s a t) (hadds : ¬ Adds a s) : Hands s t := by
  cases hm with
  | add i n connected hi hlt => exact absurd (adds_advance hi hlt connected) hadds
  | produce i connected hi hopen hq hlt => exact absurd ⟨hi, hopen, hq, hlt⟩ hadds
  | drain i => exact ⟨(List.sublist_append_right _ _).subperm, rfl, fun _ => rfl⟩
  | lease i timedOut c cs hi hq =>
      refine ⟨?_, rfl, fun _ => rfl⟩
      have hmove : (cs ++ (s.leased ++ [c])).Perm (c :: cs ++ s.leased) := by
        rw [← List.append_assoc]
        exact List.perm_append_comm
      simpa [notifyAll, hq] using hmove.subperm
  | discard c hc => exact ⟨(List.erase_sublist.append_left _).subperm, rfl, fun _ => rfl⟩
  | giveBack c hc => exact hands_giveBack hc
  | scan i delays stale t hi hopen hloop =>
      have htick (d : Nat) (u : ConnectionPool) (hu : Hands s u) : Hands s (u.tick d) :=
        hu.trans (.of_eq rfl rfl rfl rfl)
      exact evictLoop_keeps_stale htick (fun c u hu => hu.trans (hands_evict c u)) _ _ (.refl s) hloop
  | _ => exact .of_eq rfl rfl rfl rfl

/-- An addition puts one new connection to the end of the queue. -/
structure Grows (connected : Bool) (s t : ConnectionPool) : Prop where
  queue : t.connectionQueue = s.connectionQueue ++ [s.created]
  leased : t.leased = s.leased
  created : t.created = s.created + 1
  connections : t.connections = Function.update s.connections s.created ⟨connected, s.now⟩
  now : t.now = s.now
  clients : t.clients.length = s.clients.length

theorem grows_of_moves (hm : Moves s a t) (hadds : Adds a s) : Grows a.connected s t := by
  cases hm with
  | add i n connected => exact ⟨rfl, rfl, rfl, rfl, rfl, rfl⟩
  | produce i connected => exact ⟨rfl, rfl, rfl, rfl, rfl, by simp [notifyAll, addConnection, push]⟩
  | added i n connected hi hnot => exact absurd (by simpa [Adds, hi] using hadds) hnot
  | launchProducer i connected hi | launchScanner i connected hi | reopen i connected hi | started i connected hi
  | drain i connected hi => simp [Adds, hi] at hadds
  | leaveProducer i connected hi hexit => simp [hadds.2.1] at hexit
  | full i connected hi hopen hq hnot => exact absurd hadds.2.2.2 hnot
  | rest i connected hi hq => exact absurd hadds.2.2.1 hq
  | _ => exact hadds.elim

theorem Held.hands (h : Held s) (ht : Hands s t) : Held t := by
  obtain ⟨l, hperm, hsub⟩ := ht.held
  refine ⟨hperm.nodup_iff.mp (h.1.sublist hsub), fun c hc => ?_⟩
  rw [ht.created]
  exact h.2 c (ht.held.subset hc)

theorem held_grow {q l : List Nat} {n : Nat} : (q ++ [n] ++ l).Perm (n :: (q ++ l)) := by
  rw [List.append_assoc]
  exact List.perm_middle

theorem Held.grows (h : Held s) {connected : Bool} (ht : Grows connected s t) : Held t := by
  rw [Held, ht.queue, ht.leased, ht.created]
  have hnew : s.created ∉ s.connectionQueue ++ s.leased := fun hin => Nat.lt_irrefl _ (h.2 _ hin)
  refine ⟨held_grow.nodup_iff.mpr (List.nodup_cons.mpr ⟨hnew, h.1⟩), fun c hc => ?_⟩
  rcases List.mem_cons.mp (held_grow.mem_iff.mp hc) with rfl | hc
  · exact Nat.lt_succ_self _
  · exact Nat.lt_succ_of_lt (h.2 c hc)

theorem Held.move (h : Held s) (hm : Moves s a t) : Held t := by
  by_cases hadds : Adds a s
  · exact h.grows (grows_of_moves hm hadds)
  · exact h.hands (hands_of_moves hm hadds)

theorem reachable_held {cond : Act → ConnectionPool → Prop} (h : Reachable start step cond s) : Held s := by
  apply h.invariant
  · rintro s ⟨owners, clients, rfl⟩
    exact ⟨.nil, nofun⟩
  · intro a s t hheld _ hs
    exact hheld.move (moves_of_step hs)

theorem usable_iff (hheld : Held s) (h : Usable s) (hm : Moves s a t) : Usable t ↔ Succeeds a s := by
  by_cases hadds : Adds a s
  · have ht := grows_of_moves hm hadds
    have hmem (c : Nat) : c ∈ t.connectionQueue ++ t.leased ↔ c = s.created ∨ c ∈ s.connectionQueue ++ s.leased := by
      rw [ht.queue, ht.leased, held_grow.mem_iff, List.mem_cons]
    have hnew : t.connections s.created = ⟨a.connected, s.now⟩ := by
      rw [ht.connections, Function.update_self]
    constructor
    · intro husable _
      have hc := husable s.created ((hmem _).mpr (.inl rfl))
      rwa [hnew] at hc
    · intro hsucceeds c hc
      rcases (hmem c).mp hc with rfl | hc
      · rw [hnew]
        exact hsucceeds hadds
      · rw [ht.connections, Function.update_of_ne (Nat.ne_of_lt (hheld.2 c hc))]
        exact h c hc
  · have ht := hands_of_moves hm hadds
    refine ⟨fun _ hadds' => absurd hadds' hadds, fun _ c hc => ?_⟩
    rw [ht.connected]
    exact h c (ht.held.subset hc)

theorem succeeds_usable (h : Reachable start step Succeeds s) : Usable s := by
  induction h with
  | start h =>
      obtain ⟨owners, clients, rfl⟩ := h
      exact nofun
  | next a h hc hs ih => exact (usable_iff (reachable_held h) ih (moves_of_step hs)).mpr hc

def approach (i : Nat) : Option Client → List Act
  | some .idle => [.call i]
  | some .sleeping => [.wake i false]
  | _ => []

/-- What GetConnection leaves when it has found a connection. -/
structure Leased (c : Nat) (cs : List Nat) (s t : ConnectionPool) : Prop where
  queue : t.connectionQueue = cs
  leased : t.leased = s.leased ++ [c]
  connections : t.connections = s.connections
  clients : t.clients.length = s.clients.length

theorem lease_ready {cs : List Nat} {timedOut : Bool} (hi : s.clients[i]? = some (.ready timedOut))
    (hq : s.connectionQueue = c :: cs) : ∃ t, step (.getConnection i) s = some t ∧ Leased c cs s t := by
  simp only [step, getConnection, hi, hq]
  exact ⟨_, rfl, rfl, rfl, rfl, by simp [notifyAll]⟩

theorem lease_front {cs : List Nat} (hi : i < s.clients.length) (hq : s.connectionQueue = c :: cs) :
    ∃ t, run step (approach i s.clients[i]? ++ [.getConnection i]) s = some t ∧ Leased c cs s t := by
  have hready {u : ConnectionPool} {timedOut : Bool}
      (hu : u = { s with clients := s.clients.set i (.ready timedOut) }) :
      ∃ t, step (.getConnection i) u = some t ∧ Leased c cs s t := by
    have hself : u.clients[i]? = some (.ready timedOut) := by
      rw [hu]
      exact List.getElem?_set_self hi
    have hq' : u.connectionQueue = c :: cs := by
      rw [hu]
      exact hq
    obtain ⟨t, ht, hleased⟩ := lease_ready hself hq'
    rw [hu] at hleased
    exact ⟨t, ht, hleased.queue, hleased.leased, hleased.connections, hleased.clients.trans (by simp)⟩
  cases hc : s.clients[i]? with
  | none => exact absurd hi (Nat.not_lt.mpr (List.getElem?_eq_none_iff.mp hc))
  | some client =>
      cases client with
      | idle =>
          obtain ⟨t, ht, hleased⟩ := @hready _ false rfl
          exact ⟨t, by simpa [approach, run, step, hc] using ht, hleased⟩
      | sleeping =>
          obtain ⟨t, ht, hleased⟩ := @hready _ false rfl
          exact ⟨t, by simpa [approach, run, step, hc] using ht, hleased⟩
      | ready timedOut =>
          obtain ⟨t, ht, hleased⟩ := lease_ready hc hq
          exact ⟨t, by simpa [approach, run] using ht, hleased⟩

/-- A client that calls GetConnection again and again gets every connection of the queue. -/
theorem lease_reaches {q : List Nat} (hi : i < s.clients.length) (hq : s.connectionQueue = q) (hc : c ∈ q) :
    ∃ as t, run step as s = some t ∧ c ∈ t.leased ∧ t.connections = s.connections := by
  induction q generalizing s with
  | nil => cases hc
  | cons d cs ih =>
      obtain ⟨t, ht, hleased⟩ := lease_front hi hq
      rcases List.mem_cons.mp hc with rfl | hc
      · exact ⟨_, t, ht, by simp [hleased.leased], hleased.connections⟩
      · obtain ⟨as, u, hu, hcu, hconnections⟩ := ih (hleased.clients ▸ hi) hleased.queue hc
        have hrun : run step (approach i s.clients[i]? ++ [.getConnection i] ++ as) s = some u := by
          rw [run_append, ht]
          exact hu
        exact ⟨_, u, hrun, hcu, hconnections.trans hleased.connections⟩

/-- As long as every added connection has been connected, only connected ones are handed out. The
first addition that breaks this puts into the queue one that is not, and clients can get it. -/
theorem handed_out_connected (s : ConnectionPool) (h : Reachable start step Succeeds s) :
    (∀ c ∈ s.leased, (s.connections c).connected = true) ∧
      ∀ a t, step a s = some t → ¬ Succeeds a s → s.clients ≠ [] →
        ∃ as u, run step as t = some u ∧ ∃ c ∈ u.leased, (u.connections c).connected = false := by
  have husable := succeeds_usable h
  refine ⟨fun c hc => husable c (List.mem_append_right _ hc), fun a t hs hfails hclients => ?_⟩
  obtain ⟨hadds, hfailed⟩ := Classical.not_imp.mp hfails
  have ht := grows_of_moves (moves_of_step hs) hadds
  have hnew : (t.connections s.created).connected = false := by
    rw [ht.connections, Function.update_self]
    simpa using hfailed
  obtain ⟨as, u, hu, hleased, hconnections⟩ := lease_reaches (s := t) (i := 0) (c := s.created)
    (by rw [ht.clients]; exact List.length_pos_iff.mpr hclients) rfl (by rw [ht.queue]; simp)
  exact ⟨as, u, hu, s.created, hleased, by rw [hconnections]; exact hnew⟩

theorem handed_out_connected_lease :
    ∃ s, Reachable start step Succeeds s ∧ s.leased = [0, 1] ∧ ∀ c ∈ s.leased, (s.connections c).connected = true := by
  have hrun : (run (guarded step Succeeds) (starting 0 1 2 60 ++ [.call 0, .getConnection 0, .produce 0 true, .call 0,
      .getConnection 0]) (init 1 1)).map leased = some [0, 1] := by decide +kernel
  obtain ⟨s, hr, hleased⟩ := reachable_of_run start hrun ⟨1, 1, rfl⟩
  exact ⟨s, hr, hleased, (handed_out_connected s hr).1⟩

/-- Connect fails for the second connection; it is queued and leased all the same. -/
theorem unconnected_handed_out :
    ¬ ∀ s, Reachable start step always s → ∀ c ∈ s.leased, (s.connections c).connected = true := by
  intro hclaim
  have hrun : (run (guarded step always) (starting 0 1 2 60 ++ [.call 0, .getConnection 0, .produce 0 false, .call 0,
      .getConnection 0]) (init 1 1)).map (fun s => (s.leased, (s.connections 1).connected)) = some ([0, 1], false) := by
    decide +kernel
  obtain ⟨s, hr, he⟩ := reachable_of_run start hrun ⟨1, 1, rfl⟩
  simp only [Prod.mk.injEq] at he
  have hc := hclaim s hr 1 (by rw [he.1]; simp)
  rw [he.2] at hc
  cases hc

end ConnectionPool

end LearnNote.Dbcp
