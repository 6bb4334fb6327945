import LearnNote.Timing.Moves

namespace LearnNote.Timing

open Lib Lib.Transition

def TimerNode.key (n : TimerNode) : Nat × Int := (n.tnCallback, n.tnId)

namespace Timer

def Client.key (c : Client) : Option (Nat × Int) := c.node.map TimerNode.key

def Event.node : Event → Option TimerNode
  | .added n | .popped n | .passed n | .requeued n => some n
  | .entered _ | .cancelled _ => none

def pending (s : Timer) : List (Nat × Int) := s.clients.filterMap Client.key

def live (s : Timer) : List (Nat × Int) :=
  s.tmQueue.map TimerNode.key ++ (s.tick.node.map TimerNode.key).toList

/-- The node of a call has been put into the queue. -/
def Out (s : Timer) (k : Nat) : Prop := ∃ e ∈ s.log, ∃ n, e.node = some n ∧ n.tnCallback = k

/-- Each call has at most one node, which is in one place. -/
structure Distinct (s : Timer) : Prop where
  nodup : ((s.pending ++ s.live).map Prod.fst).Nodup
  below : ∀ p ∈ s.pending ++ s.live, p.1 < s.calls
  out : ∀ k, s.Out k → k < s.calls ∧ ∀ p ∈ s.pending, p.1 ≠ k

variable {s t : Timer} {c : Nat} {n m : TimerNode}

@[simp] theorem node_notified (k : Tick) : k.notified.node = k.node := by
  cases k <;> rfl

theorem again_key {now : Int} (h : again n now = some m) : m.key = n.key := by
  rw [again] at h
  split at h
  next =>
    cases h
    rfl
  next =>
    obtain ⟨-, he⟩ := Option.ite_none_right_eq_some.mp h
    cases he
    rfl

theorem pending_set {k : Client} (hc : s.clients[c]? = some k) (v : Client) (ht : t.clients = s.clients.set c v) :
    (k.key.toList ++ t.pending).Perm (v.key.toList ++ s.pending) := by
  rw [pending, ht]
  exact Slots.filterMap_set Client.key v hc

theorem pending_mem {v : Client} (ht : t.clients = s.clients.set c v) {p : Nat × Int} (hp : p ∈ t.pending) :
    p ∈ s.pending ∨ v.key = some p := by
  rw [pending, ht] at hp
  obtain ⟨k, hk, hkey⟩ := List.mem_filterMap.mp hp
  rcases List.mem_or_eq_of_mem_set hk with hk | rfl
  · exact .inl (List.mem_filterMap.mpr ⟨k, hk, hkey⟩)
  · exact .inr hkey

theorem mem_pending {k : Client} (hc : s.clients[c]? = some k) {p : Nat × Int} (hp : k.key = some p) :
    p ∈ s.pending :=
  List.mem_filterMap.mpr ⟨k, List.mem_of_getElem? hc, hp⟩

theorem live_push (c : Nat) (n : TimerNode) (s : Timer) : (s.push c n).live.Perm (n.key :: s.live) := by
  rw [live, Timer.push, node_notified, List.map_append, List.append_assoc]
  exact List.perm_middle

theorem live_pop (htick : s.tick = .locking) (hn : n ∈ s.tmQueue) : (s.pop n).live.Perm s.live := by
  have hempty : s.live = s.tmQueue.map TimerNode.key := by
    rw [live, htick]
    exact List.append_nil _
  rw [hempty]
  exact (List.perm_append_singleton _ _).trans ((List.perm_cons_erase hn).map TimerNode.key).symm

theorem live_pass (htick : s.tick = .popped n) : (s.pass n).live = s.live := by
  rw [live, live, htick]
  rfl

theorem live_requeue (htick : s.tick = .checked n) (hagain : again n s.now = some m) :
    (s.requeue m).live = s.live := by
  rw [live, live, htick, Timer.requeue, List.map_append, List.map_singleton, again_key hagain]
  exact List.append_nil _

theorem live_goOn {k : Tick} (hk : k.node = none) (s : Timer) :
    live { s with tick := k } = s.tmQueue.map TimerNode.key := by
  rw [live, hk]
  exact List.append_nil _

theorem live_of_move {a : Act} (hm : Moves s a t) {p : Nat × Int} (hp : p ∈ t.live) :
    p ∈ s.live ∨ ∃ (c : Nat) (n : TimerNode), s.clients[c]? = some (.built n) ∧ p = n.key := by
  have hgoOn : ∀ {k : Tick}, k.node = none → p ∈ live { s with tick := k } → p ∈ s.live := by
    intro k hk hp
    rw [live_goOn hk] at hp
    exact List.mem_append_left _ hp
  cases hm with
  | run | rest | doze | drop | done | wake => exact .inl (hgoOn rfl hp)
  | test => exact .inl (hgoOn (by split <;> rfl) hp)
  | push c n hc =>
      rcases List.mem_cons.mp ((live_push c n s).mem_iff.mp hp) with rfl | hp
      · exact .inr ⟨c, n, hc, rfl⟩
      · exact .inl hp
  | pop i n htick hn => exact .inl ((live_pop htick hn).mem_iff.mp hp)
  | pass i n htick => exact .inl (live_pass htick ▸ hp)
  | requeue i n m htick hagain => exact .inl (live_requeue htick hagain ▸ hp)
  | finish =>
      rw [live, node_notified] at hp
      exact .inl hp
  | _ => exact .inl hp

theorem pending_of_move {a : Act} (hm : Moves s a t) {p : Nat × Int} (hp : p ∈ t.pending) :
    p ∈ s.pending ∨ p = (s.calls, s.tmId) := by
  cases hm with
  | runAfter c _ _ _ _ _ hc => exact (pending_mem (c := c) rfl hp).imp_right (fun h => (Option.some.inj h).symm)
  | runRepeated c _ _ _ _ hc => exact (pending_mem (c := c) rfl hp).imp_right (fun h => (Option.some.inj h).symm)
  | enter c n hc => exact .inl ((pending_mem (c := c) (v := .entered n) rfl hp).elim id (mem_pending hc))
  | build c n hc =>
      have hbuilt : p ∈ s.pending ∨ n.key = p :=
        (pending_mem (c := c) (v := .built { n with tnTmPoint := s.now + n.tnPeriod }) rfl hp).imp_right
          Option.some.inj
      exact .inl (hbuilt.elim id (fun he => mem_pending hc (congrArg some he)))
  | push c n hc => exact .inl ((pending_mem (c := c) (v := .idle) rfl hp).elim id (by intro h; cases h))
  | _ => exact .inl hp

theorem keys_of_move {a : Act} (hm : Moves s a t) {p : Nat × Int} (hp : p ∈ t.pending ++ t.live) :
    p ∈ s.pending ++ s.live ∨ p = (s.calls, s.tmId) := by
  rcases List.mem_append.mp hp with hp | hp
  · exact (pending_of_move hm hp).imp_left (List.mem_append_left _)
  · left
    rcases live_of_move hm hp with hp | ⟨c, n, hc, rfl⟩
    · exact List.mem_append_right _ hp
    · exact List.mem_append_left _ (mem_pending hc rfl)

theorem out_concat {e : Event} (ht : t.log = s.log ++ [e]) {k : Nat} (h : t.Out k) :
    s.Out k ∨ ∃ n, e.node = some n ∧ n.tnCallback = k := by
  obtain ⟨x, hx, hn⟩ := h
  rw [ht] at hx
  rcases List.mem_append.mp hx with hx | hx
  · exact .inl ⟨x, hx, hn⟩
  · exact .inr (List.mem_singleton.mp hx ▸ hn)

theorem out_live {e : Event} (ht : t.log = s.log ++ [e]) (he : e.node = some n) (hn : n.key ∈ t.live) (k : Nat)
    (h : t.Out k) : s.Out k ∨ ∃ p ∈ t.live, p.1 = k := by
  refine (out_concat ht h).imp_right ?_
  rintro ⟨m, hm, rfl⟩
  cases he.symm.trans hm
  exact ⟨n.key, hn, rfl⟩

theorem out_silent {e : Event} (ht : t.log = s.log ++ [e]) (he : e.node = none) {k : Nat} (h : t.Out k) :
    s.Out k := by
  refine (out_concat ht h).elim id ?_
  rintro ⟨m, hm, -⟩
  cases he.symm.trans hm

namespace Distinct

theorem nodup_live (h : Distinct s) : (s.live.map Prod.fst).Nodup := by
  have hnodup := h.nodup
  rw [List.map_append] at hnodup
  exact (List.nodup_append.mp hnodup).2.1

theorem queue_injective (h : Distinct s) (hn : n ∈ s.tmQueue) (hm : m ∈ s.tmQueue)
    (he : n.tnCallback = m.tnCallback) : n = m := by
  have hnodup := h.nodup_live
  rw [live, List.map_append, List.map_map] at hnodup
  exact List.inj_on_of_nodup_map (List.nodup_append.mp hnodup).1 hn hm he

theorem hand_ne (h : Distinct s) (hn : n ∈ s.tmQueue) (hm : s.tick.node = some m) :
    n.tnCallback ≠ m.tnCallback := by
  have hnodup := h.nodup_live
  rw [live, hm, List.map_append, List.map_map] at hnodup
  exact (List.nodup_append.mp hnodup).2.2 _ (List.mem_map_of_mem hn) _ List.mem_cons_self

/-- No node is made. What has come out of the hands of a caller is in the queue, or was there. -/
theorem move (h : Distinct s) (hplaces : (t.pending ++ t.live).Subperm (s.pending ++ s.live))
    (hpending : ∀ p ∈ t.pending, p ∈ s.pending) (hcalls : t.calls = s.calls)
    (hout : ∀ k, t.Out k → s.Out k ∨ ∃ p ∈ t.live, p.1 = k) : Distinct t := by
  have hnodup : ((t.pending ++ t.live).map Prod.fst).Nodup := by
    obtain ⟨l, hp, hl⟩ := hplaces
    exact (hp.map Prod.fst).nodup_iff.mp (h.nodup.sublist (hl.map Prod.fst))
  have hbelow : ∀ p ∈ t.pending ++ t.live, p.1 < t.calls := by
    intro p hp
    rw [hcalls]
    exact h.below p (hplaces.subset hp)
  refine ⟨hnodup, hbelow, fun k hk => ?_⟩
  rcases hout k hk with hk | ⟨p, hp, rfl⟩
  · rw [hcalls]
    exact ⟨(h.out k hk).1, fun p hp => (h.out k hk).2 p (hpending p hp)⟩
  · refine ⟨hbelow p (List.mem_append_right _ hp), fun q hq he => ?_⟩
    rw [List.map_append] at hnodup
    exact (List.nodup_append.mp hnodup).2.2 _ (List.mem_map_of_mem hq) _ (List.mem_map_of_mem hp) he

theorem frame (h : Distinct s) (hclients : t.clients = s.clients) (hlive : t.live.Subperm s.live)
    (hcalls : t.calls = s.calls) (hout : ∀ k, t.Out k → s.Out k ∨ ∃ p ∈ t.live, p.1 = k) : Distinct t := by
  have hpending : t.pending = s.pending := by rw [pending, hclients, pending]
  refine h.move ?_ (fun p hp => hpending ▸ hp) hcalls hout
  rw [hpending]
  exact (List.subperm_append_left _).mpr hlive

theorem number (h : Distinct s) (hc : s.clients[c]? = some .idle) (n : TimerNode) : Distinct (s.number c n) := by
  have hpending : (s.number c n).pending.Perm ((s.calls, s.tmId) :: s.pending) :=
    pending_set hc (.numbered { n with tnId := s.tmId, tnCallback := s.calls }) rfl
  have hall : ((s.number c n).pending ++ (s.number c n).live).Perm ((s.calls, s.tmId) :: (s.pending ++ s.live)) :=
    hpending.append_right s.live
  refine ⟨?_, fun p hp => ?_, fun k hk => ?_⟩
  · apply (hall.map Prod.fst).nodup_iff.mpr
    rw [List.map_cons, List.nodup_cons]
    refine ⟨fun hin => ?_, h.nodup⟩
    obtain ⟨p, hp, he⟩ := List.mem_map.mp hin
    exact Nat.ne_of_lt (h.below p hp) he
  · rcases List.mem_cons.mp (hall.mem_iff.mp hp) with rfl | hp
    · exact Nat.lt_succ_self _
    · exact Nat.lt_succ_of_lt (h.below p hp)
  · have hk' := h.out k hk
    refine ⟨Nat.lt_succ_of_lt hk'.1, fun p hp => ?_⟩
    rcases List.mem_cons.mp (hpending.mem_iff.mp hp) with rfl | hp
    · exact (Nat.ne_of_lt hk'.1).symm
    · exact hk'.2 p hp

theorem rename (h : Distinct s) {k v : Client} (hc : s.clients[c]? = some k) (hkey : v.key = k.key)
    (hclients : t.clients = s.clients.set c v) (hlive : t.live = s.live) (hcalls : t.calls = s.calls)
    (hout : ∀ j, t.Out j → s.Out j) : Distinct t := by
  have hpending : t.pending.Perm s.pending := by
    have hset := pending_set hc v hclients
    rw [hkey] at hset
    exact (List.perm_append_left_iff _).mp hset
  refine h.move ?_ (fun p hp => hpending.mem_iff.mp hp) hcalls (fun j hj => .inl (hout j hj))
  rw [hlive]
  exact (hpending.append_right s.live).subperm

theorem push (h : Distinct s) (hc : s.clients[c]? = some (.built n)) : Distinct (s.push c n) := by
  have hpending : (n.key :: (s.push c n).pending).Perm s.pending := pending_set hc .idle rfl
  have hlive := live_push c n s
  have hall : ((s.push c n).pending ++ (s.push c n).live).Perm (s.pending ++ s.live) := by
    apply (hlive.append_left _).trans
    apply List.perm_middle.trans
    exact hpending.append_right s.live
  exact h.move hall.subperm (fun p hp => hpending.mem_iff.mp (List.mem_cons_of_mem _ hp)) rfl
    (out_live rfl rfl (hlive.mem_iff.mpr List.mem_cons_self))

theorem pop (h : Distinct s) (htick : s.tick = .locking) (hn : n ∈ s.tmQueue) : Distinct (s.pop n) :=
  h.frame rfl (live_pop htick hn).subperm rfl (out_live rfl rfl (List.mem_append_right _ List.mem_cons_self))

theorem pass (h : Distinct s) (htick : s.tick = .popped n) : Distinct (s.pass n) :=
  h.frame rfl (live_pass htick ▸ .refl _) rfl (out_live rfl rfl (List.mem_append_right _ List.mem_cons_self))

theorem requeue (h : Distinct s) (htick : s.tick = .checked n) (hagain : again n s.now = some m) :
    Distinct (s.requeue m) := by
  have hin : m.key ∈ (s.requeue m).live :=
    List.mem_append_left _ (List.mem_map_of_mem (List.mem_append_right _ List.mem_cons_self))
  exact h.frame rfl (live_requeue htick hagain ▸ .refl _) rfl (out_live rfl rfl hin)

theorem goOn (h : Distinct s) {k : Tick} (hk : k.node = none) : Distinct { s with tick := k } := by
  refine h.frame rfl ?_ rfl (fun _ hj => .inl hj)
  rw [live_goOn hk]
  exact (List.sublist_append_left _ _).subperm

theorem of_move {a : Act} (h : Distinct s) (hm : Moves s a t) : Distinct t := by
  cases hm with
  | run | rest | doze | drop | done | wake => exact h.goOn rfl
  | test => exact h.goOn (by split <;> rfl)
  | runAfter _ _ _ _ _ _ hc => exact h.number hc _
  | runRepeated _ _ _ _ _ hc => exact h.number hc _
  | enter c n hc => exact h.rename (v := .entered n) hc rfl rfl rfl rfl (fun _ hk => out_silent rfl rfl hk)
  | build c n hc =>
      exact h.rename (v := .built { n with tnTmPoint := s.now + n.tnPeriod }) hc rfl rfl rfl rfl (fun _ hk => hk)
  | push c n hc => exact h.push hc
  | cancel id => exact h.frame rfl (.refl _) rfl (fun _ hk => .inl (out_silent rfl rfl hk))
  | pop i n htick hn => exact h.pop htick hn
  | pass i n htick => exact h.pass htick
  | requeue i n m htick hagain => exact h.requeue htick hagain
  | clock | destroy | join => exact h.frame rfl (.refl _) rfl (fun _ hk => .inl hk)
  | finish =>
      refine h.frame rfl ?_ rfl (fun _ hk => .inl hk)
      rw [live, node_notified]
      exact .refl _

end Distinct

theorem pending_init (clients : Nat) : (init clients).pending = [] := by
  rw [pending, List.filterMap_eq_nil_iff]
  intro k hk
  rw [List.eq_of_mem_replicate hk]
  rfl

theorem distinct_init (clients : Nat) : Distinct (init clients) := by
  have hpending := pending_init clients
  refine ⟨?_, ?_, ?_⟩
  · rw [hpending]
    exact List.nodup_nil
  · rw [hpending]
    intro p hp
    cases hp
  · rintro k ⟨e, he, -⟩
    cases he

end Timer

end LearnNote.Timing
