import LearnNote.Timing.Nodes

namespace LearnNote.Timing

open Lib Lib.Transition

namespace Timer

def NoWrap : Act → Timer → Prop
  | .runAfter _ _ _ _ _, s | .runRepeated _ _ _ _, s => s.tmId ≠ 2147483647
  | _, _ => True

instance : ∀ (a : Act) (s : Timer), Decidable (NoWrap a s)
  | .runAfter _ _ _ _ _, _ | .runRepeated _ _ _ _, _ => inferInstanceAs (Decidable (_ ≠ _))
  | .run, _ | .advance _, _ | .cancel _, _ | .runLocal _, _ | .wake, _ | .clock _, _ | .destroy, _ | .join, _ |
    .finish, _ => inferInstanceAs (Decidable True)

def Client.freshId : Client → Option Int
  | .numbered n => some n.tnId
  | _ => none

def Event.enteredId : Event → Option Int
  | .entered id => some id
  | _ => none

def ids (s : Timer) : List Int := s.clients.filterMap Client.freshId ++ s.log.filterMap Event.enteredId

/-- The k-th call has id k, and enters it in the map once. -/
structure Aligned (s : Timer) : Prop where
  distinct : Distinct s
  next : s.tmId = s.calls
  keys : ∀ p ∈ s.pending ++ s.live, p.2 = p.1
  once : s.ids.Nodup
  below : ∀ id ∈ s.ids, id < s.tmId

variable {s t u : Timer} {n m : TimerNode} {id : Int}

theorem ids_set {c : Nat} {k v : Client} (hc : s.clients[c]? = some k) (ht : t.clients = s.clients.set c v)
    {es : List Event} (hlog : t.log = s.log ++ es) {l : List Int} (hes : es.filterMap Event.enteredId = l) :
    (k.freshId.toList ++ t.ids).Perm (v.freshId.toList ++ s.ids ++ l) := by
  rw [ids, ids, ht, hlog, List.filterMap_append, hes, ← List.append_assoc, ← List.append_assoc,
    ← List.append_assoc]
  exact ((Slots.filterMap_set Client.freshId v hc).append_right _).append_right _

theorem ids_log {e : Event} (hclients : t.clients = s.clients) (hlog : t.log = s.log ++ [e])
    (he : e.enteredId = none) : t.ids = s.ids := by
  rw [ids, ids, hclients, hlog, List.filterMap_append, List.filterMap_cons, he]
  simp

theorem fetchAdd_of_ne (h : id ≠ 2147483647) : fetchAdd id = id + 1 := if_neg h

namespace Aligned

theorem queue_ids (h : Aligned s) : (s.tmQueue.map TimerNode.tnId).Nodup := by
  have hcall : ∀ n ∈ s.tmQueue, n.tnId.toNat = n.tnCallback := by
    intro n hn
    have hid := h.keys n.key (List.mem_append_right _ (List.mem_append_left _ (List.mem_map_of_mem hn)))
    exact (congrArg Int.toNat hid).trans (Int.toNat_natCast _)
  have hsame : (s.tmQueue.map TimerNode.tnId).map Int.toNat = s.tmQueue.map TimerNode.tnCallback := by
    rw [List.map_map]
    exact List.map_congr_left hcall
  have hnodup := h.distinct.nodup_live
  rw [live, List.map_append, List.map_map] at hnodup
  apply List.Nodup.of_map Int.toNat
  rw [hsame]
  exact (List.nodup_append.mp hnodup).1

theorem frame {a : Act} (h : Aligned s) (hm : Moves s a t) (hnext : t.tmId = s.tmId) (hcalls : t.calls = s.calls)
    (hids : t.ids.Perm s.ids) : Aligned t := by
  have hdist := h.distinct.of_move hm
  refine ⟨hdist, by rw [hnext, hcalls, h.next], fun p hp => ?_, hids.nodup_iff.mpr h.once, fun id hid => ?_⟩
  · rcases keys_of_move hm hp with hold | rfl
    · exact h.keys p hold
    · exact h.next
  · rw [hnext]
    exact h.below id (hids.mem_iff.mp hid)

theorem number {a : Act} {c : Nat} (h : Aligned s) (hc : s.clients[c]? = some .idle) (hw : s.tmId ≠ 2147483647)
    (hm : Moves s a (s.number c n)) : Aligned (s.number c n) := by
  have hnext : (s.number c n).tmId = s.tmId + 1 := fetchAdd_of_ne hw
  have hids : (s.number c n).ids.Perm (s.tmId :: s.ids) := by
    have hset : (s.number c n).ids.Perm (s.tmId :: s.ids ++ []) :=
      ids_set (t := s.number c n) (v := .numbered { n with tnId := s.tmId, tnCallback := s.calls }) hc rfl
        (List.append_nil _).symm rfl
    rwa [List.append_nil] at hset
  refine ⟨h.distinct.of_move hm, ?_, fun p hp => ?_, ?_, fun id hid => ?_⟩
  · rw [hnext, h.next]
    rfl
  · rcases keys_of_move hm hp with hold | rfl
    · exact h.keys p hold
    · exact h.next
  · apply hids.nodup_iff.mpr
    exact List.nodup_cons.mpr ⟨fun hin => Int.lt_irrefl _ (h.below _ hin), h.once⟩
  · rw [hnext]
    rcases List.mem_cons.mp (hids.mem_iff.mp hid) with rfl | hid
    · exact Int.lt_succ _
    · exact Int.lt_trans (h.below id hid) (Int.lt_succ _)

theorem of_move {a : Act} (h : Aligned s) (hw : NoWrap a s) (hm : Moves s a t) : Aligned t := by
  have hmove := hm
  cases hm with
  | runAfter c _ _ _ _ _ hc => exact h.number hc hw hmove
  | runRepeated c _ _ _ _ hc => exact h.number hc hw hmove
  | enter c n hc =>
      apply h.frame hmove rfl rfl
      have hset : (n.tnId :: (s.enter c n).ids).Perm (s.ids ++ [n.tnId]) :=
        ids_set (t := s.enter c n) (v := .entered n) hc rfl rfl rfl
      exact (List.perm_cons _).mp (hset.trans (List.perm_append_singleton _ _))
  | build c n hc =>
      apply h.frame hmove rfl rfl
      have hset : (s.build c n).ids.Perm (s.ids ++ []) :=
        ids_set (t := s.build c n) (v := .built { n with tnTmPoint := s.now + n.tnPeriod }) hc rfl
          (List.append_nil _).symm rfl
      rwa [List.append_nil] at hset
  | push c n hc =>
      apply h.frame hmove rfl rfl
      have hset : (s.push c n).ids.Perm (s.ids ++ []) :=
        ids_set (t := s.push c n) (v := .idle) hc rfl rfl rfl
      rwa [List.append_nil] at hset
  | cancel | pop | pass | requeue => exact h.frame hmove rfl rfl (.of_eq (ids_log rfl rfl rfl))
  | _ => exact h.frame hmove rfl rfl (.refl _)

end Aligned

def Event.poppedId : Event → Option Int
  | .popped n => some n.tnId
  | _ => none

def Event.passedId : Event → Option Int
  | .passed n => some n.tnId
  | _ => none

def Event.requeuedId : Event → Option Int
  | .requeued n => some n.tnId
  | _ => none

def Event.roundId : Event → Option Int
  | .popped n | .passed n | .requeued n => some n.tnId
  | _ => none

def occurs (s : Timer) (kind : Event → Option Int) (id : Int) : Nat := (s.log.filterMap kind).count id

/-- The states after t, where a call cancel(id) has returned. -/
structure Final (t : Timer) (id : Int) (u : Timer) : Prop where
  aligned : Aligned u
  entered : .entered id ∈ u.log
  missing : u.tmIdStateMap.exist id = false
  passes : u.occurs Event.passedId id = t.occurs Event.passedId id
  round : ∀ n, u.tick = .checked n → n.tnId = id → u.occurs Event.requeuedId id ≤ t.occurs Event.requeuedId id
  requeues : u.occurs Event.requeuedId id ≤ t.occurs Event.requeuedId id + 1
  gone : t.occurs Event.poppedId id < u.occurs Event.poppedId id →
    (∀ p ∈ u.pending, p.2 ≠ id) ∧ (∀ n ∈ u.tmQueue, n.tnId ≠ id) ∧ ∀ n, u.tick = .checked n → n.tnId ≠ id

variable {v : Timer}

theorem occurs_concat {e : Event} (hlog : v.log = u.log ++ [e]) (kind : Event → Option Int) (id : Int) :
    v.occurs kind id = u.occurs kind id + if kind e = some id then 1 else 0 := by
  rw [occurs, hlog, List.filterMap_append, List.count_append, occurs]
  cases he : kind e with
  | none => simp [he]
  | some x => simp [he, List.count_singleton]

theorem occurs_silent {e : Event} (hlog : v.log = u.log ++ [e]) {kind : Event → Option Int}
    (he : kind e ≠ some id) : v.occurs kind id = u.occurs kind id := by
  rw [occurs_concat hlog, if_neg he]
  exact Nat.add_zero _

/-- The log is as it was, or has one more event that is not of a round of this id. -/
def Silent (u v : Timer) (id : Int) : Prop :=
  v.log = u.log ∨ ∃ e, v.log = u.log ++ [e] ∧ e.roundId ≠ some id

theorem Silent.occurs (h : Silent u v id) {kind : Event → Option Int}
    (hkind : ∀ e, kind e = some id → e.roundId = some id) : v.occurs kind id = u.occurs kind id := by
  rcases h with h | ⟨e, hlog, he⟩
  · rw [Timer.occurs, h, Timer.occurs]
  · exact occurs_silent hlog (fun hk => he (hkind e hk))

theorem Silent.log (h : Silent u v id) {e : Event} (he : e ∈ u.log) : e ∈ v.log := by
  rcases h with h | ⟨_, hlog, -⟩
  · exact h ▸ he
  · exact hlog ▸ List.mem_append_left _ he

theorem roundId_popped (e : Event) (h : e.poppedId = some id) : e.roundId = some id := by
  cases e <;> first | exact h | cases h

theorem roundId_passed (e : Event) (h : e.passedId = some id) : e.roundId = some id := by
  cases e <;> first | exact h | cases h

theorem roundId_requeued (e : Event) (h : e.requeuedId = some id) : e.roundId = some id := by
  cases e <;> first | exact h | cases h

theorem checked_of_notified {k : Tick} (h : k.notified = .checked n) : k = .checked n := by
  cases k <;> first | exact h | cases h

namespace Final

theorem lt_next (h : Final t id u) : id < u.tmId := by
  apply h.aligned.below
  exact List.mem_append_right _ (List.mem_filterMap.mpr ⟨_, h.entered, rfl⟩)

theorem ne_fresh (h : Final t id u) {c : Nat} (hc : u.clients[c]? = some (.numbered n)) : n.tnId ≠ id := by
  have hfresh : n.tnId ∈ u.clients.filterMap Client.freshId :=
    List.mem_filterMap.mpr ⟨_, List.mem_of_getElem? hc, rfl⟩
  exact (List.nodup_append.mp h.aligned.once).2.2 _ hfresh id (List.mem_filterMap.mpr ⟨_, h.entered, rfl⟩)

theorem frame {a : Act} (h : Final t id u) (hw : NoWrap a u) (hm : Moves u a v) (hlog : Silent u v id)
    (hmissing : v.tmIdStateMap.exist id = false)
    (hround : ∀ n, v.tick = .checked n → n.tnId = id → u.tick = .checked n)
    (hqueue : ∀ n ∈ v.tmQueue, n.tnId = id → n ∈ u.tmQueue ∨ n.key ∈ u.pending) : Final t id v := by
  have hrequeues := hlog.occurs roundId_requeued
  refine ⟨h.aligned.of_move hw hm, hlog.log h.entered, hmissing, (hlog.occurs roundId_passed).trans h.passes,
    ?_, ?_, ?_⟩
  · intro n hn hid
    rw [hrequeues]
    exact h.round n (hround n hn hid) hid
  · rw [hrequeues]
    exact h.requeues
  · rw [hlog.occurs roundId_popped]
    intro hlt
    obtain ⟨h1, h2, h3⟩ := h.gone hlt
    refine ⟨fun p hp => ?_, fun n hn hid => ?_, fun n hn hid => h3 n (hround n hn hid) hid⟩
    · rcases pending_of_move hm hp with hp | rfl
      · exact h1 p hp
      · exact (Int.ne_of_lt h.lt_next).symm
    · rcases hqueue n hn hid with hn | hn
      · exact h2 n hn hid
      · exact h1 n.key hn hid

theorem goOn {a : Act} (h : Final t id u) (hw : NoWrap a u) {k : Tick} (hm : Moves u a { u with tick := k })
    (hk : ∀ n, k ≠ .checked n) : Final t id { u with tick := k } :=
  h.frame hw hm (.inl rfl) h.missing (fun n hn => absurd hn (hk n)) (fun _ hn _ => .inl hn)

/-- From the first pop on the node is in the hand of the tick thread, and nowhere else. -/
theorem popOwn {a : Act} (h : Final t id u) (hw : NoWrap a u) (hm : Moves u a (u.pop m)) (hid : m.tnId = id) :
    Final t id (u.pop m) := by
  have haligned := h.aligned.of_move hw hm
  have hin : m.key ∈ (u.pop m).live := List.mem_append_right _ List.mem_cons_self
  have hcall : ∀ p ∈ (u.pop m).pending ++ (u.pop m).live, p.2 = id → p.1 = m.tnCallback := by
    intro p hp he
    have hp' := haligned.keys p hp
    have hm' := haligned.keys m.key (List.mem_append_right _ hin)
    exact Int.ofNat.inj (hp'.symm.trans (he.trans (hid.symm.trans hm')))
  have hpasses : (u.pop m).occurs Event.passedId id = u.occurs Event.passedId id :=
    occurs_silent rfl (by simp [Event.passedId])
  have hrequeues : (u.pop m).occurs Event.requeuedId id = u.occurs Event.requeuedId id :=
    occurs_silent rfl (by simp [Event.requeuedId])
  refine ⟨haligned, List.mem_append_left _ h.entered, h.missing, hpasses.trans h.passes, ?_,
    hrequeues ▸ h.requeues, fun _ => ⟨fun p hp he => ?_, fun n hn he => ?_, ?_⟩⟩
  · intro n hn
    cases hn
  · have hnodup := haligned.distinct.nodup
    rw [List.map_append] at hnodup
    exact (List.nodup_append.mp hnodup).2.2 _ (List.mem_map_of_mem hp) _ (List.mem_map_of_mem hin)
      (hcall p (List.mem_append_left _ hp) he)
  · have hlive : n.key ∈ (u.pop m).live := List.mem_append_left _ (List.mem_map_of_mem hn)
    exact haligned.distinct.hand_ne hn rfl (hcall n.key (List.mem_append_right _ hlive) he)
  · intro n hn
    cases hn

theorem pop {a : Act} (h : Final t id u) (hw : NoWrap a u) (hm : Moves u a (u.pop m)) : Final t id (u.pop m) := by
  by_cases hid : m.tnId = id
  · exact h.popOwn hw hm hid
  · refine h.frame hw hm (.inr ⟨_, rfl, by simpa [Event.roundId] using hid⟩) h.missing ?_ ?_
    · intro n hn
      cases hn
    · exact fun n hn _ => .inl (List.mem_of_mem_erase hn)

theorem requeueOwn {a : Act} (h : Final t id u) (hw : NoWrap a u) (hm : Moves u a (u.requeue m))
    (htick : u.tick = .checked n) (hid : n.tnId = id) (hsame : m.tnId = n.tnId) : Final t id (u.requeue m) := by
  have hpasses : (u.requeue m).occurs Event.passedId id = u.occurs Event.passedId id :=
    occurs_silent rfl (by simp [Event.passedId])
  have hpops : (u.requeue m).occurs Event.poppedId id = u.occurs Event.poppedId id :=
    occurs_silent rfl (by simp [Event.poppedId])
  refine ⟨h.aligned.of_move hw hm, List.mem_append_left _ h.entered, h.missing, hpasses.trans h.passes, ?_, ?_,
    fun hlt => ?_⟩
  · intro x hx
    cases hx
  · rw [occurs_concat (u := u) rfl, if_pos (by rw [Event.requeuedId, hsame, hid])]
    exact Nat.succ_le_succ (h.round n htick hid)
  · rw [hpops] at hlt
    exact absurd hid ((h.gone hlt).2.2 n htick)

theorem requeue {a : Act} (h : Final t id u) (hw : NoWrap a u) (hm : Moves u a (u.requeue m))
    (htick : u.tick = .checked n) (hagain : again n u.now = some m) : Final t id (u.requeue m) := by
  have hsame : m.tnId = n.tnId := congrArg Prod.snd (again_key hagain)
  by_cases hid : n.tnId = id
  · exact h.requeueOwn hw hm htick hid hsame
  · refine h.frame hw hm (.inr ⟨_, rfl, by simpa [Event.roundId, hsame] using hid⟩) h.missing ?_ ?_
    · intro x hx
      cases hx
    · intro x hx hxid
      rcases List.mem_append.mp hx with hx | hx
      · exact .inl hx
      · rw [List.mem_singleton.mp hx, hsame] at hxid
        exact absurd hxid hid

theorem of_move {a : Act} (h : Final t id u) (hw : NoWrap a u) (hm : Moves u a v) : Final t id v := by
  have hmove := hm
  cases hm with
  | run | rest | doze | drop | done | wake => exact h.goOn hw hmove (by simp)
  | test => exact h.goOn hw hmove (by intro n; split <;> simp)
  | runAfter | runRepeated | build | clock | destroy | join =>
      exact h.frame hw hmove (.inl rfl) h.missing (fun _ hn _ => hn) (fun _ hn _ => .inl hn)
  | enter c n hc =>
      refine h.frame hw hmove (.inr ⟨_, rfl, by simp [Event.roundId]⟩) ?_ (fun _ hn _ => hn)
        (fun _ hn _ => .inl hn)
      have hne := h.ne_fresh hc
      simp [enter, HashMap.exist_emplace, h.missing, hne.symm]
  | push c n hc =>
      refine h.frame hw hmove (.inr ⟨_, rfl, by simp [Event.roundId]⟩) h.missing ?_ ?_
      · exact fun x hx _ => checked_of_notified hx
      · intro x hx _
        rcases List.mem_append.mp hx with hx | hx
        · exact .inl hx
        · rw [List.mem_singleton.mp hx]
          exact .inr (mem_pending hc rfl)
  | cancel other =>
      refine h.frame hw hmove (.inr ⟨_, rfl, by simp [Event.roundId]⟩) ?_ (fun _ hn _ => hn)
        (fun _ hn _ => .inl hn)
      simp [cancel, HashMap.exist_erase, h.missing]
  | pop => exact h.pop hw hmove
  | pass i m htick hexist =>
      have hid : m.tnId ≠ id := by
        rintro rfl
        cases hexist.symm.trans h.missing
      refine h.frame hw hmove (.inr ⟨_, rfl, by simpa [Event.roundId] using hid⟩) h.missing ?_
        (fun _ hn _ => .inl hn)
      intro n hn he
      cases hn
      exact absurd he hid
  | requeue i n m htick hagain => exact h.requeue hw hmove htick hagain
  | finish =>
      exact h.frame hw hmove (.inl rfl) h.missing (fun _ hx _ => checked_of_notified hx) (fun _ hn _ => .inl hn)

end Final

theorem aligned_of_reachable (h : Reachable start step NoWrap s) : Aligned s := by
  apply h.invariant (I := Aligned) ?_ (fun _ _ _ hi hw hs => hi.of_move hw (moves_of_step hs))
  rintro _ ⟨clients, rfl⟩
  have hpending : (init clients).pending = [] := pending_init clients
  have hids : (init clients).ids = [] := by
    apply (List.append_nil _).trans
    rw [List.filterMap_eq_nil_iff]
    intro k hk
    rw [List.eq_of_mem_replicate hk]
    rfl
  refine ⟨distinct_init clients, rfl, ?_, ?_, ?_⟩
  · rw [hpending]
    intro p hp
    cases hp
  · rw [hids]
    exact List.nodup_nil
  · rw [hids]
    intro id hid
    cases hid

/-- Every id has at most one node in the queue. After a cancel of an id that has been
entered in the map its check never passes again, its node goes back to the queue at most
once, and from its next pop on it is not in the queue. -/
theorem cancel_is_final (s : Timer) (h : Reachable start step NoWrap s) :
    (s.tmQueue.map TimerNode.tnId).Nodup ∧
      ∀ id t, .entered id ∈ s.log → step (.cancel id) s = some t → ∀ u, Reachable (· = t) step NoWrap u →
        u.tmIdStateMap.exist id = false ∧ u.occurs Event.passedId id = t.occurs Event.passedId id ∧
          u.occurs Event.requeuedId id ≤ t.occurs Event.requeuedId id + 1 ∧
          (t.occurs Event.poppedId id < u.occurs Event.poppedId id → ∀ n ∈ u.tmQueue, n.tnId ≠ id) := by
  have haligned := aligned_of_reachable h
  refine ⟨haligned.queue_ids, fun id t hentered hs u hu => ?_⟩
  have hfinal : Final t id u := by
    apply hu.invariant (I := Final t id) ?_ (fun _ _ _ hi hw hs => hi.of_move hw (moves_of_step hs))
    rintro _ rfl
    have hm := moves_of_step hs
    obtain ⟨-, he⟩ := Option.ite_none_right_eq_some.mp hs
    cases he
    refine ⟨haligned.of_move (a := .cancel id) trivial hm, List.mem_append_left _ hentered, ?_, rfl,
      fun _ _ _ => Nat.le_refl _, Nat.le_succ _, fun hlt => absurd hlt (Nat.lt_irrefl _)⟩
    simp [cancel, HashMap.exist_erase]
  exact ⟨hfinal.missing, hfinal.passes, hfinal.requeues, fun hlt => (hfinal.gone hlt).2.1⟩

/-- The call is cancelled when its node has passed the check: the node goes back once,
is popped and is gone. -/
theorem cancel_is_final_late :
    ∃ s t u, Reachable start step NoWrap s ∧ step (.cancel 0) s = some t ∧ Reachable (· = t) step NoWrap u ∧
      t.tick = .checked ⟨0, 0, 0, 5, false, true, 0⟩ ∧ u.occurs Event.requeuedId 0 = 1 ∧
      u.occurs Event.poppedId 0 = 2 ∧ ∀ n ∈ u.tmQueue, n.tnId ≠ 0 := by
  have hrun : (run (guarded step NoWrap) [.run, .runRepeated 0 0 5 false, .advance 0, .advance 0, .advance 0,
      .runLocal 0, .runLocal 0, .runLocal 0] (init 1)).map (fun s => (s.log, s.destructor, s.tick)) =
      some ([.entered 0, .added ⟨0, 0, 0, 5, false, true, 0⟩, .popped ⟨0, 0, 0, 5, false, true, 0⟩,
        .passed ⟨0, 0, 0, 5, false, true, 0⟩], .idle, .checked ⟨0, 0, 0, 5, false, true, 0⟩) := by decide +kernel
  have hlater : ((run (guarded step NoWrap) [.run, .runRepeated 0 0 5 false, .advance 0, .advance 0, .advance 0,
      .runLocal 0, .runLocal 0, .runLocal 0] (init 1)).bind (fun s => run (guarded step NoWrap) [.runLocal 0,
        .runLocal 0, .runLocal 0, .runLocal 0] (s.cancel 0))).map
      (fun u => (u.occurs Event.requeuedId 0, u.occurs Event.poppedId 0)) = some (1, 2) := by decide +kernel
  obtain ⟨s, hs, he⟩ := Option.map_eq_some_iff.mp hrun
  rw [hs] at hlater
  obtain ⟨u, hlate, hcounts⟩ := reachable_of_run (· = s.cancel 0) hlater rfl
  simp only [Prod.mk.injEq] at he hcounts
  obtain ⟨hlog, hd, htick⟩ := he
  have hr : Reachable start step NoWrap s := Reachable.run (.start ⟨1, rfl⟩) _ hs
  have hcancel : step (.cancel 0) s = some (s.cancel 0) := if_pos hd
  have hfinal := (cancel_is_final s hr).2 0 _ (by simp [hlog]) hcancel u hlate
  refine ⟨s, s.cancel 0, u, hr, hcancel, hlate, htick, hcounts.1, hcounts.2, hfinal.2.2.2 ?_⟩
  rw [hcounts.2, occurs_concat (u := s) rfl, occurs, hlog]
  decide

/-- An id that no call has taken yet is cancelled. The call that takes it later passes
the check. -/
theorem early_cancel_has_no_effect :
    ¬ ∀ s, Reachable start step NoWrap s → ∀ id t, step (.cancel id) s = some t →
      ∀ u, Reachable (· = t) step NoWrap u → u.occurs Event.passedId id = t.occurs Event.passedId id := by
  intro h
  have hrun : (run (guarded step NoWrap) [.run, .runAfter 0 0 true false 0, .advance 0, .advance 0, .advance 0,
      .runLocal 0, .runLocal 0, .runLocal 0] ((init 1).cancel 0)).map
      (fun u => u.occurs Event.passedId 0) = some 1 := by decide +kernel
  obtain ⟨u, hr, he⟩ := reachable_of_run (· = (init 1).cancel 0) hrun rfl
  have hsame := h (init 1) (.start ⟨1, rfl⟩) 0 _ rfl u hr
  rw [he] at hsame
  cases hsame

end Timer

end LearnNote.Timing
