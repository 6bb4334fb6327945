import LearnNote.Timing.Nodes

namespace LearnNote.Timing

open Lib.Transition

namespace Timer

def Client.entersId : Client → Option Int
  | .entered n | .built n => some n.tnId
  | _ => none

def Registered (s : Timer) (id : Int) : Prop := .cancelled id ∈ s.log ∨ s.tmIdStateMap.exist id = true

/-- The node of every call that has entered its id in the map is registered. -/
structure Entered (s : Timer) : Prop where
  clients : ∀ k ∈ s.clients, ∀ id, k.entersId = some id → s.Registered id
  live : ∀ p ∈ s.live, s.Registered p.2

def Event.pops (k : Nat) : Event → Bool
  | .popped n => n.tnCallback = k
  | _ => false

def pops (s : Timer) (k : Nat) : Nat := s.log.countP (Event.pops k)

/-- The node of call k is neither in the queue nor in the hand of the tick thread. -/
def Dropped (s : Timer) (k : Nat) : Prop := ∀ p ∈ s.live, p.1 ≠ k

/-- A repeated node, as it was added or later. -/
structure Repeats (m n : TimerNode) : Prop where
  key : m.key = n.key
  period : m.tnIsPeriod = false
  repeated : m.tnIsRepeated = true
  nonneg : 0 ≤ m.tnRepeatedNum

/-- What has become of a node that was added: it waits, it is in hand, or it is gone. -/
inductive Fate (s : Timer) (n : TimerNode) : Prop
  | waiting (m) (hm : m ∈ s.tmQueue) (hr : Repeats m n)
      (hpops : m.tnRepeatedNum + s.pops n.tnCallback = n.tnRepeatedNum)
  | inHand (m) (hm : s.tick.node = some m) (hr : Repeats m n)
      (hpops : m.tnRepeatedNum + s.pops n.tnCallback = n.tnRepeatedNum + 1)
  | gone (hd : s.Dropped n.tnCallback) (hpops : (s.pops n.tnCallback : Int) = n.tnRepeatedNum + 1)

variable {s t : Timer} {n m : TimerNode} {id : Int}

theorem Registered.of_move {a : Act} (h : s.Registered id) (hm : Moves s a t) : t.Registered id := by
  have hgrow : ∀ {u : Timer} {e : Event}, u.log = s.log ++ [e] → u.tmIdStateMap = s.tmIdStateMap →
      u.Registered id := by
    intro u e hlog hmap
    rw [Registered, hlog, hmap]
    exact h.imp_left (List.mem_append_left _)
  cases hm with
  | enter c n hc =>
      refine h.imp (List.mem_append_left _) (fun hexist => ?_)
      simp only [enter, HashMap.exist_emplace, hexist, Bool.or_true]
  | cancel other hd =>
      by_cases he : id = other
      · subst he
        exact .inl (List.mem_append_right _ List.mem_cons_self)
      · refine h.imp (List.mem_append_left _) (fun hexist => ?_)
        simp [cancel, HashMap.exist_erase, he, hexist]
  | push | pop | pass | requeue => exact hgrow rfl rfl
  | _ => exact h

namespace Entered

theorem move {a : Act} (h : Entered s) (hm : Moves s a t)
    (hclients : ∀ k ∈ t.clients, k ∈ s.clients ∨ ∀ id, k.entersId = some id → t.Registered id) : Entered t := by
  refine ⟨fun k hk id hid => ?_, fun p hp => ?_⟩
  · rcases hclients k hk with hk | hk
    · exact (h.clients k hk id hid).of_move hm
    · exact hk id hid
  · rcases live_of_move hm hp with hp | ⟨c, n, hc, rfl⟩
    · exact (h.live p hp).of_move hm
    · exact (h.clients _ (List.mem_of_getElem? hc) n.tnId rfl).of_move hm

theorem of_move {a : Act} (h : Entered s) (hm : Moves s a t) : Entered t := by
  apply h.move hm
  intro k hk
  have hset : ∀ {c : Nat} {v : Client}, t.clients = s.clients.set c v → k ∈ s.clients ∨ k = v := by
    intro c v ht
    rw [ht] at hk
    exact List.mem_or_eq_of_mem_set hk
  cases hm with
  | runAfter | runRepeated | push => exact (hset rfl).imp_right (by rintro rfl id ⟨⟩)
  | enter c n hc =>
      refine (hset rfl).imp_right ?_
      rintro rfl id ⟨⟩
      right
      simp [enter, HashMap.exist_emplace]
  | build c n hc =>
      refine (hset rfl).imp_right ?_
      rintro rfl id ⟨⟩
      exact h.clients _ (List.mem_of_getElem? hc) n.tnId rfl
  | _ => exact .inl hk

end Entered

theorem pops_concat {e : Event} (ht : t.log = s.log ++ [e]) (k : Nat) :
    t.pops k = s.pops k + if e.pops k then 1 else 0 := by
  rw [pops, ht, List.countP_append, List.countP_singleton, pops]

theorem pops_silent {e : Event} (ht : t.log = s.log ++ [e]) {k : Nat} (he : e.pops k = false) :
    t.pops k = s.pops k := by
  rw [pops_concat ht, he]
  rfl

theorem pops_eq_zero {k : Nat} (h : ¬ s.Out k) : s.pops k = 0 := by
  rw [pops, List.countP_eq_zero]
  intro e he hpop
  cases e with
  | popped n => exact h ⟨_, he, n, rfl, by simpa [Event.pops] using hpop⟩
  | _ => cases hpop

theorem Repeats.goesBack {now : Int} {x : TimerNode} (hr : Repeats x n) (h : again x now = some m) :
    Repeats m n ∧ m.tnRepeatedNum = x.tnRepeatedNum - 1 := by
  rw [Timer.again, if_neg (by simp [hr.period])] at h
  obtain ⟨⟨-, hpos⟩, he⟩ := Option.ite_none_right_eq_some.mp h
  cases he
  exact ⟨⟨hr.key, hr.period, hr.repeated, Int.le_sub_one_of_lt hpos⟩, rfl⟩

theorem Repeats.last {now : Int} (hr : Repeats m n) (h : again m now = none) : m.tnRepeatedNum = 0 := by
  have hnonneg := hr.nonneg
  rw [Timer.again, if_neg (by simp [hr.period])] at h
  by_contra hne
  rw [if_pos ⟨hr.repeated, by omega⟩] at h
  cases h

namespace Fate

theorem frame (h : Fate s n) (hq : t.tmQueue = s.tmQueue) (hnode : t.tick.node = s.tick.node)
    (hpops : t.pops n.tnCallback = s.pops n.tnCallback) : Fate t n := by
  cases h with
  | waiting m hm hr he => exact .waiting m (hq ▸ hm) hr (hpops ▸ he)
  | inHand m hm hr he => exact .inHand m (hnode.trans hm) hr (hpops ▸ he)
  | gone hd he =>
      refine .gone ?_ (hpops ▸ he)
      rw [Dropped, live, hq, hnode]
      exact hd

theorem pop (h : Fate s n) (hdist : Distinct s) (htick : s.tick = .locking) (hm : m ∈ s.tmQueue) :
    Fate (s.pop m) n := by
  have hcount : (s.pop m).pops n.tnCallback =
      s.pops n.tnCallback + if m.tnCallback = n.tnCallback then 1 else 0 := by
    rw [pops_concat rfl]
    simp [Event.pops]
  cases h with
  | waiting x hx hr he =>
      have hcall : x.tnCallback = n.tnCallback := congrArg Prod.fst hr.key
      by_cases hxm : x = m
      · subst hxm
        refine .inHand x rfl hr ?_
        rw [hcount, if_pos hcall]
        omega
      · refine .waiting x ((List.mem_erase_of_ne hxm).mpr hx) hr ?_
        rw [hcount, if_neg (fun hmn => hxm (hdist.queue_injective hx hm (hcall.trans hmn.symm)))]
        exact he
  | inHand x hx =>
      rw [htick] at hx
      cases hx
  | gone hd he =>
      have hne : m.tnCallback ≠ n.tnCallback := hd m.key (List.mem_append_left _ (List.mem_map_of_mem hm))
      refine .gone (fun p hp => hd p ((live_pop htick hm).mem_iff.mp hp)) ?_
      rw [hcount, if_neg hne]
      exact he

theorem requeue (h : Fate s n) {x : TimerNode} (htick : s.tick = .checked x) (hagain : again x s.now = some m) :
    Fate (s.requeue m) n := by
  have hcount : (s.requeue m).pops n.tnCallback = s.pops n.tnCallback := pops_silent rfl rfl
  cases h with
  | waiting y hy hr he => exact .waiting y (List.mem_append_left _ hy) hr (hcount ▸ he)
  | inHand y hy hr he =>
      rw [htick] at hy
      cases hy
      obtain ⟨hr', hnum⟩ := hr.goesBack hagain
      refine .waiting m (List.mem_append_right _ List.mem_cons_self) hr' ?_
      omega
  | gone hd he =>
      refine .gone ?_ (hcount ▸ he)
      rw [Dropped, live_requeue htick hagain]
      exact hd

theorem putAway (h : Fate s n) (hdist : Distinct s) {k : Tick} (hk : k.node = none)
    (hlast : ∀ m, s.tick.node = some m → Repeats m n → m.tnRepeatedNum = 0) : Fate { s with tick := k } n := by
  cases h with
  | waiting m hm hr he => exact .waiting m hm hr he
  | inHand m hm hr he =>
      have hzero := hlast m hm hr
      have hlast : (s.pops n.tnCallback : Int) = n.tnRepeatedNum + 1 := by omega
      refine .gone (fun p hp => ?_) hlast
      rw [live_goOn hk] at hp
      obtain ⟨x, hx, rfl⟩ := List.mem_map.mp hp
      have hcall : m.tnCallback = n.tnCallback := congrArg Prod.fst hr.key
      exact hcall ▸ hdist.hand_ne hx hm
  | gone hd he =>
      refine .gone (fun p hp => hd p ?_) he
      rw [live_goOn hk] at hp
      exact List.mem_append_left _ hp

theorem push (h : Fate s n) (hdist : Distinct s) {c : Nat} (hc : s.clients[c]? = some (.built m))
    (hadded : .added n ∈ s.log) : Fate (s.push c m) n := by
  have hcount : (s.push c m).pops n.tnCallback = s.pops n.tnCallback := pops_silent rfl rfl
  cases h with
  | waiting x hx hr he => exact .waiting x (List.mem_append_left _ hx) hr (hcount ▸ he)
  | inHand x hx hr he => exact .inHand x ((node_notified _).trans hx) hr (hcount ▸ he)
  | gone hd he =>
      refine .gone (fun p hp => ?_) (hcount ▸ he)
      rcases List.mem_cons.mp ((live_push c m s).mem_iff.mp hp) with rfl | hp
      · have hpending : m.key ∈ s.pending := mem_pending hc rfl
        exact (hdist.out _ ⟨_, hadded, n, rfl, rfl⟩).2 m.key hpending
      · exact hd p hp

theorem pushed (hdist : Distinct s) {c : Nat} (hc : s.clients[c]? = some (.built n))
    (hperiod : n.tnIsPeriod = false) (hrepeated : n.tnIsRepeated = true) (hnum : 0 ≤ n.tnRepeatedNum) :
    Fate (s.push c n) n := by
  have hpending : n.key ∈ s.pending := mem_pending hc rfl
  have hzero : s.pops n.tnCallback = 0 := pops_eq_zero (fun hout => (hdist.out _ hout).2 n.key hpending rfl)
  refine .waiting n (List.mem_append_right _ List.mem_cons_self) ⟨rfl, hperiod, hrepeated, hnum⟩ ?_
  have hcount : (s.push c n).pops n.tnCallback = s.pops n.tnCallback := pops_silent rfl rfl
  omega

theorem of_move {a : Act} (h : Fate s n) (hdist : Distinct s) (hentered : Entered s) (hadded : .added n ∈ s.log)
    (hcancel : .cancelled n.tnId ∉ s.log) (hm : Moves s a t) : Fate t n := by
  cases hm with
  | push c m hc => exact h.push hdist hc hadded
  | enter | cancel => exact h.frame rfl rfl (pops_silent rfl rfl)
  | pop i m htick hm => exact h.pop hdist htick hm
  | pass i m htick => exact h.frame rfl (by rw [htick]; rfl) (pops_silent rfl rfl)
  | drop i m htick hexist =>
      refine h.putAway hdist rfl (fun x hx hr => ?_)
      -- a node that is not cancelled passes the check
      have hlive : n.key ∈ s.live := by
        rw [← hr.key]
        exact List.mem_append_right _ (by rw [hx]; exact List.mem_cons_self)
      rw [htick] at hx
      cases hx
      have hid : m.tnId = n.tnId := congrArg Prod.snd hr.key
      rcases hentered.live _ hlive with hc | he
      · exact absurd hc hcancel
      · rw [hid] at hexist
        cases hexist.symm.trans he
  | requeue i x m htick hagain => exact h.requeue htick hagain
  | done i m htick hagain =>
      refine h.putAway hdist rfl (fun x hx hr => ?_)
      rw [htick] at hx
      cases hx
      exact hr.last hagain
  | run htick => exact h.frame rfl (by rw [htick]; rfl) rfl
  | rest i htick => exact h.frame rfl (by rw [htick]; rfl) rfl
  | doze i htick => exact h.frame rfl (by rw [htick]; rfl) rfl
  | wake timed htick => exact h.frame rfl (by rw [htick]; rfl) rfl
  | test i htick => exact h.frame rfl (by rw [htick]; split <;> rfl) rfl
  | finish => exact h.frame rfl (node_notified _) rfl
  | _ => exact h.frame rfl rfl rfl

end Fate

/-- The fate of every repeated node that was added and is not cancelled. -/
structure Repetition (s : Timer) : Prop where
  distinct : Distinct s
  entered : Entered s
  fate : ∀ n, .added n ∈ s.log → n.tnIsPeriod = false → n.tnIsRepeated = true → 0 ≤ n.tnRepeatedNum →
    .cancelled n.tnId ∉ s.log → Fate s n

theorem added_of_move {a : Act} (hm : Moves s a t) (h : .added n ∈ t.log) :
    .added n ∈ s.log ∨ ∃ c, s.clients[c]? = some (.built n) ∧ t = s.push c n := by
  have hold : ∀ {e : Event}, t.log = s.log ++ [e] → e ≠ .added n → .added n ∈ s.log := by
    intro e ht he
    rw [ht] at h
    rcases List.mem_append.mp h with h | h
    · exact h
    · exact absurd (List.mem_singleton.mp h).symm he
  cases hm with
  | push c m hc =>
      by_cases he : m = n
      · subst he
        exact .inr ⟨c, hc, rfl⟩
      · exact .inl (hold rfl (by simpa using he))
  | enter | cancel | pop | pass | requeue => exact .inl (hold rfl (by simp))
  | _ => exact .inl h

theorem log_of_move {a : Act} (hm : Moves s a t) {e : Event} (he : e ∈ s.log) : e ∈ t.log := by
  cases hm with
  | enter | push | cancel | pop | pass | requeue => exact List.mem_append_left _ he
  | _ => exact he

theorem Repetition.of_move {a : Act} (h : Repetition s) (hm : Moves s a t) : Repetition t := by
  refine ⟨h.distinct.of_move hm, h.entered.of_move hm, fun n hadded hperiod hrepeated hnum hcancel => ?_⟩
  have hbefore : .cancelled n.tnId ∉ s.log := fun hin => hcancel (log_of_move hm hin)
  rcases added_of_move hm hadded with hadded | ⟨c, hc, rfl⟩
  · exact (h.fate n hadded hperiod hrepeated hnum hbefore).of_move h.distinct h.entered hadded hbefore hm
  · exact .pushed h.distinct hc hperiod hrepeated hnum

theorem repetition_of_reachable (h : Reachable start step always s) : Repetition s := by
  apply h.invariant (I := Repetition) ?_ (fun _ _ _ hi _ hs => hi.of_move (moves_of_step hs))
  rintro _ ⟨clients, rfl⟩
  refine ⟨distinct_init clients, ⟨fun k hk id hid => ?_, fun p hp => by cases hp⟩, fun n hadded => by cases hadded⟩
  rw [List.eq_of_mem_replicate hk] at hid
  cases hid

/-- What a call of run_repeated asks for: when its node has gone for good, not
cancelled, it has been popped as often. -/
def FiresAsOften (msTime repeatedNum : Int) : Prop :=
  ∀ s, Reachable start step always s → ∀ n, .added n ∈ s.log → n.tnIsPeriod = false → n.tnIsRepeated = true →
    n.tnRepeatedNum = repeatedNum → n.tnPeriod = msTime * 1000 → .cancelled n.tnId ∉ s.log →
    s.Dropped n.tnCallback → s.pops n.tnCallback = repeatedNum

/-- A node that has gone has been popped once more than its count says. -/
theorem pops_of_dropped (h : Reachable start step always s) (hadded : .added n ∈ s.log)
    (hperiod : n.tnIsPeriod = false) (hrepeated : n.tnIsRepeated = true) (hnum : 1 ≤ n.tnRepeatedNum)
    (hcancel : .cancelled n.tnId ∉ s.log) (hd : s.Dropped n.tnCallback) :
    (s.pops n.tnCallback : Int) = n.tnRepeatedNum + 1 := by
  have hfate := (repetition_of_reachable h).fate n hadded hperiod hrepeated (by omega) hcancel
  cases hfate with
  | waiting m hm hr =>
      have hin : m.key ∈ s.live := List.mem_append_left _ (List.mem_map_of_mem hm)
      exact absurd (congrArg Prod.fst hr.key) (hd m.key hin)
  | inHand m hm hr =>
      have hin : m.key ∈ s.live := List.mem_append_right _ (by rw [hm]; exact List.mem_cons_self)
      exact absurd (congrArg Prod.fst hr.key) (hd m.key hin)
  | gone _ he => exact he

/-- One node in the queue, and nothing is cancelled. -/
structure Alone (s : Timer) (m n : TimerNode) : Prop where
  reachable : Reachable start step always s
  tick : s.tick = .testing
  runing : s.tmRuning = true
  queue : s.tmQueue = [m]
  exist : s.tmIdStateMap.exist m.tnId = true
  added : .added n ∈ s.log
  uncancelled : ∀ id, .cancelled id ∉ s.log
  repeats : Repeats m n

theorem due_in_time (n : TimerNode) (now : Int) : ∃ delay : Nat, early n (now + delay) = false := by
  refine ⟨(n.tnTmPoint - now).toNat, ?_⟩
  have hlate : 0 ≤ now + (n.tnTmPoint - now).toNat - n.tnTmPoint := by omega
  have hquot := Int.tdiv_nonneg hlate (Int.natCast_nonneg 1000000)
  rw [early, ← Int.neg_sub, Int.neg_tdiv]
  simpa using hquot

/-- The round in which the node is popped and passes the check. -/
theorem Alone.round (h : Alone s m n) :
    ∃ u, Reachable start step always u ∧ u.tick = .checked m ∧ u.tmRuning = true ∧
      u.tmQueue = [] ∧ u.tmIdStateMap = s.tmIdStateMap ∧ u.log = s.log ++ [.popped m] ++ [.passed m] := by
  obtain ⟨hr, htick, hrun, hq, hexist, -, -, -⟩ := h
  obtain ⟨delay, hdue⟩ := due_in_time m s.now
  let s₁ : Timer := { s with now := s.now + delay }
  let s₂ : Timer := { s₁ with tick := .locking }
  have h₁ : step (.clock delay) s = some s₁ := rfl
  have h₂ : step (.runLocal 0) s₁ = some s₂ := by
    simp [step, runLocal, s₁, s₂, htick, hrun]
  have h₃ : step (.runLocal 0) s₂ = some (s₂.pop m) := by
    simp [step, runLocal, s₁, s₂, hq, IsTop, hdue]
  have h₄ : step (.runLocal 0) (s₂.pop m) = some ((s₂.pop m).pass m) := by
    simp [step, runLocal, pop, s₁, s₂, hexist]
  refine ⟨_, .next _ (.next _ (.next _ (.next _ hr trivial h₁) trivial h₂) trivial h₃) trivial h₄, rfl, hrun,
    ?_, rfl, rfl⟩
  simp [pass, pop, s₁, s₂, hq]

theorem Alone.again (h : Alone s m n) (hpos : 0 < m.tnRepeatedNum) :
    ∃ t x, Alone t x n ∧ x.tnRepeatedNum = m.tnRepeatedNum - 1 := by
  obtain ⟨u, hr, htick, hrun, hq, hmap, hlog⟩ := h.round
  obtain ⟨x, hagain⟩ : ∃ x, Timer.again m u.now = some x := by
    rw [Timer.again, if_neg (by simp [h.repeats.period]), if_pos ⟨h.repeats.repeated, hpos⟩]
    exact ⟨_, rfl⟩
  obtain ⟨hrep, hnum⟩ := h.repeats.goesBack hagain
  have hs : step (.runLocal 0) u = some (u.requeue x) := by
    simp only [step, runLocal, htick, hagain]
  refine ⟨_, x, ⟨.next _ hr trivial hs, rfl, hrun, ?_, ?_, ?_, ?_, hrep⟩, hnum⟩
  · rw [requeue, hq]
    rfl
  · have hid : x.tnId = m.tnId := congrArg Prod.snd (again_key hagain)
    rw [requeue, hmap, hid]
    exact h.exist
  · simp [requeue, hlog, h.added]
  · simp [requeue, hlog, h.uncancelled]

theorem Alone.last (h : Alone s m n) (hzero : m.tnRepeatedNum = 0) :
    ∃ t, Reachable start step always t ∧ .added n ∈ t.log ∧ (∀ id, .cancelled id ∉ t.log) ∧ t.live = [] := by
  obtain ⟨u, hr, htick, hrun, hq, hmap, hlog⟩ := h.round
  have hagain : Timer.again m u.now = none := by
    rw [Timer.again, if_neg (by simp [h.repeats.period]), if_neg (by simp [hzero])]
  have hs : step (.runLocal 0) u = some { u with tick := .testing } := by
    simp only [step, runLocal, htick, hagain]
  refine ⟨_, .next _ hr trivial hs, ?_, ?_, ?_⟩
  · simp [hlog, h.added]
  · simp [hlog, h.uncancelled]
  · rw [live, hq]
    rfl

theorem Alone.drops {k : Nat} (h : Alone s m n) (hk : m.tnRepeatedNum = k) :
    ∃ t, Reachable start step always t ∧ .added n ∈ t.log ∧ (∀ id, .cancelled id ∉ t.log) ∧ t.live = [] := by
  induction k generalizing s m with
  | zero => exact h.last hk
  | succ k ih =>
      obtain ⟨t, x, ht, hx⟩ := h.again (by omega)
      apply ih ht
      omega

theorem alone_run_repeated (msTime repeatedNum : Int) (hnum : 0 ≤ repeatedNum) :
    ∃ s n, Alone s n n ∧ n.tnRepeatedNum = repeatedNum ∧ n.tnPeriod = msTime * 1000 := by
  let n : TimerNode := ⟨0 + msTime * 1000, 0, 0, repeatedNum, false, true, msTime * 1000⟩
  let s := (({ init 1 with tick := .testing }.runRepeated 0 msTime repeatedNum false).enter 0
    { n with tnTmPoint := 0 }).build 0 { n with tnTmPoint := 0 }
  have hrun : run step [.run, .runRepeated 0 msTime repeatedNum false, .advance 0, .advance 0, .advance 0]
      (init 1) = some (s.push 0 n) := rfl
  have hr : Reachable start step always (s.push 0 n) := by
    apply Reachable.run (.start ⟨1, rfl⟩) _
    rw [guarded_always]
    exact hrun
  refine ⟨s.push 0 n, n, ⟨hr, rfl, rfl, rfl, rfl, ?_, ?_, ⟨rfl, rfl, rfl, hnum⟩⟩, rfl, rfl⟩
  · exact List.mem_append_right _ List.mem_cons_self
  · simp [push, s, build, enter, runRepeated, number, init]

/-- A task that is to be repeated n times is popped as due n + 1 times before it is
dropped, and it can come to that: for no n it fires as often as asked. -/
theorem fires_once_more (msTime repeatedNum : Int) (hnum : 1 ≤ repeatedNum) :
    ¬ FiresAsOften msTime repeatedNum ∧
      ∀ s, Reachable start step always s → ∀ n, .added n ∈ s.log → n.tnIsPeriod = false → n.tnIsRepeated = true →
        n.tnRepeatedNum = repeatedNum → .cancelled n.tnId ∉ s.log → s.Dropped n.tnCallback →
        (s.pops n.tnCallback : Int) = repeatedNum + 1 := by
  refine ⟨fun hoften => ?_, ?_⟩
  · obtain ⟨s, n, halone, hn, hperiod⟩ := alone_run_repeated msTime repeatedNum (by omega)
    obtain ⟨t, ht, hadded, hcancel, hlive⟩ := halone.drops (k := repeatedNum.toNat) (by omega)
    have hd : t.Dropped n.tnCallback := by
      intro p hp
      rw [hlive] at hp
      cases hp
    have hpops := hoften t ht n hadded halone.repeats.period halone.repeats.repeated hn hperiod (hcancel _) hd
    have hmore := pops_of_dropped ht hadded halone.repeats.period halone.repeats.repeated (by omega) (hcancel _) hd
    omega
  · rintro s hs n hadded hperiod hrepeated rfl hcancel hd
    exact pops_of_dropped hs hadded hperiod hrepeated hnum hcancel hd

def onceRepeated : List Act :=
  [.run, .runRepeated 0 0 1 false, .advance 0, .advance 0, .advance 0] ++ List.replicate 8 (.runLocal 0)

theorem fires_once_more_default :
    ∃ s, Reachable start step always s ∧ s.live = [] ∧ (s.pops 0 : Int) = 1 + 1 := by
  have hrun : (run (guarded step always) onceRepeated (init 1)).map (fun s => (s.live, s.log)) =
      some ([], [.entered 0, .added ⟨0, 0, 0, 1, false, true, 0⟩, .popped ⟨0, 0, 0, 1, false, true, 0⟩,
        .passed ⟨0, 0, 0, 1, false, true, 0⟩, .requeued ⟨0, 0, 0, 0, false, true, 0⟩,
        .popped ⟨0, 0, 0, 0, false, true, 0⟩, .passed ⟨0, 0, 0, 0, false, true, 0⟩]) := by decide +kernel
  obtain ⟨s, hr, he⟩ := reachable_of_run start hrun ⟨1, rfl⟩
  simp only [Prod.mk.injEq] at he
  have hmore := (fires_once_more 0 1 (by decide)).2 s hr ⟨0, 0, 0, 1, false, true, 0⟩ (by simp [he.2]) rfl rfl rfl
    (by simp [he.2]) (by simp [Dropped, he.1])
  exact ⟨s, hr, he.1, hmore⟩

/-- The one-shot task is popped twice. -/
theorem one_shot_fires_twice : ¬ FiresAsOften 0 1 := by
  intro h
  have hrun : (run (guarded step always) onceRepeated (init 1)).map (fun s => (s.live, s.log.take 2, s.pops 0)) =
      some ([], [.entered 0, .added ⟨0, 0, 0, 1, false, true, 0⟩], 2) := by decide +kernel
  have hcancel : (run (guarded step always) onceRepeated (init 1)).map (fun s => decide (.cancelled 0 ∈ s.log)) =
      some false := by decide +kernel
  obtain ⟨s, hs, he⟩ := Option.map_eq_some_iff.mp hrun
  rw [hs, Option.map_some, Option.some_inj, decide_eq_false_iff_not] at hcancel
  simp only [Prod.mk.injEq] at he
  obtain ⟨hlive, hlog, htwice⟩ := he
  have hadded : .added ⟨0, 0, 0, 1, false, true, 0⟩ ∈ s.log := List.mem_of_mem_take (by rw [hlog]; simp)
  have honce := h s (Reachable.run (.start ⟨1, rfl⟩) _ hs) _ hadded
    rfl rfl rfl rfl hcancel (by simp [Dropped, hlive])
  rw [htwice] at honce
  cases honce

end Timer

end LearnNote.Timing
