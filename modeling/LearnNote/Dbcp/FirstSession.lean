import LearnNote.Dbcp.Accounting

namespace LearnNote.Dbcp

open Lib.Transition

namespace ConnectionPool

variable {s t : ConnectionPool}

/-- The loop of start is over. -/
structure Running (s : ConnectionPool) : Prop where
  starts : s.starts = 1
  owners : ∀ o ∈ s.owners, (∀ n, o ≠ .adding n) ∧ o ≠ .closing
  min : (s.minSize : Int) ≤ s.connectionCount
  max : s.connectionCount ≤ (max s.minSize s.maxSize : Nat)

/-- How far the first session is: before start, in its loop, or after the loop. -/
inductive Phase (s : ConnectionPool) : Prop
  | before (hstarts : s.starts = 0) (howners : ∀ o ∈ s.owners, o = .idle) (hcount : s.connectionCount = 0)
      (hproducers : s.producers = []) (hscanners : s.scanners = [])
  | adding (hstarts : s.starts = 1) (i n : Nat) (howner : s.owners[i]? = some (.adding n))
      (hothers : ∀ j o, s.owners[j]? = some o → j ≠ i → o = .idle) (hle : n ≤ s.minSize)
      (hcount : s.connectionCount = n) (hproducers : s.producers = []) (hscanners : s.scanners = [])
  | running (h : Running s)

/-- The pool up to the first close. -/
structure First (s : ConnectionPool) : Prop where
  open_ : s.exit = false
  whole : Whole s
  accounted : Accounted s
  phase : Phase s

theorem Phase.frame (h : Phase s) (hstarts : t.starts = s.starts) (howners : t.owners = s.owners)
    (hcount : t.connectionCount = s.connectionCount) (hproducers : t.producers = s.producers)
    (hscanners : t.scanners = s.scanners) (hmin : t.minSize = s.minSize) (hmax : t.maxSize = s.maxSize) : Phase t := by
  cases h with
  | before h1 h2 h3 h4 h5 =>
      exact .before (hstarts.trans h1) (by rwa [howners]) (hcount.trans h3) (hproducers.trans h4) (hscanners.trans h5)
  | adding h1 i n h2 h3 h4 h5 h6 h7 =>
      exact .adding (hstarts.trans h1) i n (by rwa [howners]) (by rwa [howners]) (by rwa [hmin]) (hcount.trans h5)
        (hproducers.trans h6) (hscanners.trans h7)
  | running h =>
      obtain ⟨h1, h2, h3, h4⟩ := h
      exact .running ⟨hstarts.trans h1, by rwa [howners], by rwa [hmin, hcount], by rwa [hmin, hmax, hcount]⟩

theorem not_closing (h : Phase s) {i : Nat} : s.owners[i]? ≠ some .closing := by
  intro hi
  cases h with
  | before _ howners => cases howners _ (List.mem_of_getElem? hi)
  | adding _ j n howner hothers =>
      by_cases hj : i = j
      · rw [hj, howner] at hi
        cases hi
      · cases hothers i _ hi hj
  | running h => exact (h.owners _ (List.mem_of_getElem? hi)).2 rfl

theorem running_of_producer (h : Phase s) {i : Nat} {b : Bool} (hi : s.producers[i]? = some b) : Running s := by
  cases h with
  | before _ _ _ hp =>
      rw [hp] at hi
      cases hi
  | adding _ _ _ _ _ _ _ hp =>
      rw [hp] at hi
      cases hi
  | running h => exact h

theorem running_of_scanner (h : Phase s) {i : Nat} {b : Bool} (hi : s.scanners[i]? = some b) : Running s := by
  cases h with
  | before _ _ _ _ hp =>
      rw [hp] at hi
      cases hi
  | adding _ _ _ _ _ _ _ _ hp =>
      rw [hp] at hi
      cases hi
  | running h => exact h

theorem Running.produce (h : Running s) (ha : Accounted s) (hmax : s.connectionCount ≠ intMax)
    (hlt : asSize s.connectionCount < s.maxSize) (connected : Bool) :
    Running (s.addConnection connected).notifyAll := by
  obtain ⟨h1, h2, h3, h4⟩ := h
  have hinc : (s.addConnection connected).connectionCount = s.connectionCount + 1 := increment_of_ne hmax
  have hsize := asSize_of_nonneg ha.nonneg
  refine ⟨h1, h2, ?_, ?_⟩
  · apply h3.trans
    simp only [notifyAll]
    rw [hinc]
    omega
  · have hle : s.connectionCount + 1 ≤ (Max.max s.minSize s.maxSize : Nat) := by omega
    exact hinc.le.trans hle

theorem Running.evict (h : Running s) (ha : Accounted s) (hmany : s.tooMany = true) (c : Nat) :
    Running (s.evict c) := by
  obtain ⟨h1, h2, h3, h4⟩ := h
  have hsize := asSize_of_nonneg ha.nonneg
  have hlt : s.minSize < asSize s.connectionCount := by simpa [tooMany] using hmany
  have hdec : (s.evict c).connectionCount = s.connectionCount - 1 := decrement_of_pos (by omega)
  refine ⟨h1, h2, ?_, ?_⟩
  · have hmin : (s.minSize : Int) ≤ s.connectionCount - 1 := by omega
    exact hmin.trans hdec.ge
  · have hmax : s.connectionCount - 1 ≤ (Max.max s.minSize s.maxSize : Nat) := by omega
    exact hdec.le.trans hmax

theorem Phase.start (h : Phase s) (hstarts : s.starts = 0) {i : Nat} (hi : s.owners[i]? = some .idle)
    (ht : t.starts = 1) (howners : t.owners = s.owners.set i (.adding 0))
    (hcount : t.connectionCount = s.connectionCount) (hproducers : t.producers = s.producers)
    (hscanners : t.scanners = s.scanners) : Phase t := by
  cases h with
  | before _ h2 h3 h4 h5 =>
      refine .adding ht i 0 ?_ ?_ (Nat.zero_le _) (hcount.trans h3) (hproducers.trans h4) (hscanners.trans h5)
      · rw [howners, List.getElem?_set_self (List.getElem?_eq_some_iff.mp hi).1]
      · intro j o hj hne
        rw [howners, List.getElem?_set_ne (Ne.symm hne)] at hj
        exact h2 o (List.mem_of_getElem? hj)
  | adding h1 => exact absurd (hstarts.symm.trans h1) Nat.zero_ne_one
  | running h => exact absurd (hstarts.symm.trans h.starts) Nat.zero_ne_one

theorem adding_of_owner (h : Phase s) {i n : Nat} (hi : s.owners[i]? = some (.adding n)) :
    s.starts = 1 ∧ (∀ j o, s.owners[j]? = some o → j ≠ i → o = .idle) ∧ n ≤ s.minSize ∧ s.connectionCount = n ∧
      s.producers = [] ∧ s.scanners = [] := by
  cases h with
  | before _ h2 => cases h2 _ (List.mem_of_getElem? hi)
  | adding h1 j m h2 h3 h4 h5 h6 h7 =>
      have hij : i = j := by_contra (fun hne => by cases h3 i _ hi hne)
      subst hij
      obtain rfl : n = m := by
        rw [hi] at h2
        cases h2
        rfl
      exact ⟨h1, h3, h4, h5, h6, h7⟩
  | running h => exact absurd rfl ((h.owners _ (List.mem_of_getElem? hi)).1 n)

theorem Phase.add (h : Phase s) {i n : Nat} (hi : s.owners[i]? = some (.adding n)) (hlt : n < s.minSize)
    (hmax : s.connectionCount ≠ intMax) (connected : Bool) :
    Phase { s.addConnection connected with owners := s.owners.set i (.adding (n + 1)) } := by
  obtain ⟨h1, h3, -, h5, h6, h7⟩ := adding_of_owner h hi
  refine .adding h1 i (n + 1) ?_ ?_ hlt ?_ h6 h7
  · exact List.getElem?_set_self (List.getElem?_eq_some_iff.mp hi).1
  · intro k o hk hne
    rw [List.getElem?_set_ne (Ne.symm hne)] at hk
    exact h3 k o hk hne
  · have hinc : (s.addConnection connected).connectionCount = s.connectionCount + 1 := increment_of_ne hmax
    apply hinc.trans
    rw [h5]
    rfl

theorem Phase.added (h : Phase s) {i n : Nat} (hi : s.owners[i]? = some (.adding n)) (hnot : ¬ n < s.minSize) :
    Phase { s with owners := s.owners.set i .launchProducer } := by
  obtain ⟨h1, h3, h4, h5, -, -⟩ := adding_of_owner h hi
  refine .running ⟨h1, ?_, ?_, ?_⟩
  · intro o ho
    obtain ⟨k, hk⟩ := List.mem_iff_getElem?.mp ho
    by_cases hki : k = i
    · rw [hki, List.getElem?_set_self (List.getElem?_eq_some_iff.mp hi).1] at hk
      cases hk
      simp
    · rw [List.getElem?_set_ne (Ne.symm hki)] at hk
      rw [h3 k o hk hki]
      simp
  · have hmin : (s.minSize : Int) ≤ s.connectionCount := by omega
    exact hmin
  · have hmax : s.connectionCount ≤ (max s.minSize s.maxSize : Nat) := by omega
    exact hmax

theorem Phase.later (h : Phase s) {i : Nat} {o p : Owner} (hi : s.owners[i]? = some o) (ho : ∀ n, o ≠ .adding n)
    (hidle : o ≠ .idle) (hp : ∀ n, p ≠ .adding n) (hclosing : p ≠ .closing) (hstarts : t.starts = s.starts)
    (howners : t.owners = s.owners.set i p) (hcount : t.connectionCount = s.connectionCount)
    (hmin : t.minSize = s.minSize) (hmax : t.maxSize = s.maxSize) : Phase t := by
  cases h with
  | before _ h2 => exact absurd (h2 _ (List.mem_of_getElem? hi)) hidle
  | adding _ j m h2 h3 =>
      by_cases hij : i = j
      · rw [hij, h2] at hi
        cases hi
        exact absurd rfl (ho m)
      · exact absurd (h3 i o hi hij) hidle
  | running h =>
      obtain ⟨h1, h2, h3, h4⟩ := h
      refine .running ⟨hstarts.trans h1, ?_, by rwa [hmin, hcount], by rwa [hmin, hmax, hcount]⟩
      intro x hx
      rw [howners] at hx
      rcases List.mem_or_eq_of_mem_set hx with hx | rfl
      · exact h2 x hx
      · exact ⟨hp, hclosing⟩

theorem Phase.move {a : Act} (h : First s) (hf : Fed a s) (hw : NoWrap a s) (hm : Moves s a t)
    (hstarts : t.starts ≤ 1) (hcloses : t.closes = 0) : Phase t := by
  have hp := h.phase
  cases hm with
  | start i minSize maxSize maxIdleTime hi =>
      have hzero : s.starts = 0 := Nat.eq_zero_of_le_zero (Nat.le_of_succ_le_succ hstarts)
      exact hp.start hzero hi (congrArg Nat.succ hzero) rfl rfl rfl rfl
  | add i n connected hi hlt => exact hp.add hi hlt (hw (adds_advance hi hlt connected)) connected
  | added i n connected hi hnot => exact hp.added hi hnot
  | launchProducer i connected hi =>
      exact hp.later (p := .launchScanner) hi (by simp) (by simp) (by simp) (by simp) rfl rfl rfl rfl rfl
  | launchScanner i connected hi =>
      exact hp.later (p := .opening) hi (by simp) (by simp) (by simp) (by simp) rfl rfl rfl rfl rfl
  | reopen i connected hi =>
      exact hp.later (p := .notifying) hi (by simp) (by simp) (by simp) (by simp) rfl rfl rfl rfl rfl
  | started i connected hi =>
      exact hp.later (p := .idle) hi (by simp) (by simp) (by simp) (by simp) rfl rfl rfl rfl rfl
  | close => cases hcloses
  | drain i connected hi => exact absurd hi (not_closing hp)
  | leaveProducer i connected hi =>
      obtain ⟨h1, h2, h3, h4⟩ := running_of_producer hp hi
      exact .running ⟨h1, h2, h3, h4⟩
  | produce i connected hi hopen hq hlt =>
      exact .running ((running_of_producer hp hi).produce h.accounted (hw ⟨hi, hopen, hq, hlt⟩) hlt connected)
  | leaveScanner i ready delays stale hi =>
      obtain ⟨h1, h2, h3, h4⟩ := running_of_scanner hp hi
      exact .running ⟨h1, h2, h3, h4⟩
  | scan i delays stale t hi hopen hloop =>
      have hkeep : Accounted t ∧ Running t := by
        apply evictLoop_keeps (P := fun u => Accounted u ∧ Running u) ?_ ?_ _ _ rfl
          ⟨h.accounted, running_of_scanner hp hi⟩ (hf hi hopen) hloop
        · exact fun _ _ hu => ⟨hu.1, hu.2.starts, hu.2.owners, hu.2.min, hu.2.max⟩
        · exact fun c _ u hu hq hmany => ⟨hu.1.evict hq, hu.2.evict hu.1 hmany c⟩
      exact .running hkeep.2
  | _ => exact hp.frame rfl rfl rfl rfl rfl rfl rfl

theorem spared_of_first (h : First s) (a : Act) : Spared a s := by
  cases a with
  | advance i connected => exact fun hi => absurd hi (not_closing h.phase)
  | release c => exact fun _ => h.open_
  | _ => trivial

theorem move_first {a : Act} (h : s.starts ≤ 1 → s.closes = 0 → First s) (hf : Fed a s) (hw : NoWrap a s)
    (hm : Moves s a t) (hstarts : t.starts ≤ 1) (hcloses : t.closes = 0) : First t := by
  have hbefore : First s ∧ t.exit = false := by
    cases hm with
    | start =>
        have hfirst := h (Nat.le_of_succ_le hstarts) hcloses
        exact ⟨hfirst, hfirst.open_⟩
    | close => cases hcloses
    | reopen => exact ⟨h hstarts hcloses, rfl⟩
    | scan i delays stale t hi hopen hloop =>
        obtain ⟨h1, h2, h3⟩ : t.starts = s.starts ∧ t.closes = s.closes ∧ t.exit = s.exit :=
          evictLoop_keeps_stale (P := fun u => u.starts = s.starts ∧ u.closes = s.closes ∧ u.exit = s.exit)
            (fun _ _ h => h) (fun _ _ h => h) _ _ ⟨rfl, rfl, rfl⟩ hloop
        exact ⟨h (h1 ▸ hstarts) (h2 ▸ hcloses), h3.trans hopen⟩
    | _ => exact ⟨h hstarts hcloses, (h hstarts hcloses).open_⟩
  obtain ⟨hfirst, hopen⟩ := hbefore
  exact ⟨hopen, hfirst.whole.move hf hm, hfirst.accounted.move hf hw (spared_of_first hfirst a) hm,
    Phase.move hfirst hf hw hm hstarts hcloses⟩

/-- Between the return of the first start and the first close the counter counts the
queue and the leases, which share no connection, and stays within its bounds. -/
theorem first_session_accounted (s : ConnectionPool)
    (h : Reachable start step (fun a s => Fed a s ∧ NoWrap a s) s) (hstarts : s.starts = 1) (hcloses : s.closes = 0)
    (hreturned : ∀ o ∈ s.owners, o = .idle) :
    s.connectionCount = s.connectionQueue.length + s.leased.length ∧ (s.connectionQueue ++ s.leased).Nodup ∧
      (s.minSize : Int) ≤ s.connectionCount ∧ s.connectionCount ≤ (max s.minSize s.maxSize : Nat) := by
  have hi : s.starts ≤ 1 → s.closes = 0 → First s := by
    apply h.invariant (I := fun s => s.starts ≤ 1 → s.closes = 0 → First s) ?_
      (fun _ _ _ hi hc hs hstarts hcloses => move_first hi hc.1 hc.2 (moves_of_step hs) hstarts hcloses)
    rintro _ ⟨owners, clients, rfl⟩ - -
    exact ⟨rfl, .nil, rfl, .before rfl (fun _ ho => List.eq_of_mem_replicate ho) rfl rfl rfl⟩
  have hfirst := hi hstarts.le hcloses
  refine ⟨hfirst.accounted, (List.nodup_append.mp hfirst.whole.nodup).1, ?_⟩
  cases hfirst.phase with
  | before hzero => exact absurd (hzero.symm.trans hstarts) Nat.zero_ne_one
  | adding _ i n howner =>
      have hidle := hreturned _ (List.mem_of_getElem? howner)
      cases hidle
  | running hrun => exact ⟨hrun.min, hrun.max⟩

theorem first_session_accounted_lease :
    ∃ s, Reachable start step (fun a s => Fed a s ∧ NoWrap a s) s ∧ s.leased = [0] ∧ s.connectionQueue = [1] ∧
      s.connectionCount = s.connectionQueue.length + s.leased.length := by
  have hrun : (run (guarded step (fun a s => Fed a s ∧ NoWrap a s)) (starting 0 1 2 0 ++ [.call 0, .getConnection 0,
      .produce 0 true]) (init 1 1)).map
      (fun s => (s.leased, s.connectionQueue, s.starts, s.closes, s.owners)) = some ([0], [1], 1, 0, [.idle]) := by
    decide +kernel
  obtain ⟨s, hr, he⟩ := reachable_of_run start hrun ⟨1, 1, rfl⟩
  simp only [Prod.mk.injEq] at he
  obtain ⟨hleased, hq, hstarts, hcloses, howners⟩ := he
  exact ⟨s, hr, hleased, hq, (first_session_accounted s hr hstarts hcloses (by rw [howners]; simp)).1⟩

/-- All connections are leased and more than minSize_ exist: the scanner looks at the
front of the empty queue, and happens to read the pointer of a leased connection. -/
theorem stale_front_deletes_lease :
    ¬ ∀ s, Reachable start step always s → s.starts = 1 → s.closes = 0 → (∀ o ∈ s.owners, o = .idle) →
      s.connectionCount = s.connectionQueue.length + s.leased.length := by
  intro h
  have hrun : (run (guarded step always) (starting 0 1 2 0 ++ [.call 0, .getConnection 0, .produce 0 true, .call 0,
      .getConnection 0, .scan 0 true [] [0]]) (init 1 1)).map
      (fun s => (s.starts, s.closes, s.owners, s.connectionCount, s.connectionQueue.length + s.leased.length)) =
      some (1, 0, [.idle], 1, 2) := by decide +kernel
  obtain ⟨s, hr, he⟩ := reachable_of_run start hrun ⟨1, 1, rfl⟩
  simp only [Prod.mk.injEq] at he
  obtain ⟨hstarts, hcloses, howners, hcount, hlength⟩ := he
  have hacc := h s hr hstarts hcloses (by rw [howners]; simp)
  rw [hcount] at hacc
  omega

end ConnectionPool

end LearnNote.Dbcp
