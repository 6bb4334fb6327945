import Mathlib.Data.List.Perm.Basic
import LearnNote.Lib.Transition
import LearnNote.Dbcp.Moves

namespace LearnNote.Dbcp

open Lib.Transition

namespace ConnectionPool

variable {s t : ConnectionPool}

def Whole (s : ConnectionPool) : Prop :=
  (s.connectionQueue ++ s.leased ++ s.deleted).Perm (List.range s.created)

def Accounted (s : ConnectionPool) : Prop :=
  s.connectionCount = s.connectionQueue.length + s.leased.length

/-- A pass of the scanner that evicts the whole queue and looks for more. -/
def RunsDry : List Nat → List Nat → ConnectionPool → Prop
  | [], _, s => s.tooMany = true
  | c :: cs, delays, s =>
      s.tooMany = true ∧ (s.tick (delays.headD 0)).isIdle c = true ∧
        RunsDry cs delays.tail ((s.tick (delays.headD 0)).evict c)

instance decidableRunsDry : ∀ (q delays : List Nat) (s : ConnectionPool), Decidable (RunsDry q delays s)
  | [], _, s => inferInstanceAs (Decidable (s.tooMany = true))
  | c :: cs, delays, s =>
      have := decidableRunsDry cs delays.tail ((s.tick (delays.headD 0)).evict c)
      inferInstanceAs (Decidable (_ ∧ _ ∧ _))

theorem evictStale_of_few (stale : List Nat) (hfew : ¬ s.tooMany = true) : evictStale stale s = some s := by
  cases stale with
  | nil | cons c cs => rw [evictStale, if_neg hfew]

/-- What each look and each eviction keeps is kept by a pass that does not run dry. -/
theorem evictLoop_keeps {P : ConnectionPool → Prop} (htick : ∀ d s, P s → P (s.tick d))
    (hevict : ∀ c cs s, P s → s.connectionQueue = c :: cs → s.tooMany = true → P (s.evict c)) {stale : List Nat}
    (q delays : List Nat) (hq : s.connectionQueue = q) (h : P s) (hdry : ¬ RunsDry q delays s)
    (hs : evictLoop stale q delays s = some t) : P t := by
  induction q generalizing s delays with
  | nil =>
      rw [evictLoop, evictStale_of_few stale hdry] at hs
      cases hs
      exact h
  | cons c cs ih =>
      rw [evictLoop] at hs
      split at hs
      next hmany =>
        simp only at hs
        split at hs
        next hidle =>
          have hq' : ((s.tick (delays.headD 0)).evict c).connectionQueue = cs := by
            simp [evict, tick, hq]
          exact ih delays.tail hq' (hevict c cs _ (htick _ _ h) hq hmany) (fun hr => hdry ⟨hmany, hidle, hr⟩) hs
        next =>
          cases hs
          exact htick _ _ h
      next =>
        cases hs
        exact h

theorem evictLoop_keeps_stale {P : ConnectionPool → Prop} (htick : ∀ d s, P s → P (s.tick d))
    (hevict : ∀ c s, P s → P (s.evict c)) {stale : List Nat} (q delays : List Nat) (h : P s)
    (hs : evictLoop stale q delays s = some t) : P t := by
  induction q generalizing s delays with
  | nil =>
      rw [evictLoop] at hs
      induction stale generalizing s with
      | nil =>
          rw [evictStale] at hs
          split at hs
          · cases hs
          · cases hs
            exact h
      | cons c cs ih =>
          rw [evictStale] at hs
          split at hs
          · split at hs
            · exact ih (hevict c s h) hs
            · cases hs
              exact h
          · cases hs
            exact h
  | cons c cs ih =>
      rw [evictLoop] at hs
      split at hs
      · simp only at hs
        split at hs
        · exact ih delays.tail (hevict c _ (htick _ _ h)) hs
        · cases hs
          exact htick _ _ h
      · cases hs
        exact h

/-- No pass of the scanner runs dry. -/
def Fed : Act → ConnectionPool → Prop
  | .scan i true delays _, s => s.scanners[i]? = some true → s.exit = false → ¬ RunsDry s.connectionQueue delays s
  | _, _ => True

def Adds : Act → ConnectionPool → Prop
  | .advance i _, s =>
      match s.owners[i]? with
      | some (.adding n) => n < s.minSize
      | _ => False
  | .produce i _, s =>
      s.producers[i]? = some true ∧ s.exit = false ∧ s.connectionQueue = [] ∧ asSize s.connectionCount < s.maxSize
  | _, _ => False

/-- No connection is added when the counter is at its largest value. -/
def NoWrap (a : Act) (s : ConnectionPool) : Prop := Adds a s → s.connectionCount ≠ intMax

/-- No connection is deleted but by the scanner: a close finds the queue empty, and no
lease is released after one has begun. -/
def Spared : Act → ConnectionPool → Prop
  | .advance i _, s => s.owners[i]? = some .closing → s.connectionQueue = []
  | .release c, s => c ∈ s.leased → s.exit = false
  | _, _ => True

/-- The locked part of a close finds exit_ as the close has set it. -/
def StaysClosed : Act → ConnectionPool → Prop
  | .advance i _, s => s.owners[i]? = some .closing → s.exit = true
  | _, _ => True

instance (a : Act) (s : ConnectionPool) : Decidable (Fed a s) := by
  unfold Fed
  split <;> infer_instance

instance (a : Act) (s : ConnectionPool) : Decidable (Adds a s) := by
  unfold Adds
  split
  · split <;> infer_instance
  · infer_instance
  · infer_instance

instance (a : Act) (s : ConnectionPool) : Decidable (NoWrap a s) := inferInstanceAs (Decidable (_ → _))

instance (a : Act) (s : ConnectionPool) : Decidable (Spared a s) := by
  unfold Spared
  split <;> infer_instance

instance (a : Act) (s : ConnectionPool) : Decidable (StaysClosed a s) := by
  unfold StaysClosed
  split <;> infer_instance

theorem adds_advance {i n : Nat} (hi : s.owners[i]? = some (.adding n)) (hlt : n < s.minSize) (connected : Bool) :
    Adds (.advance i connected) s := by
  simpa [Adds, hi] using hlt

namespace Whole

theorem addConnection (h : Whole s) (connected : Bool) : Whole (s.addConnection connected) := by
  rw [Whole] at *
  have hr : List.range (s.created + 1) = List.range s.created ++ [s.created] := List.range_succ
  simp only [ConnectionPool.addConnection, push, hr]
  refine List.Perm.trans ?_ (h.append_right [s.created])
  simp only [List.append_assoc]
  exact (List.perm_append_comm.trans (by rw [List.append_assoc])).append_left _

theorem evict (h : Whole s) {c : Nat} {cs : List Nat} (hq : s.connectionQueue = c :: cs) : Whole (s.evict c) := by
  rw [Whole, hq] at h
  refine List.Perm.trans ?_ h
  simpa [ConnectionPool.evict, hq] using @List.perm_append_comm _ (cs ++ s.leased ++ s.deleted) [c]

theorem drain (h : Whole s) (i : Nat) : Whole (s.drain i) := by
  refine List.Perm.trans ?_ h
  simpa [ConnectionPool.drain, notifyAll] using @List.perm_append_comm _ (s.leased ++ s.deleted) s.connectionQueue

theorem lease (h : Whole s) {c : Nat} {cs : List Nat} (hq : s.connectionQueue = c :: cs) (clients : List Client) :
    Whole { s with
      connectionQueue := cs
      leased := s.leased ++ [c]
      clients := clients }.notifyAll := by
  rw [Whole, hq] at h
  refine List.Perm.trans ?_ h
  simpa [notifyAll] using @List.perm_middle _ c (cs ++ s.leased) s.deleted

theorem discard (h : Whole s) {c : Nat} (hc : c ∈ s.leased) :
    Whole { s with
      leased := s.leased.erase c
      deleted := s.deleted ++ [c] } := by
  have herase := (List.perm_cons_erase hc).symm
  have hmove : (s.leased.erase c ++ (s.deleted ++ [c])).Perm (c :: s.leased.erase c ++ s.deleted) := by
    simpa using @List.perm_append_comm _ (s.leased.erase c ++ s.deleted) [c]
  rw [Whole, List.append_assoc] at h ⊢
  exact ((hmove.trans (herase.append_right _)).append_left _).trans h

theorem giveBack (h : Whole s) {c : Nat} (hc : c ∈ s.leased) :
    Whole (({ s with leased := s.leased.erase c }.refreshAliveTime c).push c) := by
  have herase := (List.perm_cons_erase hc).symm
  refine List.Perm.trans ?_ h
  simpa [push, refreshAliveTime] using (herase.append_right s.deleted).append_left s.connectionQueue

theorem move {a : Act} (h : Whole s) (hf : Fed a s) (hm : Moves s a t) : Whole t := by
  cases hm with
  | add i n connected => exact h.addConnection connected
  | drain i connected => exact h.drain i
  | lease i timedOut c cs hi hq => exact h.lease hq _
  | discard c hc => exact h.discard hc
  | giveBack c hc => exact h.giveBack hc
  | produce i connected => exact h.addConnection connected
  | scan i delays stale t hi hopen hloop =>
      exact evictLoop_keeps (fun _ _ h => h) (fun _ _ _ h hq _ => h.evict hq) _ _ rfl h (hf hi hopen) hloop
  | _ => exact h

theorem nodup (h : Whole s) : (s.connectionQueue ++ s.leased ++ s.deleted).Nodup :=
  h.nodup_iff.mpr List.nodup_range

theorem length (h : Whole s) : s.connectionQueue.length + s.leased.length + s.deleted.length = s.created := by
  have hl := h.length_eq
  simpa [Nat.add_assoc] using hl

end Whole

theorem increment_of_ne {n : Int} (h : n ≠ intMax) : increment n = n + 1 := if_neg h

theorem decrement_of_pos {n : Int} (h : 0 < n) : decrement n = n - 1 := by
  apply if_neg
  rw [intMin]
  omega

theorem asSize_of_nonneg {n : Int} (h : 0 ≤ n) : (asSize n : Int) = n := by
  rw [asSize, if_pos h]
  exact Int.toNat_of_nonneg h

namespace Accounted

theorem nonneg (h : Accounted s) : 0 ≤ s.connectionCount := by
  rw [h]
  omega

theorem addConnection (h : Accounted s) (hmax : s.connectionCount ≠ intMax) (connected : Bool) :
    Accounted (s.addConnection connected) := by
  have hcount := increment_of_ne hmax
  simp only [Accounted, ConnectionPool.addConnection, push, List.length_append, List.length_singleton] at h ⊢
  rw [hcount, h]
  omega

theorem evict (h : Accounted s) {c : Nat} {cs : List Nat} (hq : s.connectionQueue = c :: cs) :
    Accounted (s.evict c) := by
  rw [Accounted, hq, List.length_cons] at h
  have hcount : decrement s.connectionCount = s.connectionCount - 1 := decrement_of_pos (by omega)
  simp only [Accounted, ConnectionPool.evict, hq, List.tail_cons]
  rw [hcount, h]
  omega

theorem lease (h : Accounted s) {c : Nat} {cs : List Nat} (hq : s.connectionQueue = c :: cs) (clients : List Client) :
    Accounted { s with
      connectionQueue := cs
      leased := s.leased ++ [c]
      clients := clients }.notifyAll := by
  simp only [Accounted, hq, notifyAll, List.length_cons, List.length_append, List.length_nil] at h ⊢
  omega

theorem giveBack (h : Accounted s) {c : Nat} (hc : c ∈ s.leased) :
    Accounted (({ s with leased := s.leased.erase c }.refreshAliveTime c).push c) := by
  have hlen := List.length_erase_of_mem hc
  have hpos := List.length_pos_of_mem hc
  simp only [Accounted, push, refreshAliveTime, List.length_append, List.length_singleton, hlen] at h ⊢
  omega

theorem drain (h : Accounted s) (hq : s.connectionQueue = []) (i : Nat) : Accounted (s.drain i) := by
  rw [Accounted, hq] at h
  exact h

theorem move {a : Act} (h : Accounted s) (hf : Fed a s) (hw : NoWrap a s) (hd : Spared a s) (hm : Moves s a t) :
    Accounted t := by
  cases hm with
  | add i n connected hi hlt => exact h.addConnection (hw (adds_advance hi hlt connected)) connected
  | drain i connected hi => exact h.drain (hd hi) i
  | lease i timedOut c cs hi hq => exact h.lease hq _
  | discard c hc hexit =>
      have hopen := hd hc
      rw [hexit] at hopen
      cases hopen
  | giveBack c hc => exact h.giveBack hc
  | produce i connected hi hopen hq hlt => exact h.addConnection (hw ⟨hi, hopen, hq, hlt⟩) connected
  | scan i delays stale t hi hopen hloop =>
      exact evictLoop_keeps (fun _ _ h => h) (fun _ _ _ h hq _ => h.evict hq) _ _ rfl h (hf hi hopen) hloop
  | _ => exact h

end Accounted

end ConnectionPool

end LearnNote.Dbcp
