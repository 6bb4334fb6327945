import LearnNote.Misc.SharedPtr

namespace LearnNote.Misc

open Lib.Transition

structure SafeSharedPtr extends SharedPtr where
  mtx : Option Nat
deriving DecidableEq

def SafeSharedPtr.null : SafeSharedPtr := ⟨.null, none⟩

/-- A counter and its mutex are created together and have one number. The fault is the use of
a mutex or a counter through a null pointer, or of a mutex after its deletion. -/
structure SafeHandles where
  handles : List (Option SafeSharedPtr)
  counts : List UInt32
  objects : List (Option Nat)
  deletedObjects : List Nat
  deletedCounts : List Nat
  deletedMutexes : List Nat
  fault : Bool

namespace SafeHandles

def handle (i : Nat) (s : SafeHandles) : Option SafeSharedPtr := s.handles[i]?.join

def store (i : Nat) (h : SafeSharedPtr) (s : SafeHandles) : SafeHandles :=
  { s with handles := s.handles.set i (some h) }

def push (h : SafeSharedPtr) (s : SafeHandles) : SafeHandles := { s with handles := s.handles ++ [some h] }

def construct (p : Option Nat) (count : UInt32) (s : SafeHandles) : SafeHandles :=
  { s with
    handles := s.handles ++ [some ⟨⟨p, some s.counts.length⟩, some s.counts.length⟩]
    counts := s.counts ++ [count]
    objects := s.objects ++ [p] }

/-- No result is a fault, here and below. -/
def lock (mtx : Option Nat) (s : SafeHandles) : Option SafeHandles :=
  mtx.bind fun m => if m ∈ s.deletedMutexes then none else some s

def increment (r : Option Nat) (s : SafeHandles) : Option SafeHandles :=
  r.map fun b => { s with counts := s.counts.modify b (· + 1) }

def decrement (b : Nat) (s : SafeHandles) : SafeHandles := { s with counts := s.counts.modify b (· - 1) }

def delete (h : SafeSharedPtr) (b : Nat) (s : SafeHandles) : SafeHandles :=
  { s with
    deletedObjects := h.mPtr.toList ++ s.deletedObjects
    deletedCounts := b :: s.deletedCounts
    deletedMutexes := h.mtx.toList ++ s.deletedMutexes }

/-- What release does under the lock; the mutex goes right after it. -/
def countDown (h : SafeSharedPtr) (s : SafeHandles) : SafeHandles :=
  match h.mRefCount with
  | none => s
  | some b => if (s.decrement b).counts[b]? = some 0 then (s.decrement b).delete h b else s.decrement b

def release (h : SafeSharedPtr) (s : SafeHandles) : Option SafeHandles := (s.lock h.mtx).map (countDown h)

def copyConstruct (other : SafeSharedPtr) (s : SafeHandles) : Option SafeHandles :=
  (s.lock other.mtx).bind fun s => (s.push other).increment other.mRefCount

def copyAssign (i : Nat) (this rhs : SafeSharedPtr) (s : SafeHandles) : Option SafeHandles :=
  (s.release this).bind fun s => (s.lock rhs.mtx).bind fun s => (s.store i rhs).increment rhs.mRefCount

def moveConstruct (j : Nat) (other : SafeSharedPtr) (s : SafeHandles) : Option SafeHandles :=
  (s.lock other.mtx).map fun s => (s.push other).store j .null

def moveAssign (i j : Nat) (this rhs : SafeSharedPtr) (s : SafeHandles) : Option SafeHandles :=
  (s.release this).bind fun s => (s.lock rhs.mtx).map fun s => (s.store i rhs).store j .null

def destroy (i : Nat) (this : SafeSharedPtr) (s : SafeHandles) : Option SafeHandles :=
  (s.release this).map fun s => { s with handles := s.handles.set i none }

inductive Act
  | default
  | construct (p : Option Nat)
  | copyConstruct (j : Nat)
  | copyAssign (i j : Nat)
  | moveConstruct (j : Nat)
  | moveAssign (i j : Nat)
  | destroy (i : Nat)

def complete (s : SafeHandles) (r : Option SafeHandles) : SafeHandles := r.getD { s with fault := true }

/-- An assignment is to the handle i from j. Nothing happens after a fault. -/
def step (a : Act) (s : SafeHandles) : Option SafeHandles :=
  if s.fault then none else
  match a with
  | .default => some (s.construct none 0)
  | .construct p => some (s.construct p 1)
  | .copyConstruct j => (s.handle j).map fun other => s.complete (s.copyConstruct other)
  | .copyAssign i j =>
      (s.handle i).bind fun this => (s.handle j).map fun rhs =>
        if i = j then s else s.complete (s.copyAssign i this rhs)
  | .moveConstruct j => (s.handle j).map fun other => s.complete (s.moveConstruct j other)
  | .moveAssign i j =>
      (s.handle i).bind fun this => (s.handle j).map fun rhs =>
        if i = j then s else s.complete (s.moveAssign i j this rhs)
  | .destroy i => (s.handle i).map fun this => s.complete (s.destroy i this)

def start (s : SafeHandles) : Prop := s = ⟨[], [], [], [], [], [], false⟩

def plain (s : SafeHandles) : Handles where
  handles := s.handles.map (·.map SafeSharedPtr.toSharedPtr)
  counts := s.counts
  objects := s.objects
  deletedObjects := s.deletedObjects
  deletedCounts := s.deletedCounts

/-- No null pointer was used, each count is the number of handles, and a block, its mutex and
its object have been deleted, once, when there is no handle left. -/
structure Exact (s : SafeHandles) : Prop where
  fault : s.fault = false
  plain : s.plain.Exact
  mutexes : ∀ b, b < s.counts.length → s.deletedMutexes.count b = if s.plain.owners b = 0 then 1 else 0

def Held (i : Nat) (s : SafeHandles) : Prop := s.plain.refersTo i ≠ none

/-- No default construction, and no use at all of a handle that was moved from. -/
def Counted : Act → SafeHandles → Prop
  | .default, _ => False
  | .construct p, s => ∀ q ∈ p, q ∉ s.deletedObjects
  | .copyConstruct j, s => Held j s ∧ s.plain.Room (s.plain.refersTo j)
  | .copyAssign i j, s => i = j ∨ Held i s ∧ Held j s ∧ s.plain.Sole i ∧
      (s.plain.refersTo i = s.plain.refersTo j ∨ s.plain.Room (s.plain.refersTo j))
  | .moveConstruct j, s => Held j s
  | .moveAssign i j, s => i = j ∨ Held i s ∧ Held j s ∧ s.plain.Sole i
  | .destroy i, s => Held i s ∧ s.plain.Sole i

instance (i : Nat) (s : SafeHandles) : Decidable (Held i s) := inferInstanceAs (Decidable (_ ≠ _))

instance : ∀ (a : Act) (s : SafeHandles), Decidable (Counted a s)
  | .default, _ => inferInstanceAs (Decidable False)
  | .construct _, _ => inferInstanceAs (Decidable (∀ _, _))
  | .copyConstruct _, _ | .destroy _, _ => inferInstanceAs (Decidable (_ ∧ _))
  | .copyAssign _ _, _ | .moveAssign _ _, _ => inferInstanceAs (Decidable (_ ∨ _))
  | .moveConstruct _, _ => inferInstanceAs (Decidable (Held _ _))

structure WellFormed (s : SafeHandles) : Prop where
  plain : s.plain.WellFormed
  paired : ∀ h, some h ∈ s.handles → h.mtx = h.mRefCount
  mutexes : s.deletedMutexes = s.deletedCounts

variable {s t : SafeHandles} {h this other rhs : SafeSharedPtr} {i j b : Nat} {r : Option SafeHandles}

theorem handle_eq_some : s.handle i = some h ↔ s.handles[i]? = some (some h) := Option.join_eq_some_iff

theorem plain_get (hi : s.handles[i]? = some (some h)) : s.plain.handles[i]? = some (some h.toSharedPtr) := by
  rw [plain, List.getElem?_map, hi]
  rfl

theorem plain_mem (hi : some h ∈ s.handles) : some h.toSharedPtr ∈ s.plain.handles :=
  List.mem_map.mpr ⟨some h, hi, rfl⟩

theorem plain_store (i : Nat) (h : SafeSharedPtr) (s : SafeHandles) :
    (s.store i h).plain = s.plain.store i h.toSharedPtr := by
  simp [plain, store, Handles.store, List.map_set]

theorem plain_push (h : SafeSharedPtr) (s : SafeHandles) : (s.push h).plain = s.plain.push h.toSharedPtr := by
  simp [plain, push, Handles.push]

theorem plain_construct (p : Option Nat) (s : SafeHandles) : (s.construct p 1).plain = s.plain.construct p := by
  simp [plain, construct, Handles.construct]

theorem plain_countDown (h : SafeSharedPtr) (s : SafeHandles) :
    (s.countDown h).plain = s.plain.release h.toSharedPtr := by
  unfold countDown Handles.release
  cases h.mRefCount with
  | none => rfl
  | some b =>
      dsimp only
      split
      · exact (if_pos ‹_›).symm
      · exact (if_neg ‹_›).symm

theorem WellFormed.points (hw : WellFormed s) (hi : some h ∈ s.handles) :
    Handles.Points s.objects h.toSharedPtr :=
  hw.plain.points _ (plain_mem hi)

theorem WellFormed.store (hw : WellFormed s) (hp : Handles.Points s.objects h.toSharedPtr)
    (hm : h.mtx = h.mRefCount) (i : Nat) : WellFormed (s.store i h) := by
  refine ⟨plain_store i h s ▸ hw.plain.store hp i, ?_, hw.mutexes⟩
  intro x hx
  rcases List.mem_or_eq_of_mem_set hx with hx | hx
  · exact hw.paired x hx
  · cases hx
    exact hm

theorem WellFormed.push (hw : WellFormed s) (hp : Handles.Points s.objects h.toSharedPtr)
    (hm : h.mtx = h.mRefCount) : WellFormed (s.push h) := by
  refine ⟨plain_push h s ▸ hw.plain.push hp, ?_, hw.mutexes⟩
  intro x hx
  rcases List.mem_append.mp hx with hx | hx
  · exact hw.paired x hx
  · cases List.mem_singleton.mp hx
    exact hm

theorem WellFormed.increment (hw : WellFormed s) {r : Option Nat} (ht : s.increment r = some t) : WellFormed t := by
  obtain ⟨b, rfl, rfl⟩ := Option.map_eq_some_iff.mp ht
  exact ⟨hw.plain.increment (some b), hw.paired, hw.mutexes⟩

theorem WellFormed.countDown (hw : WellFormed s) (hi : some h ∈ s.handles) : WellFormed (s.countDown h) := by
  have hplain : (s.countDown h).plain.WellFormed := plain_countDown h s ▸ hw.plain.release (hw.points hi)
  have hm := hw.paired h hi
  have hmutexes := hw.mutexes
  unfold SafeHandles.countDown at hplain ⊢
  cases hb : h.mRefCount with
  | none =>
      rw [hb] at hplain
      exact hw
  | some b =>
      rw [hb] at hplain hm
      dsimp only at hplain ⊢
      split at hplain
      · rw [if_pos ‹_›]
        refine ⟨hplain, hw.paired, ?_⟩
        simp [delete, decrement, hm, hmutexes]
      · rw [if_neg ‹_›]
        exact ⟨hplain, hw.paired, hmutexes⟩

theorem countDown_handles (h : SafeSharedPtr) (s : SafeHandles) : (s.countDown h).handles = s.handles := by
  unfold countDown
  split
  · rfl
  · split <;> rfl

theorem countDown_objects (h : SafeSharedPtr) (s : SafeHandles) : (s.countDown h).objects = s.objects :=
  (congrArg Handles.objects (plain_countDown h s)).trans (Handles.release_keeps h.toSharedPtr s.plain).1

theorem countDown_fault (h : SafeSharedPtr) (s : SafeHandles) : (s.countDown h).fault = s.fault := by
  unfold countDown
  split
  · rfl
  · split <;> rfl

theorem lock_eq_some {mtx : Option Nat} (hl : s.lock mtx = some t) : t = s := by
  obtain ⟨m, -, hl⟩ := Option.bind_eq_some_iff.mp hl
  exact (Option.some.inj (Option.ite_none_left_eq_some.mp hl).2).symm

theorem WellFormed.release (hw : WellFormed s) (hi : some h ∈ s.handles) (ht : s.release h = some t) :
    WellFormed t ∧ t.handles = s.handles ∧ t.objects = s.objects := by
  obtain ⟨u, hu, rfl⟩ := Option.map_eq_some_iff.mp ht
  cases lock_eq_some hu
  exact ⟨hw.countDown hi, countDown_handles h s, countDown_objects h s⟩

theorem WellFormed.complete (hw : WellFormed s) (hr : ∀ t, r = some t → WellFormed t) :
    WellFormed (s.complete r) := by
  cases r with
  | none => exact ⟨hw.plain, hw.paired, hw.mutexes⟩
  | some t => exact hr t rfl

theorem WellFormed.construct (hw : WellFormed s) (p : Option Nat) : WellFormed (s.construct p 1) := by
  refine ⟨plain_construct p s ▸ hw.plain.construct p, ?_, hw.mutexes⟩
  intro x hx
  rcases List.mem_append.mp hx with hx | hx
  · exact hw.paired x hx
  · cases List.mem_singleton.mp hx
    rfl

theorem WellFormed.copyConstruct (hw : WellFormed s) (hj : some other ∈ s.handles)
    (ht : s.copyConstruct other = some t) : WellFormed t := by
  obtain ⟨u, hu, ht⟩ := Option.bind_eq_some_iff.mp ht
  cases lock_eq_some hu
  exact (hw.push (hw.points hj) (hw.paired other hj)).increment ht

theorem WellFormed.copyAssign (hw : WellFormed s) (hi : some this ∈ s.handles) (hj : some rhs ∈ s.handles)
    (ht : s.copyAssign i this rhs = some t) : WellFormed t := by
  obtain ⟨u, hu, ht⟩ := Option.bind_eq_some_iff.mp ht
  obtain ⟨v, hv, ht⟩ := Option.bind_eq_some_iff.mp ht
  obtain ⟨hwu, -, hobjects⟩ := hw.release hi hu
  cases lock_eq_some hv
  exact (hwu.store (hobjects ▸ hw.points hj) (hw.paired rhs hj) i).increment ht

theorem WellFormed.moveConstruct (hw : WellFormed s) (hj : some other ∈ s.handles)
    (ht : s.moveConstruct j other = some t) : WellFormed t := by
  obtain ⟨u, hu, rfl⟩ := Option.map_eq_some_iff.mp ht
  cases lock_eq_some hu
  exact (hw.push (hw.points hj) (hw.paired other hj)).store (.inl rfl) rfl j

theorem WellFormed.moveAssign (hw : WellFormed s) (hi : some this ∈ s.handles) (hj : some rhs ∈ s.handles)
    (ht : s.moveAssign i j this rhs = some t) : WellFormed t := by
  obtain ⟨u, hu, ht⟩ := Option.bind_eq_some_iff.mp ht
  obtain ⟨v, hv, rfl⟩ := Option.map_eq_some_iff.mp ht
  obtain ⟨hwu, -, hobjects⟩ := hw.release hi hu
  cases lock_eq_some hv
  exact (hwu.store (hobjects ▸ hw.points hj) (hw.paired rhs hj) i).store (.inl rfl) rfl j

theorem WellFormed.destroy (hw : WellFormed s) (hi : some this ∈ s.handles) (ht : s.destroy i this = some t) :
    WellFormed t := by
  obtain ⟨u, hu, rfl⟩ := Option.map_eq_some_iff.mp ht
  obtain ⟨hwu, -, -⟩ := hw.release hi hu
  have hkept (x : SafeSharedPtr) (hx : some x ∈ u.handles.set i none) : some x ∈ u.handles :=
    (List.mem_or_eq_of_mem_set hx).resolve_right (by simp)
  refine ⟨hwu.plain.handles (fun x hx => ?_), fun x hx => hwu.paired x (hkept x hx), hwu.mutexes⟩
  obtain ⟨o, ho, hx⟩ := List.mem_map.mp hx
  obtain ⟨y, rfl, rfl⟩ := Option.map_eq_some_iff.mp hx
  exact hwu.points (hkept y ho)

theorem wellFormed_step {a : Act} (hw : WellFormed s) (ha : a ≠ .default) (hs : step a s = some t) :
    WellFormed t := by
  have hmem {i : Nat} {h : SafeSharedPtr} (hi : s.handle i = some h) : some h ∈ s.handles :=
    List.mem_of_getElem? (handle_eq_some.mp hi)
  have hs := (Option.ite_none_left_eq_some.mp hs).2
  cases a with
  | default => exact absurd rfl ha
  | construct p =>
      cases hs
      exact hw.construct p
  | copyConstruct j =>
      obtain ⟨other, hj, rfl⟩ := Option.map_eq_some_iff.mp hs
      exact hw.complete (fun t ht => hw.copyConstruct (hmem hj) ht)
  | copyAssign i j =>
      obtain ⟨this, hi, hs⟩ := Option.bind_eq_some_iff.mp hs
      obtain ⟨rhs, hj, rfl⟩ := Option.map_eq_some_iff.mp hs
      split
      · exact hw
      · exact hw.complete (fun t ht => hw.copyAssign (hmem hi) (hmem hj) ht)
  | moveConstruct j =>
      obtain ⟨other, hj, rfl⟩ := Option.map_eq_some_iff.mp hs
      exact hw.complete (fun t ht => hw.moveConstruct (hmem hj) ht)
  | moveAssign i j =>
      obtain ⟨this, hi, hs⟩ := Option.bind_eq_some_iff.mp hs
      obtain ⟨rhs, hj, rfl⟩ := Option.map_eq_some_iff.mp hs
      split
      · exact hw
      · exact hw.complete (fun t ht => hw.moveAssign (hmem hi) (hmem hj) ht)
  | destroy i =>
      obtain ⟨this, hi, rfl⟩ := Option.map_eq_some_iff.mp hs
      exact hw.complete (fun t ht => hw.destroy (hmem hi) ht)

theorem exact_iff (hw : WellFormed s) : Exact s ↔ s.fault = false ∧ s.plain.Exact := by
  refine ⟨fun he => ⟨he.fault, he.plain⟩, fun he => ⟨he.1, he.2, fun b hb => ?_⟩⟩
  rw [hw.mutexes]
  exact he.2.blocks b hb

theorem not_exact_fault : ¬ Exact (s.complete none) := by
  intro he
  cases he.fault

theorem lock_null (hw : WellFormed s) (hi : some h ∈ s.handles) (hb : h.mRefCount = none) : s.lock h.mtx = none := by
  rw [hw.paired h hi, hb]
  rfl

theorem lock_of_not_mem (hm : h.mtx = some b) (hb : b ∉ s.deletedMutexes) : s.lock h.mtx = some s := by
  rw [lock, hm, Option.bind_some, if_neg hb]

theorem not_deleted (hw : WellFormed s) (he : Exact s) (hi : some h ∈ s.handles) (hb : h.mRefCount = some b) :
    b ∉ s.deletedMutexes := by
  have hpos := Handles.owners_pos (plain_mem hi) hb
  have hlt : b < s.counts.length := by
    rcases hw.points hi with hnull | ⟨c, hc, hobject⟩
    · cases hb.symm.trans (congrArg SharedPtr.mRefCount hnull)
    · cases hb.symm.trans hc
      exact hw.plain.length ▸ (List.getElem?_eq_some_iff.mp hobject).1
  refine List.count_eq_zero.mp ((he.mutexes b hlt).trans (if_neg ?_))
  exact Nat.ne_of_gt hpos

theorem lock_held (hw : WellFormed s) (he : Exact s) (hi : some h ∈ s.handles) (hb : h.mRefCount = some b) :
    s.lock h.mtx = some s :=
  lock_of_not_mem ((hw.paired h hi).trans hb) (not_deleted hw he hi hb)

theorem owners_two (hne : i ≠ j) (hi : s.handles[i]? = some (some this)) (hj : s.handles[j]? = some (some rhs))
    (hb : this.mRefCount = some b) (hb' : rhs.mRefCount = some b) : 2 ≤ s.plain.owners b := by
  have hnull := Handles.owners_null (t := s.plain.store i .null) (plain_get hi) hb rfl b
  have hleft : some rhs.toSharedPtr ∈ (s.plain.store i .null).handles :=
    List.mem_of_getElem? ((List.getElem?_set_ne hne).trans (plain_get hj))
  have hpos := Handles.owners_pos hleft hb'
  rw [if_pos rfl] at hnull
  omega

theorem lock_countDown (hw : WellFormed s) (he : Exact s) (hne : i ≠ j) (hi : s.handles[i]? = some (some this))
    (hj : s.handles[j]? = some (some rhs)) (hb : rhs.mRefCount = some b) :
    (s.countDown this).lock rhs.mtx = some (s.countDown this) := by
  refine lock_of_not_mem ((hw.paired rhs (List.mem_of_getElem? hj)).trans hb) ?_
  have hbefore := not_deleted hw he (List.mem_of_getElem? hj) hb
  unfold countDown
  cases hc : this.mRefCount with
  | none => exact hbefore
  | some c =>
      dsimp only
      split
      · intro hin
        rcases List.mem_append.mp hin with hin | hin
        · rw [hw.paired this (List.mem_of_getElem? hi), hc] at hin
          cases Option.some.inj (Option.mem_toList.mp hin)
          obtain ⟨d, hd, hzero⟩ := Option.map_eq_some_iff.mp
            ((if_pos rfl).symm.trans ((Handles.getElem?_decrement b b s.plain).symm.trans ‹_›))
          have hcount := he.plain.counts b d hd
          have htwo := owners_two hne hi hj hc hb
          have hnat := congrArg UInt32.toNat hzero
          rw [Handles.toNat_decrement (by omega), UInt32.toNat_zero] at hnat
          omega
        · exact hbefore hin
      · exact hbefore

theorem exact_complete (hw : WellFormed t) (hf : t.fault = false) :
    Exact (s.complete (some t)) ↔ t.plain.Exact :=
  (exact_iff hw).trans (and_iff_right hf)

theorem exact_copyConstruct (hw : WellFormed s) (he : Exact s) (hj : some other ∈ s.handles) :
    other.mRefCount ≠ none ∧ s.plain.Room other.mRefCount ↔ Exact (s.complete (s.copyConstruct other)) := by
  cases hb : other.mRefCount with
  | none =>
      rw [copyConstruct, lock_null hw hj hb]
      exact iff_of_false (by simp) not_exact_fault
  | some b =>
      have ht : s.copyConstruct other =
          some { s.push other with counts := (s.push other).counts.modify b (· + 1) } := by
        rw [copyConstruct, lock_held hw he hj hb, Option.bind_some, hb]
        rfl
      have hplain : plain { s.push other with counts := (s.push other).counts.modify b (· + 1) } =
          (s.plain.push other.toSharedPtr).increment other.mRefCount := by
        rw [← plain_push, hb]
        rfl
      have hexact := Handles.exact_copyConstruct hw.plain he.plain (plain_mem hj)
      rw [ht, exact_complete (hw.copyConstruct hj ht) he.fault, hplain, ← hexact, hb]
      exact and_iff_right (by simp)

theorem exact_copyAssign (hw : WellFormed s) (he : Exact s) (hne : i ≠ j)
    (hi : s.handles[i]? = some (some this)) (hj : s.handles[j]? = some (some rhs)) :
    (this.mRefCount ≠ none ∧ rhs.mRefCount ≠ none ∧
        (this.mRefCount.bind (s.counts[·]?) = some 1 → ∀ p ∈ this.mPtr, s.plain.holders p = 1) ∧
        (this.mRefCount = rhs.mRefCount ∨ s.plain.Room rhs.mRefCount)) ↔
      Exact (s.complete (s.copyAssign i this rhs)) := by
  have hin := List.mem_of_getElem? hi
  have hjn := List.mem_of_getElem? hj
  cases hb : this.mRefCount with
  | none =>
      rw [copyAssign, release, lock_null hw hin hb]
      exact iff_of_false (by simp) not_exact_fault
  | some b =>
      have hrelease : s.release this = some (s.countDown this) := by
        rw [release, lock_held hw he hin hb, Option.map_some]
      cases hc : rhs.mRefCount with
      | none =>
          have hlock : (s.countDown this).lock rhs.mtx = none := by
            rw [hw.paired rhs hjn, hc]
            rfl
          rw [copyAssign, hrelease, Option.bind_some, Option.bind_some, hlock]
          exact iff_of_false (by simp) not_exact_fault
      | some c =>
          have ht : s.copyAssign i this rhs = some { (s.countDown this).store i rhs with
              counts := ((s.countDown this).store i rhs).counts.modify c (· + 1) } := by
            rw [copyAssign, hrelease, Option.bind_some, lock_countDown hw he hne hi hj hc, Option.bind_some, hc]
            rfl
          have hplain : plain { (s.countDown this).store i rhs with
              counts := ((s.countDown this).store i rhs).counts.modify c (· + 1) } =
              ((s.plain.release this.toSharedPtr).store i rhs.toSharedPtr).increment rhs.mRefCount := by
            rw [← plain_countDown, ← plain_store, hc]
            rfl
          have hexact := Handles.exact_copyAssign hw.plain he.plain hne (plain_get hi) (plain_get hj)
          have hfault : ((s.countDown this).store i rhs).fault = false := (countDown_fault this s).trans he.fault
          rw [ht, exact_complete (hw.copyAssign hin hjn ht) hfault, hplain, ← hexact, hb, hc]
          exact (and_iff_right (by simp)).trans (and_iff_right (by simp))

theorem exact_moveConstruct (hw : WellFormed s) (he : Exact s) (hj : s.handles[j]? = some (some other)) :
    other.mRefCount ≠ none ↔ Exact (s.complete (s.moveConstruct j other)) := by
  have hjn := List.mem_of_getElem? hj
  cases hb : other.mRefCount with
  | none =>
      rw [moveConstruct, lock_null hw hjn hb]
      exact iff_of_false (by simp) not_exact_fault
  | some b =>
      have ht : s.moveConstruct j other = some ((s.push other).store j .null) := by
        rw [moveConstruct, lock_held hw he hjn hb, Option.map_some]
      have hplain : ((s.push other).store j .null).plain = (s.plain.store j .null).push other.toSharedPtr := by
        have hlt := (List.getElem?_eq_some_iff.mp (plain_get hj)).1
        rw [plain_store, plain_push, Handles.store, Handles.push, List.set_append_left _ _ hlt]
        rfl
      rw [ht, exact_complete (hw.moveConstruct hjn ht) he.fault, hplain]
      exact iff_of_true (by simp) (Handles.exact_moveConstruct he.plain (plain_get hj))

theorem exact_moveAssign (hw : WellFormed s) (he : Exact s) (hne : i ≠ j)
    (hi : s.handles[i]? = some (some this)) (hj : s.handles[j]? = some (some rhs)) :
    (this.mRefCount ≠ none ∧ rhs.mRefCount ≠ none ∧
        (this.mRefCount.bind (s.counts[·]?) = some 1 → ∀ p ∈ this.mPtr, s.plain.holders p = 1)) ↔
      Exact (s.complete (s.moveAssign i j this rhs)) := by
  have hin := List.mem_of_getElem? hi
  have hjn := List.mem_of_getElem? hj
  cases hb : this.mRefCount with
  | none =>
      rw [moveAssign, release, lock_null hw hin hb]
      exact iff_of_false (by simp) not_exact_fault
  | some b =>
      have hrelease : s.release this = some (s.countDown this) := by
        rw [release, lock_held hw he hin hb, Option.map_some]
      cases hc : rhs.mRefCount with
      | none =>
          have hlock : (s.countDown this).lock rhs.mtx = none := by
            rw [hw.paired rhs hjn, hc]
            rfl
          rw [moveAssign, hrelease, Option.bind_some, Option.bind_some, hlock]
          exact iff_of_false (by simp) not_exact_fault
      | some c =>
          have ht : s.moveAssign i j this rhs = some (((s.countDown this).store i rhs).store j .null) := by
            rw [moveAssign, hrelease, Option.bind_some, lock_countDown hw he hne hi hj hc, Option.map_some]
          have hplain : (((s.countDown this).store i rhs).store j .null).plain =
              ((s.plain.release this.toSharedPtr).store i rhs.toSharedPtr).store j .null := by
            rw [plain_store, plain_store, plain_countDown]
            rfl
          have hfault : (((s.countDown this).store i rhs).store j .null).fault = false :=
            (countDown_fault this s).trans he.fault
          have hhandles := (Handles.release_keeps this.toSharedPtr s.plain).2
          have hexact := Handles.exact_release hw.plain he.plain (plain_get hi)
          rw [hb] at hexact
          rw [ht, exact_complete (hw.moveAssign hin hjn ht) hfault, hplain,
            and_iff_right (by simp), and_iff_right (by simp)]
          exact hexact.trans (Handles.exact_moved hne (hhandles ▸ plain_get hi) (hhandles ▸ plain_get hj))

theorem exact_destroy (hw : WellFormed s) (he : Exact s) (hi : s.handles[i]? = some (some this)) :
    (this.mRefCount ≠ none ∧
        (this.mRefCount.bind (s.counts[·]?) = some 1 → ∀ p ∈ this.mPtr, s.plain.holders p = 1)) ↔
      Exact (s.complete (s.destroy i this)) := by
  have hin := List.mem_of_getElem? hi
  cases hb : this.mRefCount with
  | none =>
      rw [destroy, release, lock_null hw hin hb]
      exact iff_of_false (by simp) not_exact_fault
  | some b =>
      have ht : s.destroy i this =
          some { s.countDown this with handles := (s.countDown this).handles.set i none } := by
        rw [destroy, release, lock_held hw he hin hb, Option.map_some, Option.map_some]
      have hplain : plain { s.countDown this with handles := (s.countDown this).handles.set i none } =
          { s.plain.release this.toSharedPtr with
            handles := (s.plain.release this.toSharedPtr).handles.set i none } := by
        rw [← plain_countDown, plain, plain, List.map_set]
        rfl
      have hhandles := (Handles.release_keeps this.toSharedPtr s.plain).2
      have hexact := Handles.exact_release hw.plain he.plain (plain_get hi)
      rw [hb] at hexact
      rw [ht, exact_complete (hw.destroy hin ht) ((countDown_fault this s).trans he.fault), hplain,
        and_iff_right (by simp)]
      exact hexact.trans (Handles.exact_ended (hhandles ▸ plain_get hi))

theorem default_not_exact (s : SafeHandles) : ¬ Exact (s.construct none 0) := by
  intro he
  have hcount := he.plain.counts s.counts.length 0 List.getElem?_concat_length
  have hin : some ⟨⟨none, some s.counts.length⟩, some s.counts.length⟩ ∈ (s.construct none 0).handles :=
    List.mem_append_right _ (List.mem_singleton.mpr rfl)
  have howners := Handles.owners_pos (plain_mem hin) rfl
  rw [← hcount] at howners
  cases howners

theorem refersTo_eq (hi : s.handles[i]? = some (some h)) : s.plain.refersTo i = h.mRefCount := by
  rw [Handles.refersTo, Handles.handle_eq_some.mpr (plain_get hi)]
  rfl

theorem pointsTo_eq (hi : s.handles[i]? = some (some h)) : s.plain.pointsTo i = h.mPtr := by
  rw [Handles.pointsTo, Handles.handle_eq_some.mpr (plain_get hi)]
  rfl

theorem counted_iff {a : Act} (hw : WellFormed s) (he : Exact s) (hs : step a s = some t) :
    Counted a s ↔ Exact t := by
  have hs := (Option.ite_none_left_eq_some.mp hs).2
  cases a with
  | default =>
      cases hs
      exact iff_of_false id (default_not_exact s)
  | construct p =>
      cases hs
      have hexact := Handles.exact_construct hw.plain he.plain p
      rw [exact_iff (hw.construct p), plain_construct, ← hexact]
      exact (and_iff_right he.fault).symm
  | copyConstruct j =>
      obtain ⟨other, hj, rfl⟩ := Option.map_eq_some_iff.mp hs
      rw [handle_eq_some] at hj
      rw [Counted, Held, refersTo_eq hj]
      exact exact_copyConstruct hw he (List.mem_of_getElem? hj)
  | copyAssign i j =>
      obtain ⟨this, hi, hs⟩ := Option.bind_eq_some_iff.mp hs
      obtain ⟨rhs, hj, rfl⟩ := Option.map_eq_some_iff.mp hs
      rw [handle_eq_some] at hi hj
      rw [Counted, Held, Held, Handles.Sole, refersTo_eq hi, refersTo_eq hj, pointsTo_eq hi]
      split
      · exact iff_of_true (.inl ‹_›) he
      · rw [or_iff_right ‹_›]
        exact exact_copyAssign hw he ‹_› hi hj
  | moveConstruct j =>
      obtain ⟨other, hj, rfl⟩ := Option.map_eq_some_iff.mp hs
      rw [handle_eq_some] at hj
      rw [Counted, Held, refersTo_eq hj]
      exact exact_moveConstruct hw he hj
  | moveAssign i j =>
      obtain ⟨this, hi, hs⟩ := Option.bind_eq_some_iff.mp hs
      obtain ⟨rhs, hj, rfl⟩ := Option.map_eq_some_iff.mp hs
      rw [handle_eq_some] at hi hj
      rw [Counted, Held, Held, Handles.Sole, refersTo_eq hi, refersTo_eq hj, pointsTo_eq hi]
      split
      · exact iff_of_true (.inl ‹_›) he
      · rw [or_iff_right ‹_›]
        exact exact_moveAssign hw he ‹_› hi hj
  | destroy i =>
      obtain ⟨this, hi, rfl⟩ := Option.map_eq_some_iff.mp hs
      rw [handle_eq_some] at hi
      rw [Counted, Held, Handles.Sole, refersTo_eq hi, pointsTo_eq hi]
      exact exact_destroy hw he hi

/-- As long as nothing is done with a handle that was moved from and none is constructed by
default, no null pointer is used and the counts are exact; a step that breaks the condition
uses a null pointer or makes a count wrong. -/
theorem counts_survive_moves (s : SafeHandles) (h : Reachable start step Counted s) :
    Exact s ∧ ∀ a t, step a s = some t → (Counted a s ↔ Exact t) := by
  have hi : WellFormed s ∧ Exact s := by
    apply h.invariant (I := fun s => WellFormed s ∧ Exact s)
    · rintro _ rfl
      refine ⟨⟨Handles.wellFormed_start, ?_, rfl⟩, ⟨rfl, Handles.exact_start, ?_⟩⟩
      · intro h hin
        cases hin
      · intro b hlt
        cases hlt
    · rintro a s t ⟨hw, he⟩ hc hs
      have ha : a ≠ .default := by
        rintro rfl
        exact hc
      exact ⟨wellFormed_step hw ha hs, (counted_iff hw he hs).mp hc⟩
  exact ⟨hi.2, fun a t hs => counted_iff hi.1 hi.2 hs⟩

theorem counts_survive_moves_shared :
    ∃ s, Reachable start step Counted s ∧ s.plain.owners 0 = 2 ∧ s.deletedObjects = [9, 8] ∧ Exact s := by
  have hrun : (run (guarded step Counted) [.construct (some 7), .copyConstruct 0, .construct (some 8),
      .copyAssign 2 0, .moveConstruct 2, .construct (some 9), .moveAssign 4 3, .copyAssign 3 3, .destroy 1]
      ⟨[], [], [], [], [], [], false⟩).map (fun s => (s.plain.owners 0, s.deletedObjects)) =
        some (2, [9, 8]) := by decide +kernel
  obtain ⟨s, hr, he⟩ := reachable_of_run start hrun rfl
  simp only [Prod.mk.injEq] at he
  exact ⟨s, hr, he.1, he.2, (counts_survive_moves s hr).1⟩

/-- The destructor of a handle that was moved from locks a null mutex. -/
theorem moved_from_is_destroyed : ¬ ∀ s, Reachable start step always s → Exact s := by
  intro h
  have hrun : (run (guarded step always) [.construct (some 7), .moveConstruct 0, .destroy 0]
      ⟨[], [], [], [], [], [], false⟩).map SafeHandles.fault = some true := by decide +kernel
  obtain ⟨s, hr, he⟩ := reachable_of_run start hrun rfl
  cases he.symm.trans (h s hr).fault

end SafeHandles

end LearnNote.Misc
