import Mathlib.Order.Lattice
import LearnNote.Lib.Slots
import LearnNote.Lib.Transition

namespace LearnNote.Misc

open Lib.Transition

/-- What a handle points to: the object and the control block. -/
structure SharedPtr where
  mPtr : Option Nat
  mRefCount : Option Nat
deriving DecidableEq

def SharedPtr.null : SharedPtr := ⟨none, none⟩

/-- The handles that a program has constructed, none once they are gone, and for each
control block its count and the raw pointer it was made for; what has been deleted. -/
structure Handles where
  handles : List (Option SharedPtr)
  counts : List UInt32
  objects : List (Option Nat)
  deletedObjects : List Nat
  deletedCounts : List Nat

namespace Handles

def handle (i : Nat) (s : Handles) : Option SharedPtr := s.handles[i]?.join

def store (i : Nat) (h : SharedPtr) (s : Handles) : Handles := { s with handles := s.handles.set i (some h) }

def push (h : SharedPtr) (s : Handles) : Handles := { s with handles := s.handles ++ [some h] }

def increment (r : Option Nat) (s : Handles) : Handles :=
  match r with
  | none => s
  | some b => { s with counts := s.counts.modify b (· + 1) }

def delete (h : SharedPtr) (b : Nat) (s : Handles) : Handles :=
  { s with
    deletedObjects := h.mPtr.toList ++ s.deletedObjects
    deletedCounts := b :: s.deletedCounts }

def decrement (b : Nat) (s : Handles) : Handles := { s with counts := s.counts.modify b (· - 1) }

/-- The first half of the copy assignment. -/
def release (h : SharedPtr) (s : Handles) : Handles :=
  match h.mRefCount with
  | none => s
  | some b => if (s.decrement b).counts[b]? = some 0 then (s.decrement b).delete h b else s.decrement b

def construct (p : Option Nat) (s : Handles) : Handles :=
  { s with
    handles := s.handles ++ [some ⟨p, some s.counts.length⟩]
    counts := s.counts ++ [1]
    objects := s.objects ++ [p] }

inductive Act
  | default
  | construct (p : Option Nat)
  | copyConstruct (j : Nat)
  | copyAssign (i j : Nat)
  | moveConstruct (j : Nat)
  | moveAssign (i j : Nat)
  | endOfLife (i : Nat)

/-- An assignment is to the handle i from j. The temporary of a move assignment goes away
with what i held; there is no destructor. -/
def step : Act → Handles → Option Handles
  | .default, s => some (s.push .null)
  | .construct p, s => some (s.construct p)
  | .copyConstruct j, s => (s.handle j).map fun other => (s.push other).increment other.mRefCount
  | .copyAssign i j, s =>
      (s.handle i).bind fun this => (s.handle j).map fun rhs =>
        if i = j then s else ((s.release this).store i rhs).increment rhs.mRefCount
  | .moveConstruct j, s => (s.handle j).map fun other => (s.store j .null).push other
  | .moveAssign i j, s =>
      (s.handle i).bind fun _ => (s.handle j).map fun rhs => if i = j then s else (s.store j .null).store i rhs
  | .endOfLife i, s => (s.handle i).map fun _ => { s with handles := s.handles.set i none }

def start (s : Handles) : Prop := s = ⟨[], [], [], [], []⟩

def owners (b : Nat) (s : Handles) : Nat := (s.handles.filterMap (·.bind SharedPtr.mRefCount)).count b

def holders (p : Nat) (s : Handles) : Nat := (s.handles.filterMap (·.bind SharedPtr.mPtr)).count p

/-- Each count is the number of handles, and a block and its object have been deleted, once,
when there is no handle left. -/
structure Exact (s : Handles) : Prop where
  counts : ∀ b c, s.counts[b]? = some c → c.toNat = s.owners b
  blocks : ∀ b, b < s.counts.length → s.deletedCounts.count b = if s.owners b = 0 then 1 else 0
  objects : ∀ p, some p ∈ s.objects → s.deletedObjects.count p = if s.holders p = 0 then 1 else 0

def refersTo (i : Nat) (s : Handles) : Option Nat := (s.handle i).bind SharedPtr.mRefCount

def pointsTo (i : Nat) (s : Handles) : Option Nat := (s.handle i).bind SharedPtr.mPtr

def Room (r : Option Nat) (s : Handles) : Prop := r.bind (s.counts[·]?) ≠ some 4294967295

/-- When the handle is the last of its block, no handle of another block has its object. -/
def Sole (i : Nat) (s : Handles) : Prop :=
  (s.refersTo i).bind (s.counts[·]?) = some 1 → ∀ p ∈ s.pointsTo i, s.holders p = 1

/-- A raw pointer is not to a deleted object, and no handle of a block goes away, or is
moved to, without a release. -/
def Counted : Act → Handles → Prop
  | .construct p, s => ∀ q ∈ p, q ∉ s.deletedObjects
  | .copyConstruct j, s => Room (s.refersTo j) s
  | .copyAssign i j, s => i = j ∨ Sole i s ∧ (s.refersTo i = s.refersTo j ∨ Room (s.refersTo j) s)
  | .moveAssign i j, s => i = j ∨ s.refersTo i = none
  | .endOfLife i, s => s.refersTo i = none
  | _, _ => True

instance (r : Option Nat) (s : Handles) : Decidable (Room r s) := inferInstanceAs (Decidable (_ ≠ _))

instance (i : Nat) (s : Handles) : Decidable (Sole i s) := inferInstanceAs (Decidable (_ → _))

instance : ∀ (a : Act) (s : Handles), Decidable (Counted a s)
  | .construct _, _ => inferInstanceAs (Decidable (∀ _, _))
  | .copyConstruct _, _ => inferInstanceAs (Decidable (Room _ _))
  | .copyAssign _ _, _ => inferInstanceAs (Decidable (_ ∨ _))
  | .moveAssign _ _, _ => inferInstanceAs (Decidable (_ ∨ _))
  | .endOfLife _, _ => inferInstanceAs (Decidable (_ = _))
  | .default, _ | .moveConstruct _, _ => inferInstanceAs (Decidable True)

/-- A handle has the raw pointer that its control block was made for. -/
def Points (objects : List (Option Nat)) (h : SharedPtr) : Prop :=
  h = .null ∨ ∃ b, h.mRefCount = some b ∧ objects[b]? = some h.mPtr

structure WellFormed (s : Handles) : Prop where
  length : s.objects.length = s.counts.length
  points : ∀ h, some h ∈ s.handles → Points s.objects h
  deletedObjects : ∀ p ∈ s.deletedObjects, some p ∈ s.objects
  deletedCounts : ∀ b ∈ s.deletedCounts, b < s.counts.length

variable {s t : Handles} {h other : SharedPtr} {i j b p : Nat} {o : Option SharedPtr}

theorem handle_eq_some : s.handle i = some h ↔ s.handles[i]? = some (some h) := Option.join_eq_some_iff

theorem mem_of_handle (hi : s.handle i = some h) : some h ∈ s.handles :=
  List.mem_of_getElem? (handle_eq_some.mp hi)

theorem WellFormed.handles (hw : WellFormed s) {hs : List (Option SharedPtr)}
    (hp : ∀ h, some h ∈ hs → Points s.objects h) : WellFormed { s with handles := hs } :=
  ⟨hw.length, hp, hw.deletedObjects, hw.deletedCounts⟩

theorem WellFormed.store (hw : WellFormed s) (hp : Points s.objects h) (i : Nat) : WellFormed (s.store i h) := by
  apply hw.handles
  intro x hx
  rcases List.mem_or_eq_of_mem_set hx with hx | hx
  · exact hw.points x hx
  · cases hx
    exact hp

theorem WellFormed.push (hw : WellFormed s) (hp : Points s.objects h) : WellFormed (s.push h) := by
  apply hw.handles
  intro x hx
  rcases List.mem_append.mp hx with hx | hx
  · exact hw.points x hx
  · cases List.mem_singleton.mp hx
    exact hp

theorem WellFormed.modify (hw : WellFormed s) (b : Nat) (f : UInt32 → UInt32) :
    WellFormed { s with counts := s.counts.modify b f } := by
  have hlength : (s.counts.modify b f).length = s.counts.length := List.length_modify _ _ _
  exact ⟨hw.length.trans hlength.symm, hw.points, hw.deletedObjects, fun c hc => hlength ▸ hw.deletedCounts c hc⟩

theorem WellFormed.increment (hw : WellFormed s) (r : Option Nat) : WellFormed (s.increment r) := by
  cases r with
  | none => exact hw
  | some b => exact hw.modify b (· + 1)

theorem WellFormed.decrement (hw : WellFormed s) (b : Nat) : WellFormed (s.decrement b) := hw.modify b (· - 1)

theorem WellFormed.delete (hw : WellFormed s) (hb : s.objects[b]? = some h.mPtr) : WellFormed (s.delete h b) := by
  have hlt : b < s.counts.length := hw.length ▸ (List.getElem?_eq_some_iff.mp hb).1
  refine ⟨hw.length, hw.points, ?_, ?_⟩
  · intro p hp
    rcases List.mem_append.mp hp with hp | hp
    · rw [← Option.mem_toList.mp hp]
      exact List.mem_of_getElem? hb
    · exact hw.deletedObjects p hp
  · intro c hc
    rcases List.mem_cons.mp hc with rfl | hc
    · exact hlt
    · exact hw.deletedCounts c hc

theorem WellFormed.release (hw : WellFormed s) (hp : Points s.objects h) : WellFormed (s.release h) := by
  rcases hp with rfl | ⟨b, hb, hobject⟩
  · exact hw
  · rw [Handles.release, hb]
    dsimp only
    split
    · exact (hw.decrement b).delete hobject
    · exact hw.decrement b

theorem release_keeps (h : SharedPtr) (s : Handles) :
    (s.release h).objects = s.objects ∧ (s.release h).handles = s.handles := by
  unfold release
  split
  · exact ⟨rfl, rfl⟩
  · split <;> exact ⟨rfl, rfl⟩

theorem Points.append (hp : Points s.objects h) (p : Option Nat) : Points (s.objects ++ [p]) h := by
  rcases hp with hp | ⟨b, hb, hobject⟩
  · exact .inl hp
  · exact .inr ⟨b, hb, (List.getElem?_append_left (List.getElem?_eq_some_iff.mp hobject).1).trans hobject⟩

theorem WellFormed.construct (hw : WellFormed s) (p : Option Nat) : WellFormed (s.construct p) := by
  refine ⟨?_, ?_, fun q hq => List.mem_append_left _ (hw.deletedObjects q hq), ?_⟩
  · simp [Handles.construct, hw.length]
  · intro x hx
    rcases List.mem_append.mp hx with hx | hx
    · exact (hw.points x hx).append p
    · cases List.mem_singleton.mp hx
      refine .inr ⟨s.counts.length, rfl, ?_⟩
      rw [← hw.length]
      exact List.getElem?_concat_length
  · intro c hc
    have hlt := hw.deletedCounts c hc
    simp only [Handles.construct, List.length_append, List.length_singleton]
    omega

theorem wellFormed_step {a : Act} (hw : WellFormed s) (hs : step a s = some t) : WellFormed t := by
  cases a with
  | default =>
      cases hs
      exact hw.push (.inl rfl)
  | construct p =>
      cases hs
      exact hw.construct p
  | copyConstruct j =>
      obtain ⟨other, hj, rfl⟩ := Option.map_eq_some_iff.mp hs
      exact (hw.push (hw.points other (mem_of_handle hj))).increment _
  | copyAssign i j =>
      obtain ⟨this, hi, hs⟩ := Option.bind_eq_some_iff.mp hs
      obtain ⟨rhs, hj, rfl⟩ := Option.map_eq_some_iff.mp hs
      split
      · exact hw
      · have hrhs : Points (s.release this).objects rhs :=
          (release_keeps this s).1 ▸ hw.points rhs (mem_of_handle hj)
        exact ((hw.release (hw.points this (mem_of_handle hi))).store hrhs i).increment _
  | moveConstruct j =>
      obtain ⟨other, hj, rfl⟩ := Option.map_eq_some_iff.mp hs
      exact (hw.store (.inl rfl) j).push (hw.points other (mem_of_handle hj))
  | moveAssign i j =>
      obtain ⟨this, -, hs⟩ := Option.bind_eq_some_iff.mp hs
      obtain ⟨rhs, hj, rfl⟩ := Option.map_eq_some_iff.mp hs
      split
      · exact hw
      · exact (hw.store (.inl rfl) j).store (hw.points rhs (mem_of_handle hj)) i
  | endOfLife i =>
      obtain ⟨-, -, rfl⟩ := Option.map_eq_some_iff.mp hs
      apply hw.handles
      intro x hx
      exact hw.points x ((List.mem_or_eq_of_mem_set hx).resolve_right (by simp))

/-- What a handle referred to before a change is left, and what it refers to now is taken. -/
theorem count_set (f : SharedPtr → Option Nat) {hs : List (Option SharedPtr)} (hi : hs[i]? = some o)
    (o' : Option SharedPtr) (x : Nat) :
    (o.bind f).toList.count x + ((hs.set i o').filterMap (·.bind f)).count x =
      (o'.bind f).toList.count x + (hs.filterMap (·.bind f)).count x := by
  rw [← List.count_append, ← List.count_append]
  exact (Lib.Slots.filterMap_set (·.bind f) o' hi).count_eq x

theorem count_push (f : SharedPtr → Option Nat) (hs : List (Option SharedPtr)) (x : Nat) :
    ((hs ++ [o]).filterMap (·.bind f)).count x =
      (o.bind f).toList.count x + (hs.filterMap (·.bind f)).count x := by
  rw [List.filterMap_append, List.count_append, Nat.add_comm]
  cases ho : o.bind f with
  | none => simp [ho]
  | some y => simp [ho]

theorem count_some (x y : Nat) : (some y).toList.count x = if y = x then 1 else 0 := by
  simp [List.count_cons]

theorem owners_pos (hj : some h ∈ s.handles) (hb : h.mRefCount = some b) : 0 < s.owners b :=
  List.count_pos_iff.mpr (List.mem_filterMap.mpr ⟨some h, hj, hb⟩)

theorem holders_pos (hj : some h ∈ s.handles) (hp : h.mPtr = some p) : 0 < s.holders p :=
  List.count_pos_iff.mpr (List.mem_filterMap.mpr ⟨some h, hj, hp⟩)

theorem WellFormed.holders_pos (hw : WellFormed s) (hb : s.objects[b]? = some (some p)) (ho : 0 < s.owners b) :
    0 < s.holders p := by
  obtain ⟨o, hin, hr⟩ := List.mem_filterMap.mp (List.count_pos_iff.mp ho)
  obtain ⟨h, rfl, hr⟩ := Option.bind_eq_some_iff.mp hr
  rcases hw.points h hin with rfl | ⟨c, hc, hobject⟩
  · cases hr
  · cases hr.symm.trans hc
    exact Handles.holders_pos hin (Option.some.inj (hobject.symm.trans hb))

theorem Exact.carry (he : Exact s) (hlength : t.counts.length = s.counts.length) (hobjects : t.objects = s.objects)
    (hdeleted : t.deletedObjects = s.deletedObjects ∧ t.deletedCounts = s.deletedCounts)
    (howners : ∀ b, s.owners b = 0 ↔ t.owners b = 0) (hholders : ∀ p, s.holders p = 0 ↔ t.holders p = 0)
    (hcounts : ∀ b c, t.counts[b]? = some c → c.toNat = t.owners b) : Exact t := by
  refine ⟨hcounts, fun b hb => ?_, fun p hp => ?_⟩
  · rw [hdeleted.2]
    exact (he.blocks b (hlength ▸ hb)).trans (if_congr (howners b) rfl rfl)
  · rw [hdeleted.1]
    exact (he.objects p (hobjects ▸ hp)).trans (if_congr (hholders p) rfl rfl)

theorem exact_congr {hs : List (Option SharedPtr)} (hr : ∀ b, owners b { s with handles := hs } = s.owners b)
    (hp : ∀ p, holders p { s with handles := hs } = s.holders p) (he : Exact s) :
    Exact { s with handles := hs } := by
  refine he.carry rfl rfl ⟨rfl, rfl⟩ (fun b => ?_) (fun p => ?_) (fun b c hc => ?_)
  · rw [hr b]
  · rw [hp p]
  · exact (he.counts b c hc).trans (hr b).symm

theorem exact_handles {hs hs' : List (Option SharedPtr)}
    (hsame : ∀ f : SharedPtr → Option Nat, f .null = none → ∀ x,
      (hs.filterMap (·.bind f)).count x = (hs'.filterMap (·.bind f)).count x) :
    Exact { s with handles := hs } ↔ Exact { s with handles := hs' } := by
  have hr := hsame SharedPtr.mRefCount rfl
  have hp := hsame SharedPtr.mPtr rfl
  exact ⟨exact_congr (s := { s with handles := hs }) (fun b => (hr b).symm) (fun p => (hp p).symm),
    exact_congr (s := { s with handles := hs' }) hr hp⟩

theorem exact_lose {hs : List (Option SharedPtr)} (hw : WellFormed s) (he : Exact s) (hh : Points s.objects h)
    (hr : ∀ b, h.mRefCount.toList.count b + owners b { s with handles := hs } = s.owners b)
    (hp : ∀ p, h.mPtr.toList.count p + holders p { s with handles := hs } = s.holders p) :
    h.mRefCount = none ↔ Exact { s with handles := hs } := by
  rcases hh with rfl | ⟨b, hb, hobject⟩
  · refine iff_of_true rfl (exact_congr (fun b => ?_) (fun p => ?_) he)
    · rw [← hr b]
      exact (Nat.zero_add _).symm
    · rw [← hp p]
      exact (Nat.zero_add _).symm
  · refine iff_of_false (by simp [hb]) (fun ht => ?_)
    have hlt : b < s.counts.length := hw.length ▸ (List.getElem?_eq_some_iff.mp hobject).1
    have hcount := List.getElem?_eq_getElem hlt
    have hbefore := he.counts b _ hcount
    have hafter := ht.counts b _ hcount
    have hone := hr b
    rw [hb, count_some, if_pos rfl] at hone
    omega

theorem toNat_increment (c : UInt32) (n : Nat) : (c + 1).toNat = n + 1 ↔ c.toNat = n ∧ c ≠ 4294967295 := by
  have hlt := c.toNat_lt
  have hmax : c = 4294967295 ↔ c.toNat = 4294967295 := UInt32.toNat_inj.symm
  rw [UInt32.toNat_add, UInt32.toNat_one, Ne, hmax]
  omega

theorem getElem?_increment (b c : Nat) (s : Handles) :
    (s.increment (some b)).counts[c]? = if b = c then (s.counts[c]?).map (· + 1) else s.counts[c]? :=
  Lib.Slots.getElem?_modify _ _ b c

theorem store_same (hi : s.handles[i]? = some (some h)) : s.store i h = s := by
  obtain ⟨hlt, he⟩ := List.getElem?_eq_some_iff.mp hi
  rw [store, ← he, List.set_getElem_self]

theorem owners_share (hi : s.handles[i]? = some (some .null)) (hb : other.mRefCount = some b) (x : Nat) :
    owners x ((s.store i other).increment (some b)) = (if b = x then 1 else 0) + s.owners x := by
  have hset := count_set SharedPtr.mRefCount hi (some other) x
  rw [Option.bind_some, Option.bind_some, hb, count_some] at hset
  exact (Nat.zero_add _).symm.trans hset

theorem holders_share (hi : s.handles[i]? = some (some .null)) (b p : Nat) :
    holders p ((s.store i other).increment (some b)) = other.mPtr.toList.count p + s.holders p :=
  (Nat.zero_add _).symm.trans (count_set SharedPtr.mPtr hi (some other) p)

theorem owners_share_eq_zero (hi : s.handles[i]? = some (some .null)) (hj : some other ∈ s.handles)
    (hb : other.mRefCount = some b) (x : Nat) :
    s.owners x = 0 ↔ owners x ((s.store i other).increment (some b)) = 0 := by
  rw [owners_share hi hb]
  split
  · subst x
    have hpos := owners_pos hj hb
    omega
  · rw [Nat.zero_add]

theorem holders_share_eq_zero (hi : s.handles[i]? = some (some .null)) (hj : some other ∈ s.handles) (b p : Nat) :
    s.holders p = 0 ↔ holders p ((s.store i other).increment (some b)) = 0 := by
  rw [holders_share hi]
  cases hp : other.mPtr with
  | none => simp
  | some q =>
      rw [count_some]
      split
      · subst p
        have hpos := holders_pos hj hp
        omega
      · rw [Nat.zero_add]

theorem counts_share (hi : s.handles[i]? = some (some .null)) (hb : other.mRefCount = some b) :
    (∀ x c, ((s.store i other).increment (some b)).counts[x]? = some c →
        c.toNat = owners x ((s.store i other).increment (some b))) ↔
      (∀ x c, s.counts[x]? = some c → c.toNat = s.owners x) ∧ Room other.mRefCount s := by
  constructor
  · intro ht
    have hcount (x : Nat) (c : UInt32) (hx : s.counts[x]? = some c) :
        c.toNat = s.owners x ∧ (b = x → c ≠ 4294967295) := by
      by_cases hbx : b = x
      · subst x
        have hc := ht b (c + 1) (by rw [getElem?_increment, if_pos rfl]; exact congrArg (Option.map _) hx)
        rw [owners_share hi hb, if_pos rfl, Nat.add_comm, toNat_increment] at hc
        exact ⟨hc.1, fun _ => hc.2⟩
      · have hc := ht x c (by rw [getElem?_increment, if_neg hbx]; exact hx)
        rw [owners_share hi hb, if_neg hbx, Nat.zero_add] at hc
        exact ⟨hc, fun he => absurd he hbx⟩
    rw [Room, hb]
    exact ⟨fun x c hx => (hcount x c hx).1, fun hm => (hcount b _ hm).2 rfl rfl⟩
  · rw [Room, hb]
    rintro ⟨he, hroom⟩ x c hx
    rw [getElem?_increment] at hx
    rw [owners_share hi hb]
    split at hx
    · subst x
      obtain ⟨d, hd, rfl⟩ := Option.map_eq_some_iff.mp hx
      rw [if_pos rfl, Nat.add_comm]
      exact (toNat_increment d _).mpr ⟨he b d hd, fun hm => hroom (hm ▸ hd)⟩
    · rw [if_neg ‹_›, Nat.zero_add]
      exact he x c hx

theorem exact_share (hw : WellFormed s) (hi : s.handles[i]? = some (some .null)) (hj : some other ∈ s.handles) :
    Exact ((s.store i other).increment other.mRefCount) ↔ Exact s ∧ Room other.mRefCount s := by
  rcases hw.points other hj with rfl | ⟨b, hb, -⟩
  · rw [store_same hi]
    exact (and_iff_left (by simp [Room, SharedPtr.null])).symm
  have hcounts := counts_share hi hb
  have howners := owners_share_eq_zero hi hj hb
  have hholders := holders_share_eq_zero hi hj b
  have hlength : ((s.store i other).increment (some b)).counts.length = s.counts.length := List.length_modify _ _ _
  rw [hb] at hcounts ⊢
  constructor
  · intro ht
    obtain ⟨hexact, hroom⟩ := hcounts.mp ht.counts
    refine ⟨?_, hroom⟩
    exact ht.carry hlength.symm rfl ⟨rfl, rfl⟩ (fun x => (howners x).symm) (fun p => (hholders p).symm) hexact
  · rintro ⟨he, hroom⟩
    exact he.carry hlength rfl ⟨rfl, rfl⟩ howners hholders (hcounts.mpr ⟨he.counts, hroom⟩)

theorem getElem?_decrement (b c : Nat) (s : Handles) :
    (s.decrement b).counts[c]? = if b = c then (s.counts[c]?).map (· - 1) else s.counts[c]? :=
  Lib.Slots.getElem?_modify _ _ b c

theorem toNat_decrement {c : UInt32} (h : 0 < c.toNat) : (c - 1).toNat = c.toNat - 1 := by
  apply UInt32.toNat_sub_of_le
  exact UInt32.le_iff_toNat_le.mpr h

theorem owners_null (hi : s.handles[i]? = some (some h)) (hb : h.mRefCount = some b)
    (ht : t.handles = s.handles.set i (some .null)) (x : Nat) :
    (if b = x then 1 else 0) + t.owners x = s.owners x := by
  have hset := count_set SharedPtr.mRefCount hi (some .null) x
  rw [Option.bind_some, hb, count_some, ← ht] at hset
  exact hset.trans (Nat.zero_add _)

theorem holders_null (hi : s.handles[i]? = some (some h))
    (ht : t.handles = s.handles.set i (some .null)) (p : Nat) :
    h.mPtr.toList.count p + t.holders p = s.holders p := by
  have hset := count_set SharedPtr.mPtr hi (some .null) p
  rw [Option.bind_some, ← ht] at hset
  exact hset.trans (Nat.zero_add _)

theorem counts_release (he : Exact s) (hi : s.handles[i]? = some (some h)) (hb : h.mRefCount = some b)
    (ht : t.handles = s.handles.set i (some .null)) (x : Nat) (c : UInt32)
    (hx : (s.decrement b).counts[x]? = some c) : c.toNat = t.owners x := by
  have howners := owners_null hi hb ht x
  rw [getElem?_decrement] at hx
  split at hx
  · subst x
    obtain ⟨d, hd, rfl⟩ := Option.map_eq_some_iff.mp hx
    have hcount := he.counts b d hd
    rw [if_pos rfl] at howners
    rw [toNat_decrement (by omega)]
    omega
  · have hcount := he.counts x c hx
    rw [if_neg ‹_›] at howners
    omega

theorem exact_decrement (hw : WellFormed s) (he : Exact s) (hi : s.handles[i]? = some (some h))
    (hb : h.mRefCount = some b) (hobject : s.objects[b]? = some h.mPtr) (hmore : s.owners b ≠ 1) :
    Exact ((s.decrement b).store i .null) := by
  have hlength : ((s.decrement b).store i .null).counts.length = s.counts.length := List.length_modify _ _ _
  have hpos := owners_pos (List.mem_of_getElem? hi) hb
  have howners (x : Nat) : s.owners x = 0 ↔ owners x ((s.decrement b).store i .null) = 0 := by
    have hx := owners_null (t := (s.decrement b).store i .null) hi hb rfl x
    split at hx
    · subst x
      omega
    · omega
  have hholders (p : Nat) : s.holders p = 0 ↔ holders p ((s.decrement b).store i .null) = 0 := by
    have hp := holders_null (t := (s.decrement b).store i .null) hi rfl p
    cases hptr : h.mPtr with
    | none =>
        rw [hptr, Option.toList_none, List.count_nil] at hp
        omega
    | some q =>
        rw [hptr, count_some] at hp
        split at hp
        · subst p
          have hw' : WellFormed ((s.decrement b).store i .null) := (hw.decrement b).store (.inl rfl) i
          have hleft := hw'.holders_pos (hobject.trans (congrArg some hptr))
            (Nat.pos_of_ne_zero (mt (howners b).mpr (Nat.ne_of_gt hpos)))
          omega
        · omega
  exact he.carry hlength rfl ⟨rfl, rfl⟩ howners hholders (counts_release he hi hb rfl)

/-- What is deleted with a handle must have had no other one. -/
theorem delete_iff {deleted holders holders' : Nat} {q : Option Nat} (h : deleted = if holders = 0 then 1 else 0)
    (hq : q.toList.count p + holders' = holders) :
    (q = some p → holders = 1) ↔ q.toList.count p + deleted = if holders' = 0 then 1 else 0 := by
  cases q with
  | none =>
      rw [Option.toList_none, List.count_nil, Nat.zero_add] at hq ⊢
      exact iff_of_true (by simp) (hq ▸ h)
  | some q =>
      rw [count_some] at hq ⊢
      by_cases hqp : q = p
      · rw [if_pos hqp] at hq ⊢
        rw [if_neg (by omega)] at h
        rw [h, Option.some.injEq]
        constructor
        · intro hone
          rw [if_pos (by have := hone hqp; omega)]
        · intro hdeleted _
          split at hdeleted
          · omega
          · omega
      · rw [if_neg hqp, Nat.zero_add] at hq ⊢
        exact iff_of_true (by simp [hqp]) (hq ▸ h)

theorem exact_delete (he : Exact s) (hi : s.handles[i]? = some (some h)) (hb : h.mRefCount = some b)
    (hobject : s.objects[b]? = some h.mPtr) (hlast : s.owners b = 1) :
    (∀ p ∈ h.mPtr, s.holders p = 1) ↔ Exact (((s.decrement b).delete h b).store i .null) := by
  have hholders (p : Nat) := holders_null (t := ((s.decrement b).delete h b).store i .null) hi rfl p
  have hlength : ((s.decrement b).delete h b).counts.length = s.counts.length := List.length_modify _ _ _
  have hcount (p : Nat) : (h.mPtr.toList ++ s.deletedObjects).count p =
      h.mPtr.toList.count p + s.deletedObjects.count p :=
    List.count_append
  constructor
  · intro hsole
    refine ⟨counts_release he hi hb rfl, fun x hx => ?_, fun p hp => ?_⟩
    · have hblock := he.blocks x (hlength ▸ hx)
      have howners := owners_null (t := ((s.decrement b).delete h b).store i .null) hi hb rfl x
      rw [← count_some] at howners
      change ((some b).toList ++ s.deletedCounts).count x = _
      rw [List.count_append]
      refine (delete_iff hblock howners).mp (fun hbx => ?_)
      cases hbx
      exact hlast
    · exact (hcount p).trans ((delete_iff (he.objects p hp) (hholders p)).mp (hsole p))
  · intro ht p hp
    have hin : some p ∈ s.objects := hp ▸ List.mem_of_getElem? hobject
    exact (delete_iff (he.objects p hin) (hholders p)).mpr ((hcount p).symm.trans (ht.objects p hin)) hp

theorem counts_release_eq (hb : h.mRefCount = some b) : (s.release h).counts = (s.decrement b).counts := by
  rw [release, hb]
  dsimp only
  split <;> rfl

theorem exact_release (hw : WellFormed s) (he : Exact s) (hi : s.handles[i]? = some (some h)) :
    (h.mRefCount.bind (s.counts[·]?) = some 1 → ∀ p ∈ h.mPtr, s.holders p = 1) ↔
      Exact ((s.release h).store i .null) := by
  rcases hw.points h (List.mem_of_getElem? hi) with rfl | ⟨b, hb, hobject⟩
  · refine iff_of_true (by simp [SharedPtr.null]) ?_
    rw [release]
    exact (store_same hi).symm ▸ he
  have hlt : b < s.counts.length := hw.length ▸ (List.getElem?_eq_some_iff.mp hobject).1
  have hc := List.getElem?_eq_getElem hlt
  have hcount := he.counts b _ hc
  have hpos := owners_pos (List.mem_of_getElem? hi) hb
  have hone : s.counts[b] = 1 ↔ s.owners b = 1 := by
    rw [← hcount]
    exact UInt32.toNat_inj.symm
  have hzero : (s.decrement b).counts[b]? = some 0 ↔ s.owners b = 1 := by
    rw [getElem?_decrement, if_pos rfl, hc, Option.map_some, Option.some.injEq, ← UInt32.toNat_inj,
      toNat_decrement (by omega), hcount, UInt32.toNat_zero]
    omega
  rw [hb, Option.bind_some, hc, Option.some.injEq, hone, release, hb]
  dsimp only
  by_cases hlast : s.owners b = 1
  · rw [if_pos (hzero.mpr hlast), forall_prop_of_true hlast]
    exact exact_delete he hi hb hobject hlast
  · rw [if_neg (mt hzero.mp hlast)]
    exact iff_of_true (fun h => absurd h hlast) (exact_decrement hw he hi hb hobject hlast)

theorem room_release (he : Exact s) (hi : some h ∈ s.handles) (r : Option Nat) :
    (h.mRefCount = r ∨ Room r s) ↔ Room r (s.release h) := by
  cases r with
  | none => exact iff_of_true (.inr (by simp [Room])) (by simp [Room])
  | some x =>
      cases hb : h.mRefCount with
      | none =>
          rw [release, hb]
          exact or_iff_right (by simp)
      | some b =>
          rw [Room, Room, counts_release_eq hb, Option.bind_some, Option.bind_some, getElem?_decrement]
          by_cases hbx : b = x
          · subst x
            refine iff_of_true (.inl rfl) ?_
            rw [if_pos rfl]
            intro hmax
            obtain ⟨c, hc, hm⟩ := Option.map_eq_some_iff.mp hmax
            have hpos := owners_pos hi hb
            have hcount := he.counts b c hc
            have hnat := congrArg UInt32.toNat hm
            rw [toNat_decrement (by omega)] at hnat
            have hlt := c.toNat_lt
            change c.toNat - 1 = 4294967295 at hnat
            omega
          · rw [if_neg hbx]
            exact or_iff_right (by simpa using hbx)

theorem WellFormed.owners_eq_zero (hw : WellFormed s) : s.owners s.counts.length = 0 := by
  refine List.count_eq_zero.mpr (fun hin => ?_)
  obtain ⟨o, ho, hr⟩ := List.mem_filterMap.mp hin
  obtain ⟨h, rfl, hr⟩ := Option.bind_eq_some_iff.mp hr
  rcases hw.points h ho with rfl | ⟨b, hb, hobject⟩
  · cases hr
  · cases hr.symm.trans hb
    exact absurd (List.getElem?_eq_some_iff.mp hobject).1 (by rw [hw.length]; exact Nat.lt_irrefl _)

theorem exact_construct (hw : WellFormed s) (he : Exact s) (q : Option Nat) :
    (∀ p ∈ q, p ∉ s.deletedObjects) ↔ Exact (s.construct q) := by
  have howners (x : Nat) : owners x (s.construct q) = (if s.counts.length = x then 1 else 0) + s.owners x := by
    rw [← count_some]
    exact count_push SharedPtr.mRefCount s.handles x
  have hholders (p : Nat) : holders p (s.construct q) = q.toList.count p + s.holders p :=
    count_push SharedPtr.mPtr s.handles p
  have hcounts : (s.construct q).counts = s.counts ++ [1] := rfl
  constructor
  · intro hq
    refine ⟨fun x c hx => ?_, fun x hx => ?_, fun p hp => ?_⟩
    · rw [howners]
      rw [hcounts, List.getElem?_append] at hx
      split at hx
      · rw [if_neg (by omega), Nat.zero_add]
        exact he.counts x c hx
      · obtain ⟨hx, hc⟩ := List.getElem?_eq_some_iff.mp hx
        have hlast : x = s.counts.length := by
          rw [List.length_singleton] at hx
          omega
        subst x
        rw [List.getElem_singleton] at hc
        rw [if_pos rfl, hw.owners_eq_zero, ← hc]
        rfl
    · rw [howners]
      by_cases hlast : s.counts.length = x
      · subst x
        rw [if_pos rfl, if_neg (by omega)]
        exact List.count_eq_zero.mpr (fun hin => absurd (hw.deletedCounts _ hin) (Nat.lt_irrefl _))
      · rw [if_neg hlast, Nat.zero_add]
        rw [hcounts, List.length_append, List.length_singleton] at hx
        exact he.blocks x (by omega)
    · rw [hholders]
      by_cases hqp : q = some p
      · rw [hqp, count_some, if_pos rfl, if_neg (by omega)]
        exact List.count_eq_zero.mpr (hq p hqp)
      · have hin : some p ∈ s.objects := by
          refine (List.mem_append.mp hp).resolve_right (fun h => hqp ?_)
          exact (List.mem_singleton.mp h).symm
        have hnone : q.toList.count p = 0 := List.count_eq_zero.mpr (fun h => hqp (Option.mem_toList.mp h))
        rw [hnone, Nat.zero_add]
        exact he.objects p hin
  · intro ht p hp
    have hin : some p ∈ (s.construct q).objects := List.mem_append_right _ (List.mem_singleton.mpr hp.symm)
    have hdeleted := ht.objects p hin
    have hqp : q = some p := hp
    rw [hholders, hqp, count_some, if_pos rfl, if_neg (by omega)] at hdeleted
    exact List.count_eq_zero.mp hdeleted

theorem exact_push_null (he : Exact s) : Exact (s.push .null) := by
  apply exact_congr _ _ he
  · intro b
    exact (count_push SharedPtr.mRefCount s.handles b).trans (Nat.zero_add _)
  · intro p
    exact (count_push SharedPtr.mPtr s.handles p).trans (Nat.zero_add _)

theorem exact_copyConstruct (hw : WellFormed s) (he : Exact s) (hj : some other ∈ s.handles) :
    Room other.mRefCount s ↔ Exact ((s.push other).increment other.mRefCount) := by
  have hnew : (s.push .null).handles[s.handles.length]? = some (some .null) := List.getElem?_concat_length
  have hshare := exact_share (hw.push (.inl rfl)) hnew (List.mem_append_left _ hj)
  have hsame : (s.push .null).store s.handles.length other = s.push other := by
    simp [push, store]
  rw [hsame, and_iff_right (exact_push_null he)] at hshare
  exact hshare.symm

theorem exact_copyAssign (hw : WellFormed s) (he : Exact s) (hne : i ≠ j) (hi : s.handles[i]? = some (some h))
    (hj : s.handles[j]? = some (some other)) :
    (h.mRefCount.bind (s.counts[·]?) = some 1 → ∀ p ∈ h.mPtr, s.holders p = 1) ∧
        (h.mRefCount = other.mRefCount ∨ Room other.mRefCount s) ↔
      Exact (((s.release h).store i other).increment other.mRefCount) := by
  have hhandles := (release_keeps h s).2
  have hw' : WellFormed ((s.release h).store i .null) :=
    (hw.release (hw.points h (List.mem_of_getElem? hi))).store (.inl rfl) i
  have hnull : ((s.release h).store i .null).handles[i]? = some (some .null) := by
    rw [store, hhandles]
    exact List.getElem?_set_self (List.getElem?_eq_some_iff.mp hi).1
  have hother : some other ∈ ((s.release h).store i .null).handles := by
    rw [store, hhandles]
    exact List.mem_of_getElem? ((List.getElem?_set_ne hne).trans hj)
  have hset : ((s.release h).store i .null).store i other = (s.release h).store i other := by
    simp [store]
  have hshare := exact_share hw' hnull hother
  rw [hset] at hshare
  rw [hshare]
  exact and_congr (exact_release hw he hi) (room_release he (List.mem_of_getElem? hi) _)

theorem exact_moved (hne : i ≠ j) (hi : s.handles[i]? = some (some h)) (hj : s.handles[j]? = some (some other)) :
    Exact (s.store i .null) ↔ Exact ((s.store i other).store j .null) := by
  refine exact_handles (s := s) (fun f hf x => ?_)
  have hnull := count_set f hi (some .null) x
  have hset := count_set f hi (some other) x
  have hget : (s.handles.set i (some other))[j]? = some (some other) := (List.getElem?_set_ne hne).trans hj
  have hleft := count_set f hget (some .null) x
  rw [Option.bind_some, Option.bind_some, hf, Option.toList_none, List.count_nil] at hnull hleft
  rw [Option.bind_some, Option.bind_some] at hset
  change _ = (((s.handles.set i (some other)).set j (some .null)).filterMap (·.bind f)).count x
  omega

theorem exact_ended (hi : s.handles[i]? = some (some h)) :
    Exact (s.store i .null) ↔ Exact { s with handles := s.handles.set i none } := by
  refine exact_handles (s := s) (fun f hf x => ?_)
  have hnull := count_set f hi (some .null) x
  have hnone := count_set f hi none x
  rw [Option.bind_some, Option.bind_some, hf] at hnull
  rw [Option.bind_some, Option.bind_none] at hnone
  exact Nat.add_left_cancel (hnull.trans hnone.symm)

theorem exact_endOfLife (hw : WellFormed s) (he : Exact s) (hi : s.handles[i]? = some (some h)) :
    h.mRefCount = none ↔ Exact { s with handles := s.handles.set i none } := by
  apply exact_lose hw he (hw.points h (List.mem_of_getElem? hi))
  · intro b
    exact (count_set SharedPtr.mRefCount hi none b).trans (Nat.zero_add _)
  · intro p
    exact (count_set SharedPtr.mPtr hi none p).trans (Nat.zero_add _)

theorem exact_moveConstruct (he : Exact s) (hj : s.handles[j]? = some (some other)) :
    Exact ((s.store j .null).push other) := by
  have hmove (f : SharedPtr → Option Nat) (hf : f .null = none) (x : Nat) :
      ((s.handles.set j (some .null) ++ [some other]).filterMap (·.bind f)).count x =
        (s.handles.filterMap (·.bind f)).count x := by
    have hset := count_set f hj (some .null) x
    rw [Option.bind_some, Option.bind_some, hf, Option.toList_none, List.count_nil, Nat.zero_add] at hset
    rw [count_push, Option.bind_some, hset]
  exact exact_congr (s := s) (hmove SharedPtr.mRefCount rfl) (hmove SharedPtr.mPtr rfl) he

theorem exact_moveAssign (hw : WellFormed s) (he : Exact s) (hne : i ≠ j) (hi : s.handles[i]? = some (some h))
    (hj : s.handles[j]? = some (some other)) :
    h.mRefCount = none ↔ Exact ((s.store j .null).store i other) := by
  have hi' : (s.handles.set j (some .null))[i]? = some (some h) := (List.getElem?_set_ne hne.symm).trans hi
  have hmove (f : SharedPtr → Option Nat) (hf : f .null = none) (x : Nat) :
      (f h).toList.count x + (((s.handles.set j (some .null)).set i (some other)).filterMap (·.bind f)).count x =
        (s.handles.filterMap (·.bind f)).count x := by
    have hset := count_set f hj (some .null) x
    rw [Option.bind_some, Option.bind_some, hf, Option.toList_none, List.count_nil, Nat.zero_add] at hset
    exact (count_set f hi' (some other) x).trans hset
  exact exact_lose (s := s) hw he (hw.points h (List.mem_of_getElem? hi)) (hmove SharedPtr.mRefCount rfl)
    (hmove SharedPtr.mPtr rfl)

theorem counted_iff {a : Act} (hw : WellFormed s) (he : Exact s) (hs : step a s = some t) :
    Counted a s ↔ Exact t := by
  cases a with
  | default =>
      cases hs
      exact iff_of_true trivial (exact_push_null he)
  | construct p =>
      cases hs
      exact exact_construct hw he p
  | copyConstruct j =>
      obtain ⟨other, hj, rfl⟩ := Option.map_eq_some_iff.mp hs
      rw [Counted, refersTo, hj]
      exact exact_copyConstruct hw he (mem_of_handle hj)
  | copyAssign i j =>
      obtain ⟨this, hi, hs⟩ := Option.bind_eq_some_iff.mp hs
      obtain ⟨rhs, hj, rfl⟩ := Option.map_eq_some_iff.mp hs
      rw [Counted, Sole, refersTo, refersTo, pointsTo, hi, hj]
      split
      · exact iff_of_true (.inl ‹_›) he
      · rw [or_iff_right ‹_›]
        exact exact_copyAssign hw he ‹_› (handle_eq_some.mp hi) (handle_eq_some.mp hj)
  | moveConstruct j =>
      obtain ⟨other, hj, rfl⟩ := Option.map_eq_some_iff.mp hs
      exact iff_of_true trivial (exact_moveConstruct he (handle_eq_some.mp hj))
  | moveAssign i j =>
      obtain ⟨this, hi, hs⟩ := Option.bind_eq_some_iff.mp hs
      obtain ⟨rhs, hj, rfl⟩ := Option.map_eq_some_iff.mp hs
      rw [Counted, refersTo, hi]
      split
      · exact iff_of_true (.inl ‹_›) he
      · rw [or_iff_right ‹_›]
        exact exact_moveAssign hw he ‹_› (handle_eq_some.mp hi) (handle_eq_some.mp hj)
  | endOfLife i =>
      obtain ⟨this, hi, rfl⟩ := Option.map_eq_some_iff.mp hs
      rw [Counted, refersTo, hi]
      exact exact_endOfLife hw he (handle_eq_some.mp hi)

theorem wellFormed_start : WellFormed ⟨[], [], [], [], []⟩ := by
  refine ⟨rfl, ?_, ?_, ?_⟩
  · intro h hin
    cases hin
  · intro p hin
    cases hin
  · intro b hin
    cases hin

theorem exact_start : Exact ⟨[], [], [], [], []⟩ := by
  refine ⟨?_, ?_, ?_⟩
  · intro b c hc
    cases hc
  · intro b hlt
    cases hlt
  · intro p hin
    cases hin

/-- The counts stay exact as long as the handles that go away without a release refer to
nothing; a step that breaks the condition breaks them. -/
theorem counts_owners (s : Handles) (h : Reachable start step Counted s) :
    Exact s ∧ ∀ a t, step a s = some t → (Counted a s ↔ Exact t) := by
  have hi : WellFormed s ∧ Exact s := by
    apply h.invariant (I := fun s => WellFormed s ∧ Exact s)
    · rintro _ rfl
      exact ⟨wellFormed_start, exact_start⟩
    · rintro a s t ⟨hw, he⟩ hc hs
      exact ⟨wellFormed_step hw hs, (counted_iff hw he hs).mp hc⟩
  exact ⟨hi.2, fun a t hs => counted_iff hi.1 hi.2 hs⟩

/-- Copies, moves and assignments between two handles of one object; the object of the
handle that is assigned last goes with its block. -/
theorem counts_owners_assigned :
    ∃ s, Reachable start step Counted s ∧ s.owners 0 = 3 ∧ s.owners 1 = 0 ∧ s.deletedObjects = [8] ∧ Exact s := by
  have hrun : (run (guarded step Counted) [.construct (some 7), .copyConstruct 0, .copyAssign 0 0, .copyAssign 1 0,
      .moveConstruct 1, .endOfLife 1, .construct (some 8), .default, .moveAssign 4 3, .copyAssign 4 2]
      ⟨[], [], [], [], []⟩).map (fun s => (s.owners 0, s.owners 1, s.deletedObjects)) =
        some (3, 0, [8]) := by decide +kernel
  obtain ⟨s, hr, he⟩ := reachable_of_run start hrun rfl
  simp only [Prod.mk.injEq] at he
  exact ⟨s, hr, he.1, he.2.1, he.2.2, (counts_owners s hr).1⟩

/-- A handle that leaves its scope leaves its count and its object. -/
theorem handle_leaves_scope : ¬ ∀ s, Reachable start step always s → Exact s := by
  intro h
  have hrun : (run (guarded step always) [.construct (some 7), .endOfLife 0] ⟨[], [], [], [], []⟩).map
      (fun s => (s.counts, s.owners 0)) = some ([1], 0) := by decide +kernel
  obtain ⟨s, hr, he⟩ := reachable_of_run start hrun rfl
  simp only [Prod.mk.injEq] at he
  have hcount := (h s hr).counts 0 1 (by rw [he.1]; rfl)
  rw [he.2] at hcount
  cases hcount

end Handles

end LearnNote.Misc
