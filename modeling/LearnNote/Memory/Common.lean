import LearnNote.Lib.Extents
import LearnNote.Lib.Unsigned
import Mathlib.Data.Nat.Bitwise

namespace LearnNote.Memory

open Lib.Extents

def alignment : Nat := 8
def maxBytes : Nat := 256 * 1024
def freeListSize : Nat := maxBytes / alignment
def pageSize : Nat := 4096

namespace SizeClass

def ceil (bytes : Nat) : Nat := sizeT (bytes + alignment - 1) &&& (2 ^ 64 - 1 - (alignment - 1))

def getIndex (bytes : Nat) : Nat := (max bytes alignment + alignment - 1) / alignment - 1

def blockSize (index : Nat) : Nat := (index + 1) * alignment

theorem getIndex_lt (bytes : Nat) (h : bytes ≤ maxBytes) : getIndex bytes < freeListSize := by
  unfold getIndex freeListSize maxBytes alignment at *
  omega

theorem le_blockSize (bytes : Nat) : max bytes 1 ≤ blockSize (getIndex bytes) := by
  unfold blockSize getIndex alignment
  omega

end SizeClass

/-- Memory as the words it holds, one word for each address a pointer is
stored at. Addresses and words are numbers below 2 ^ 64; 0 is null. -/
abbrev Words := Nat → Nat

def memset (m : Words) (p size : Nat) : Words := fun a => if p ≤ a ∧ a < p + size then 0 else m a

theorem memset_of_mem {m : Words} {p size a : Nat} (h : p ≤ a) (h' : a < p + size) :
    memset m p size a = 0 := if_pos ⟨h, h'⟩

theorem memset_of_notMem {m : Words} {p size a : Nat} (h : a < p ∨ p + size ≤ a) :
    memset m p size a = m a := by
  rw [memset, if_neg]
  omega

/-- What the operating system knows of the process: the words of its memory
and the byte ranges it has mapped. -/
structure Os where
  memory : Words
  mapped : List (Nat × Nat)

/-- The kernel may map a page-aligned range that meets no earlier one. -/
def Os.Fresh (os : Os) (p size : Nat) : Prop :=
  p ≠ 0 ∧ size ≠ 0 ∧ pageSize ∣ p ∧ p + size ≤ 2 ^ 64 ∧ ∀ r ∈ os.mapped, Apart (p, size) r

instance (os : Os) (p size : Nat) : Decidable (os.Fresh p size) :=
  inferInstanceAs (Decidable (_ ∧ _))

/-- An anonymous mapping. The answer is the kernel's choice; it is MAP_FAILED
when there is none or the choice is not a fresh range. -/
def Os.mmap (os : Os) (answer : Option Nat) (size : Nat) : Option (Nat × Os) :=
  match answer with
  | none => none
  | some p => if os.Fresh p size then some (p, { os with mapped := (p, size) :: os.mapped }) else none

end LearnNote.Memory
