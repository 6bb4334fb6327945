import LearnNote.Lib.Linked
import LearnNote.Lib.OrdMap
import LearnNote.Memory.Common

namespace LearnNote.Memory

open Lib Linked

structure Span where
  pageAddr : Nat
  numPages : Nat
  next : Nat

/-- The members of PageCache, with the Span objects that are alive on the heap.
spanMap holds allocated spans and spans that were given back. -/
structure PageCache where
  spans : Nat → Option Span
  freeSpans : OrdMap Nat Nat
  spanMap : OrdMap Nat Nat

/-- What the environment answers to one call: the address mmap maps at, none
for MAP_FAILED, and the address of the new Span, none for bad_alloc. -/
structure Env where
  mmap : Option Nat
  newSpan : Option Nat

/-- How a call ends: with a pointer, or with the exception bad_alloc. -/
inductive Ret
  | ptr (p : Nat)
  | badAlloc
deriving DecidableEq

namespace PageCache

def initial : PageCache := ⟨fun _ => none, .empty, .empty⟩

def systemAlloc (env : Env) (numPages : Nat) (os : Os) : Nat × Os :=
  match os.mmap env.mmap (sizeT (numPages * pageSize)) with
  | none => (0, os)
  | some (p, os) => (p, { os with memory := memset os.memory p (sizeT (numPages * pageSize)) })

theorem systemAlloc_eq (env : Env) (n : Nat) (os : Os) :
    (systemAlloc env n os = (0, os)) ∨ ∃ a, env.mmap = some a ∧ os.Fresh a (sizeT (n * pageSize)) ∧
      systemAlloc env n os =
        (a, ⟨memset os.memory a (sizeT (n * pageSize)), (a, sizeT (n * pageSize)) :: os.mapped⟩) := by
  unfold systemAlloc Os.mmap
  cases hm : env.mmap with
  | none => exact .inl rfl
  | some a =>
      by_cases hf : os.Fresh a (sizeT (n * pageSize))
      · exact .inr ⟨a, rfl, hf, by simp [hf]⟩
      · exact .inl (by simp [hf])

/-- The address operator new returns is that of no living object. -/
def newSpan (env : Env) (c : PageCache) : Option Nat :=
  env.newSpan.filter (fun p => p ≠ 0 ∧ c.spans p = none)

def setNext (spans : Nat → Option Span) (p next : Nat) : Nat → Option Span :=
  Function.update spans p ((spans p).map (fun sp => { sp with next := next }))

def insertFree (span numPages : Nat) (c : PageCache) : PageCache :=
  { c with
    spans := setNext c.spans span ((c.freeSpans.find? numPages).getD 0)
    freeSpans := c.freeSpans.insert numPages span }

def takeHead (k : Nat) (sp : Span) (c : PageCache) : PageCache :=
  { c with freeSpans := if sp.next ≠ 0 then c.freeSpans.insert k sp.next else c.freeSpans.erase k }

def split (span newSpan : Nat) (sp : Span) (numPages : Nat) (c : PageCache) : PageCache :=
  let rest := sp.numPages - numPages
  let c := { c with spans := Function.update c.spans newSpan (some ⟨sp.pageAddr + numPages * pageSize, rest, 0⟩) }
  let c := insertFree newSpan rest c
  { c with spans := Function.update c.spans span (some { sp with numPages := numPages }) }

def register (p span : Nat) (c : PageCache) : PageCache := { c with spanMap := c.spanMap.insert p span }

/-- The outer option is none when the call dereferences a null pointer. -/
def allocateSpan (env : Env) (numPages : Nat) (os : Os) (c : PageCache) : Option (Ret × Os × PageCache) :=
  match c.freeSpans.lowerBound numPages with
  | some (k, span) =>
      match c.spans span with
      | none => none
      | some sp =>
          let c := takeHead k sp c
          if sp.numPages > numPages then
            match newSpan env c with
            | none => some (.badAlloc, os, c)
            | some q => some (.ptr sp.pageAddr, os, register sp.pageAddr span (split span q sp numPages c))
          else some (.ptr sp.pageAddr, os, register sp.pageAddr span c)
  | none =>
      let (memory, os) := systemAlloc env numPages os
      if memory = 0 then some (.ptr 0, os, c)
      else
        match newSpan env c with
        | none => some (.badAlloc, os, c)
        | some q =>
            let c := { c with spans := Function.update c.spans q (some ⟨memory, numPages, 0⟩) }
            some (.ptr memory, os, register memory q c)

/-- The search for the predecessor of a span on a list: none when it follows a
dangling pointer or does not end within the fuel, some none when the span is
not found. -/
def findPrev (spans : Nat → Option Span) (nextSpan : Nat) : Nat → Nat → Option (Option Nat)
  | 0, _ => none
  | fuel + 1, prev =>
      match spans prev with
      | none => none
      | some sp =>
          if sp.next = 0 then some none
          else if sp.next = nextSpan then some (some prev)
          else findPrev spans nextSpan fuel sp.next

/-- Takes a span off the list of its size; the flag says whether it was there.
Looking the list up creates an empty one when there is none. -/
def unlink (fuel : Nat) (nextSpan : Nat) (nsp : Span) (c : PageCache) : Option (Bool × PageCache) :=
  let nextList := (c.freeSpans.find? nsp.numPages).getD 0
  let c := { c with freeSpans := c.freeSpans.insert nsp.numPages nextList }
  if nextList = nextSpan then
    some (true, { c with freeSpans := c.freeSpans.insert nsp.numPages nsp.next })
  else if nextList = 0 then some (false, c)
  else
    match findPrev c.spans nextSpan fuel nextList with
    | none => none
    | some none => some (false, c)
    | some (some prev) => some (true, { c with spans := setNext c.spans prev nsp.next })

/-- Merging with the span behind, when that is one of the free lists: it grows
and the Span object of the other is deleted. -/
def merge (fuel : Nat) (span : Nat) (nextAddr : Nat) (c : PageCache) : Option PageCache :=
  match c.spanMap.find? nextAddr with
  | none => some c
  | some nextSpan =>
      match c.spans nextSpan with
      | none => none
      | some nsp =>
          match unlink fuel nextSpan nsp c with
          | none => none
          | some (false, c) => some c
          | some (true, c) =>
              match c.spans span with
              | none => none
              | some sp => some { c with
                  spans := Function.update (Function.update c.spans span
                    (some { sp with numPages := sizeT (sp.numPages + nsp.numPages) })) nextSpan none
                  spanMap := c.spanMap.erase nextAddr }

def deallocateSpan (fuel : Nat) (p : Nat) (numPages : Nat) (c : PageCache) : Option PageCache :=
  match c.spanMap.find? p with
  | none => some c
  | some span =>
      match merge fuel span (sizeT (p + numPages * pageSize)) c with
      | none => none
      | some c =>
          match c.spans span with
          | none => none
          | some sp => some (insertFree span sp.numPages c)

end PageCache

end LearnNote.Memory
