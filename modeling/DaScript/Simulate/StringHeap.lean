import DaScript.Foundations.CString
import DaScript.Misc.AnyHash
import DaScript.Misc.LinearChunks
import DaScript.Simulate.Heap

/-!
# Simulate/StringHeap — strings, and the map they are interned in

`StringHeapAllocator` of `simulate/heap.h` and `simulate/heap.cpp`, and what the persistent and the
linear heap override of it.  With interning on, a text that is in the map already is not allocated
a second time: the string of its entry is handed out again.

An entry is two words that point into memory: what it stands for is read there at every lookup, and
nothing but the heap's own functions takes it out when the memory goes.
-/

open Function

namespace DaScript

open Bitmap

/-! ## The intern map -/

structure StrHashEntry where
  ptr : ℕ
  length : ℕ
  deriving DecidableEq, Repr

/-- `StrEqPred` -/
def strEq (mem : Memory) (a b : StrHashEntry) : Bool :=
  a.ptr = b.ptr ∨ a.length = b.length ∧ strncmp mem a.ptr b.ptr a.length = 0

/-- `StrHashPred` -/
def strHash (mem : Memory) (a : StrHashEntry) : UInt64 := hashBlock64 (bytes mem a.ptr a.length)

/-- An entry of the set, with the bytes it had when it came in; the set keeps their hash. -/
structure InternEntry extends StrHashEntry where
  text : List UInt8

/-- `das_string_set`: a hash set, which compares the kept hash and then the keys. -/
abbrev StringSet := List InternEntry

namespace StringSet

/-- The entry is taken for this key. -/
def isKey (mem : Memory) (key : StrHashEntry) (e : InternEntry) : Bool :=
  hashBlock64 e.text = strHash mem key ∧ strEq mem e.toStrHashEntry key

/-- The entry a key makes. -/
def entry (mem : Memory) (key : StrHashEntry) : InternEntry :=
  { key with text := bytes mem key.ptr key.length }

def find (mem : Memory) (set : StringSet) (key : StrHashEntry) : Option InternEntry :=
  set.find? (isKey mem key)

def insert (mem : Memory) (set : StringSet) (key : StrHashEntry) : StringSet :=
  if (find mem set key).isSome then set else entry mem key :: set

def erase (mem : Memory) (set : StringSet) (key : StrHashEntry) : StringSet :=
  set.eraseP (isKey mem key)

/-- The loop that interns these strings one after the other, as long as they are. -/
def insertAll (mem : Memory) : List ℕ → StringSet → Except Fault StringSet
  | [], set => pure set
  | str :: strs, set => do
    let n ← strlen mem str
    insertAll mem strs (insert mem set ⟨str, n % 2 ^ 32⟩)

end StringSet

/-! ## The heap below -/

/-- **The virtual functions `StringHeapAllocator` calls**, with the memory they work on. -/
class HeapAllocator (σ : Type) where
  mem : σ → Memory
  setMem : σ → Memory → σ
  implAllocate : σ → Posix → ℕ → Except Fault (Option ℕ × σ)
  implFree : σ → ℕ → ℕ → Except Fault σ
  isOwnPtr : σ → ℕ → ℕ → Except Fault (Bool × σ)
  /-- what the override of `reset` does -/
  reset : σ → σ

instance : HeapAllocator PersistentHeap where
  mem h := h.model.mem
  setMem h mem := { h with model := { h.model with mem := mem } }
  implAllocate := PersistentHeap.implAllocate
  implFree := PersistentHeap.implFree
  isOwnPtr h ptr size := do
    let (own, model) ← h.model.isOwnPtr ptr size
    pure (own, { h with model := model })
  reset := PersistentHeap.reset

/-- `LinearStringAllocator`, less its intern map. -/
structure LinearHeap where
  counters : HeapCounters
  model : LinearChunks

namespace LinearHeap

/-- `limit==0 || model.bytesAllocated()+size<=limit` -/
def admits (h : LinearHeap) (size : ℕ) : Bool :=
  h.counters.limit = 0 ∨ (h.model.bytesAllocated + size) % 2 ^ 64 ≤ h.counters.limit

def implAllocate (h : LinearHeap) (posix : Posix) (size : ℕ) :
    Except Fault (Option ℕ × LinearHeap) :=
  if h.admits size then do
    let (ptr, model) ← h.model.allocate posix size
    pure (ptr, { counters := PersistentHeap.count h.counters size, model := model })
  else pure (none, h)

def implFree (h : LinearHeap) (ptr size : ℕ) : Except Fault LinearHeap := do
  let model ← h.model.free ptr size
  pure
    { counters := { h.counters with
        totalBytesDeleted := (h.counters.totalBytesDeleted + size) % 2 ^ 64 }
      model := model }

def reset (h : LinearHeap) : LinearHeap := { h with model := h.model.reset }

end LinearHeap

instance : HeapAllocator LinearHeap where
  mem h := h.model.mem
  setMem h mem := { h with model := { h.model with mem := mem } }
  implAllocate := LinearHeap.implAllocate
  implFree := LinearHeap.implFree
  isOwnPtr h ptr _ := pure (h.model.isOwnPtr ptr, h)
  reset := LinearHeap.reset

/-! ## The string heap -/

/-- `StringHeapAllocator`, of one of the heaps. -/
structure StringHeap (σ : Type) where
  heap : σ
  internMap : StringSet
  needIntern : Bool

namespace StringHeap

variable {σ : Type} [HeapAllocator σ]

/-- The memory the heap's strings lie in. -/
def mem (h : StringHeap σ) : Memory := HeapAllocator.mem h.heap

def setIntern (h : StringHeap σ) (enable : Bool) : StringHeap σ :=
  { h with needIntern := enable, internMap := if enable then h.internMap else [] }

/-- `StringHeapAllocator::reset` -/
def clear (h : StringHeap σ) : StringHeap σ := { h with internMap := [] }

/-- `PersistentStringAllocator::reset` and `LinearStringAllocator::reset`, which stand in for
`StringHeapAllocator::reset` and do not call it. -/
def reset (h : StringHeap σ) : StringHeap σ := { h with heap := HeapAllocator.reset h.heap }

def intern (h : StringHeap σ) (str length : ℕ) : Except Fault (Option ℕ) :=
  if h.needIntern then
    if length ≤ uint32Max then
      pure ((h.internMap.find h.mem ⟨str, length % 2 ^ 32⟩).map (·.ptr))
    else .error (.assert "intern requires length < 4GB")
  else pure none

def recognize (h : StringHeap σ) : Option ℕ → Except Fault (StringHeap σ)
  | none => pure h
  | some str => do
    let n ← strlen h.mem str
    let length := n % 2 ^ 32
    if h.needIntern then do
      let (own, heap) ← HeapAllocator.isOwnPtr h.heap str (alignUp 15 (length + 1))
      pure { h with
        heap := heap
        internMap := if own then h.internMap.insert h.mem ⟨str, length⟩ else h.internMap }
    else pure h

def internOk (h : StringHeap σ) (length : ℕ) : Bool := h.needIntern ∧ length ≤ uint32Max

/-- The string `impl_allocateString` hands out again. -/
def again (h : StringHeap σ) (text : Option ℕ) (length : ℕ) : Option ℕ :=
  if h.internOk length then
    text.bind fun text => (h.internMap.find h.mem ⟨text, length % 2 ^ 32⟩).map (·.ptr)
  else none

/-- A string is written: the text, when there is one, and a zero behind it. -/
def writeString (mem : Memory) (str : ℕ) (text : Option ℕ) (length : ℕ) : Memory :=
  update (text.elim mem fun text => memcpy mem str text length) ((str + length) % 2 ^ 64) 0

/-- The intern map once a string is written. -/
def remember (h : StringHeap σ) (mem : Memory) (str : ℕ) (text : Option ℕ) (length : ℕ) :
    StringSet :=
  if h.internOk length ∧ text.isSome then h.internMap.insert mem ⟨str, length % 2 ^ 32⟩
  else h.internMap

/-- `impl_allocateString`.  Out of memory the pointer is null; with a context, an error is thrown
then. -/
def implAllocateString (h : StringHeap σ) (posix : Posix) (text : Option ℕ) (length : ℕ) :
    Except Fault (Option ℕ × StringHeap σ) :=
  if length = 0 then pure (none, h)
  else
    match h.again text length with
    | some ptr => pure (some ptr, h)
    | none => do
      let (str, heap) ← HeapAllocator.implAllocate h.heap posix ((length + 1) % 2 ^ 64)
      match str with
      | none => pure (none, { h with heap := heap })
      | some str =>
        let mem := writeString (HeapAllocator.mem heap) str text length
        pure (some str,
          { h with
            heap := HeapAllocator.setMem heap mem
            internMap := h.remember mem str text length })

def implFreeString (h : StringHeap σ) (text length : ℕ) : Except Fault (StringHeap σ) := do
  let internMap := if h.internOk length then h.internMap.erase h.mem ⟨text, length % 2 ^ 32⟩
    else h.internMap
  let heap ← HeapAllocator.implFree h.heap text ((length + 1) % 2 ^ 64)
  pure { h with heap := heap, internMap := internMap }

end StringHeap

/-! ## Collections of the persistent string heap -/

/-- The entries of a deck `forEachString` visits. -/
def Deck.strings (d : Deck) : List ℕ :=
  (List.range (d.total / 32)).flatMap fun i =>
    ((List.range 32).filter fun j => d.bits i &&& flag j ≠ 0#32).map fun j =>
      d.data + (i * 32 + j) * d.size

/-- `forEachString`: what it visits, in order. -/
def MemoryModel.strings (m : MemoryModel) : List ℕ :=
  m.shoe.decks.flatMap Deck.strings ++ m.bigStuff.map Block.ptr

namespace StringHeap

/-- The model of a persistent string heap is replaced. -/
def setModel (h : StringHeap PersistentHeap) (m : MemoryModel) : StringHeap PersistentHeap :=
  { h with heap := { h.heap with model := m } }

def sweep (h : StringHeap PersistentHeap) : Except Fault (StringHeap PersistentHeap) := do
  let model ← h.heap.model.sweep
  if h.needIntern then do
    let internMap ← StringSet.insertAll model.mem model.strings []
    pure { h.setModel model with internMap := internMap }
  else pure (h.setModel model)

/-- A collection: `mark()`, then these marks, then `sweep()`. -/
def collect (h : StringHeap PersistentHeap) (posix : Posix) (marks : List Block) :
    Except Fault (List Bool × StringHeap PersistentHeap) := do
  let m ← h.heap.model.beginMark posix
  let (firsts, m) ← MemoryModel.markAll MemoryModel.stringMark marks m
  let h ← (h.setModel m).sweep
  pure (firsts, h)

end StringHeap

end DaScript
