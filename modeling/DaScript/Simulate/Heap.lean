import DaScript.Misc.MemoryModel

/-!
# Simulate/Heap — the persistent heap

`PersistentHeapAllocator` of `simulate/heap.h` and `simulate/heap.cpp`: a `MemoryModel` behind a
limit, and the two halves of marking.  `PersistentStringAllocator` has the same bodies over a model
that aligns to four bytes, except that its `mark` hands the shoe the length instead of the rounded
size (`stringMark`).
-/

namespace DaScript

/-- What `AnyHeapAllocator` keeps. -/
structure HeapCounters where
  limit : ℕ
  totalAllocations : ℕ
  totalBytesAllocated : ℕ
  totalBytesDeleted : ℕ

/-- `PersistentHeapAllocator`, and `PersistentStringAllocator` less its intern map. -/
structure PersistentHeap where
  counters : HeapCounters
  model : MemoryModel

namespace PersistentHeap

/-- `totalAllocations ++; totalBytesAllocated += size` -/
def count (c : HeapCounters) (size : ℕ) : HeapCounters :=
  { c with
    totalAllocations := c.totalAllocations + 1
    totalBytesAllocated := (c.totalBytesAllocated + size) % 2 ^ 64 }

/-- `limit==0 || model.bytesAllocated()+size<=limit` -/
def admits (h : PersistentHeap) (size : ℕ) : Bool :=
  h.counters.limit = 0 ∨ (h.model.bytesAllocated + size) % 2 ^ 64 ≤ h.counters.limit

def implAllocate (h : PersistentHeap) (posix : Posix) (size : ℕ) :
    Except Fault (Option ℕ × PersistentHeap) :=
  if h.admits size then do
    let (ptr, model) ← h.model.allocate posix size
    pure (ptr, { counters := count h.counters size, model := model })
  else pure (none, h)

def implFree (h : PersistentHeap) (ptr size : ℕ) : Except Fault PersistentHeap := do
  let (_, model) ← h.model.free ptr size
  pure
    { counters := { h.counters with
        totalBytesDeleted := (h.counters.totalBytesDeleted + size) % 2 ^ 64 }
      model := model }

/-- `impl_reallocate`; the difference of the sizes is taken modulo `2^64`. -/
def implReallocate (h : PersistentHeap) (posix : Posix) (ptr : Option ℕ) (oldSize newSize : ℕ) :
    Except Fault (Option ℕ × PersistentHeap) :=
  let difference := newSize + (2 ^ 64 - oldSize)
  if h.admits difference then do
    let (ptr, model) ← h.model.reallocate posix ptr oldSize newSize
    pure (ptr, { counters := count h.counters difference, model := model })
  else pure (none, h)

def reset (h : PersistentHeap) : PersistentHeap := { h with model := h.model.reset }

end PersistentHeap

namespace MemoryModel

/-- `mark()` of both persistent allocators. -/
def beginMark (m : MemoryModel) (posix : Posix) : Except Fault MemoryModel := do
  let shoe ← m.shoe.beforeGC posix
  pure { m with shoe := shoe }

/-- `mark(ptr,len)`, `shoeSize` being what the shoe is told: whether it is the first mark. -/
def markWith (shoeSize : ℕ) (m : MemoryModel) (ptr len : ℕ) : Except Fault (Bool × MemoryModel) :=
  let size := alignUp 15 len
  if size ≤ m.maxShoeAllocation then do
    let (first, shoe) ← m.shoe.mark ptr shoeSize
    pure (first, { m with shoe := shoe })
  else
    match m.bigStuff.find? fun b => b.ptr = ptr with
    | none => pure (false, m)
    | some it =>
      pure (it.size &&& pageGcMask = 0,
        { m with bigStuff := m.bigStuff.map fun b =>
            if b.ptr = ptr then ⟨b.ptr, b.size ||| pageGcMask⟩ else b })

/-- `PersistentHeapAllocator::mark(ptr,len)` -/
def heapMark (m : MemoryModel) (ptr len : ℕ) : Except Fault (Bool × MemoryModel) :=
  markWith (alignUp 15 len % 2 ^ 32) m ptr len

/-- `PersistentStringAllocator::mark(ptr,len)` -/
def stringMark (m : MemoryModel) (ptr len : ℕ) : Except Fault (Bool × MemoryModel) :=
  markWith (len % 2 ^ 32) m ptr len

/-- One mark after another: which were first. -/
def markAll (mark : MemoryModel → ℕ → ℕ → Except Fault (Bool × MemoryModel)) :
    List Block → MemoryModel → Except Fault (List Bool × MemoryModel)
  | [], m => pure ([], m)
  | b :: marks, m => do
    let (first, m) ← mark m b.ptr b.size
    let (firsts, m) ← markAll mark marks m
    pure (first :: firsts, m)

/-- A collection: `mark()`, then these marks, then `sweep()`. -/
def collect (mark : MemoryModel → ℕ → ℕ → Except Fault (Bool × MemoryModel)) (posix : Posix)
    (marks : List Block) (m : MemoryModel) : Except Fault (List Bool × MemoryModel) := do
  let m ← m.beginMark posix
  let (firsts, m) ← markAll mark marks m
  let m ← m.sweep
  pure (firsts, m)

end MemoryModel

end DaScript
