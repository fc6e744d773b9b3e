import DaScript.Foundations.Memory

/-!
# Misc/LinearChunks — the linear allocator

`HeapChunk` and `LinearChunkAllocator` of `misc/memory_model.h`: blocks are cut off the front of
the newest chunk, one after the other, and only the last of a chunk can be given back.
-/

namespace DaScript

def uint32Max : ℕ := 2 ^ 32 - 1

/-- `HeapChunk`, less its `next`. -/
structure HeapChunk where
  data : ℕ
  size : ℕ
  offset : ℕ

namespace HeapChunk

/-- `new HeapChunk(s, next)`, the size being rounded as a `uint32_t`. -/
def new (posix : Posix) (s : ℕ) : Except Fault HeapChunk := do
  let s := alignUp 15 s % 2 ^ 32
  let data ← alignedAlloc16 posix s
  pure { data := data, size := s, offset := 0 }

def allocate (ch : HeapChunk) (s : ℕ) : Option (ℕ × HeapChunk) :=
  if ch.size < ch.offset + s then none
  else some (ch.data + ch.offset, { ch with offset := ch.offset + s })

def free (ch : HeapChunk) (ptr s : ℕ) : HeapChunk :=
  if ptr + s = ch.data + ch.offset then { ch with offset := ch.offset - s } else ch

def isOwnPtr (ch : HeapChunk) (ptr : ℕ) : Bool := ch.data ≤ ptr ∧ ptr < ch.data + ch.size

end HeapChunk

/-- `LinearChunkAllocator`, with the memory its blocks lie in; the newest chunk comes first. -/
structure LinearChunks where
  customGrow : Option (ℕ → ℕ)
  initialSize : ℕ
  alignMask : ℕ
  chunks : List HeapChunk
  mem : Memory

namespace LinearChunks

/-- A default-constructed allocator; `LinearStringAllocator` sets the mask to 3. -/
def new (alignMask : ℕ) (mem : Memory) : LinearChunks where
  customGrow := none
  initialSize := 0
  alignMask := alignMask
  chunks := []
  mem := mem

def defaultInitialSize : ℕ := 65536

def grow (m : LinearChunks) (size : ℕ) : ℕ :=
  min (match m.customGrow with
    | some fn => fn size
    | none => size * 2) uint32Max

/-- The first chunk, when there is none. -/
def firstChunk (m : LinearChunks) (posix : Posix) (s : ℕ) : Except Fault LinearChunks :=
  match m.chunks with
  | _ :: _ => pure m
  | [] => do
    let initialSize := if m.initialSize = 0 then defaultInitialSize else m.initialSize
    let ch ← HeapChunk.new posix (max initialSize s % 2 ^ 32)
    pure { m with initialSize := initialSize, chunks := [ch] }

/-- The loop of `allocate`; `fuel` bounds the chunks it makes. -/
def allocateLoop (posix : Posix) (s : ℕ) :
    ℕ → LinearChunks → Except Fault (Option ℕ × LinearChunks)
  | 0, _ => .error (.hang "allocate")
  | fuel + 1, m =>
    match m.chunks with
    | [] => .error (.null "chunk")
    | ch :: chunks =>
      match ch.allocate s with
      | some (res, ch) => pure (some res, { m with chunks := ch :: chunks })
      | none => do
        let new ← HeapChunk.new posix (max (m.grow ch.size) s % 2 ^ 32)
        allocateLoop posix s fuel { m with chunks := new :: ch :: chunks }

/-- `allocate`.  A new chunk is large enough, so the loop makes one at most. -/
def allocate (m : LinearChunks) (posix : Posix) (s : ℕ) :
    Except Fault (Option ℕ × LinearChunks) :=
  if s = 0 then pure (none, m)
  else
    let s := alignUp m.alignMask s
    if uint32Max < s then
      .error (.verify "LinearChunkAllocator: single allocation exceeds the per-chunk uint32 cap")
    else do
      let m ← m.firstChunk posix s
      allocateLoop posix s 2 m

/-- The loop of `free`. -/
def freeIn (ptr s : ℕ) : List HeapChunk → List HeapChunk
  | [] => []
  | ch :: chunks =>
    if ch.isOwnPtr ptr then ch.free ptr s :: chunks else ch :: freeIn ptr s chunks

def free (m : LinearChunks) (ptr s : ℕ) : Except Fault LinearChunks :=
  let s := alignUp m.alignMask s
  if uint32Max < s then
    .error (.assert
      "LinearChunkAllocator chunks are uint32-bounded; free of >4GB block makes no sense")
  else pure { m with chunks := freeIn ptr s m.chunks }

def bytesAllocated (m : LinearChunks) : ℕ := (m.chunks.map HeapChunk.offset).sum

def isOwnPtr (m : LinearChunks) (ptr : ℕ) : Bool := m.chunks.any (·.isOwnPtr ptr)

def reset (m : LinearChunks) : LinearChunks :=
  match m.chunks with
  | [] => m
  | [ch] => { m with chunks := [{ ch with offset := 0 }] }
  | _ =>
    let maxAllocated := (m.bytesAllocated + 1023) % 2 ^ 64 / 1024 * 1024
    { m with initialSize := min uint32Max (max m.initialSize maxAllocated), chunks := [] }

end LinearChunks

end DaScript
