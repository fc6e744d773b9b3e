import DaScript.Foundations.Memory
import DaScript.Machinery.Bitmap
import DaScript.Machinery.Probing

/-!
# Misc/MemoryModel — decks, the shoe and big blocks

`misc/memory_model.h`.  Small blocks come out of decks, one chain of decks for each size class, and
a deck keeps a bit for each of its slots; anything larger is a block of the system allocator's,
remembered in `bigStuff`.

A chain is a list, newest deck first, and `lastChunk` names a deck by the address of its data.
-/

open Function

namespace DaScript

open Bitmap

/-- `DAS_PAGE_GC_MASK` -/
def pageGcMask : ℕ := 2 ^ 63

/-- `DAS_MAX_SHOE_ALLOCATION` -/
def maxShoe : ℕ := 256

/-- `DAS_MAX_SHOE_CUNKS` -/
def maxShoeChunks : ℕ := maxShoe / 16

/-- `Deck`, less its `next`. -/
structure Deck where
  data : ℕ
  bits : ℕ → BitVec 32
  gcBits : Option (ℕ → BitVec 32)
  /-- entry count -/
  total : ℕ
  /-- element size in bytes -/
  size : ℕ
  totalBytes : ℕ
  look : ℕ
  allocated : ℕ
  gcAllocated : ℕ

namespace Deck

/-- `new Deck(ne, es, next)`.  The bitmap is a block of its own, which nothing else points into. -/
def new (posix : Posix) (ne es : ℕ) : Except Fault Deck := do
  let total := alignUp 31 ne
  let totalBytes := total * es % 2 ^ 64
  let data ← alignedAlloc16 posix totalBytes
  let _ ← alignedAlloc16 posix (total / 32 * 4)
  pure
    { data := data
      bits := fun _ => 0#32
      gcBits := none
      total := total
      size := es
      totalBytes := totalBytes
      look := 0
      allocated := 0
      gcAllocated := 0 }

def reset (d : Deck) : Deck := { d with bits := fun _ => 0#32, look := 0, allocated := 0 }

def beforeGC (posix : Posix) (d : Deck) : Except Fault Deck :=
  if d.total / 32 * 4 = 0 then pure { d with gcBits := none, look := 0, gcAllocated := 0 }
  else do
    let _ ← alignedAlloc16 posix (d.total / 32 * 4)
    pure { d with gcBits := some fun _ => 0#32, look := 0, gcAllocated := 0 }

def afterGC (d : Deck) : Except Fault Deck :=
  if d.total / 32 * 4 = 0 then pure { d with allocated := d.gcAllocated }
  else
    match d.gcBits with
    | none => .error (.null "gc_bits")
    | some gc => pure { d with bits := gc, gcBits := none, allocated := d.gcAllocated }

def isOwnPtr (d : Deck) (ptr : ℕ) : Bool := d.data ≤ ptr ∧ ptr < d.data + d.totalBytes

/-- The word after `look`, round the bitmap. -/
def nextWord (d : Deck) (look : ℕ) : ℕ := if look + 1 = d.total / 32 then 0 else look + 1

/-- What the search for a free entry ends in when there is none. -/
def noBits : Fault := .assert "allocated reports room, but no bits are available"

/-- `allocate`: the address of a free entry, `none` when the deck is full. -/
def allocate (d : Deck) : Except Fault (Option ℕ × Deck) :=
  if d.allocated = d.total then .ok (none, d)
  else
    match Probing.vacant (fun i => ~~~d.bits i ≠ 0#32) d.nextWord (d.total / 32) d.look with
    | none => .error noBits
    | some look =>
      let j := 31 - (~~~d.bits look).clz.toNat
      let ofs := look * 32 + j
      if ofs < d.total then
        .ok (some (d.data + ofs * d.size),
          { d with
            look := look
            bits := update d.bits look (d.bits look ||| flag j)
            allocated := d.allocated + 1 })
      else .error (.assert "ofs < total")

/-- `free`, of a pointer the deck owns. -/
def free (d : Deck) (ptr : ℕ) : Except Fault Deck :=
  let idx := (ptr - d.data) / d.size
  let i := idx / 32
  let j := idx % 32
  if ¬ idx < d.total then .error (.assert "idx>=0 && idx<ptrdiff_t(total)")
  else if d.bits i &&& flag j = 0#32 then
    .error (.assert "calling free on the pointer, which is already free")
  else
    .ok
      { d with
        bits := update d.bits i (d.bits i ^^^ flag j)
        look := i
        allocated := dec64 d.allocated }

/-- `mark`, of a pointer the deck owns: whether it is the first mark. -/
def mark (d : Deck) (ptr : ℕ) : Except Fault (Bool × Deck) :=
  let idx := (ptr - d.data) / d.size
  let i := idx / 32
  let j := idx % 32
  if ¬ idx < d.total then .error (.assert "idx>=0 && idx<ptrdiff_t(total)")
  else
    match d.gcBits with
    | none => .error (.null "gc_bits")
    | some gc =>
      if gc i &&& flag j = 0#32 then
        .ok (true,
          { d with
            gcBits := some (update gc i (gc i ||| flag j))
            gcAllocated := d.gcAllocated + 1 })
      else .ok (false, d)

end Deck

structure Shoe where
  chunks : ℕ → List Deck
  lastChunk : Option ℕ

namespace Shoe

/-- The default-constructed shoe. -/
def new : Shoe := { chunks := fun _ => [], lastChunk := none }

/-- Every deck, in the order of the size classes. -/
def decks (s : Shoe) : List Deck := (List.range maxShoeChunks).flatMap s.chunks

/-- The loops over every deck of every size class. -/
def forEachDeck (f : Deck → Except Fault Deck) (s : Shoe) : Except Fault Shoe :=
  (List.range maxShoeChunks).foldlM (fun s si => do
    let chunks ← (s.chunks si).mapM f
    pure { s with chunks := update s.chunks si chunks }) s

/-- Every deck of every size class is changed. -/
def mapDecks (f : Deck → Deck) (s : Shoe) : Shoe :=
  { s with chunks := fun si => if si < maxShoeChunks then (s.chunks si).map f else s.chunks si }

def reset (s : Shoe) : Shoe := s.mapDecks Deck.reset

def beforeGC (posix : Posix) (s : Shoe) : Except Fault Shoe := s.forEachDeck (Deck.beforeGC posix)

/-- The size class of a rounded size. -/
def sizeClass (size : ℕ) : ℕ := size / 16 - 1

/-- `size && size<=DAS_MAX_SHOE_ALLOCATION` -/
def badSize : Fault := .assert "size && size<=DAS_MAX_SHOE_ALLOCATION"

/-- The loop of `allocate` over one chain. -/
def allocateIn : List Deck → Except Fault (Option ℕ × List Deck)
  | [] => pure (none, [])
  | ch :: chunks => do
    let (res, ch) ← ch.allocate
    match res with
    | some res => pure (some res, ch :: chunks)
    | none => do
      let (res, chunks) ← allocateIn chunks
      pure (res, ch :: chunks)

def allocate (s : Shoe) (size : ℕ) : Except Fault (Option ℕ × Shoe) :=
  let size := alignUp 15 size
  if size = 0 ∨ maxShoe < size then .error badSize
  else do
    let (res, chunks) ← allocateIn (s.chunks (sizeClass size))
    pure (res, { s with chunks := update s.chunks (sizeClass size) chunks })

/-- The loop of `free` over one chain. -/
def freeIn (ptr : ℕ) : List Deck → Except Fault (List Deck)
  | [] => .error (.fatal "deleting, which is not a chunk pointer (or chunk size mismatch)")
  | ch :: chunks =>
    if ch.isOwnPtr ptr then do
      let ch ← ch.free ptr
      pure (ch :: chunks)
    else do
      let chunks ← freeIn ptr chunks
      pure (ch :: chunks)

def free (s : Shoe) (ptr size : ℕ) : Except Fault Shoe :=
  let size := alignUp 15 size
  if size = 0 ∨ maxShoe < size then .error badSize
  else do
    let chunks ← freeIn ptr (s.chunks (sizeClass size))
    pure { s with chunks := update s.chunks (sizeClass size) chunks }

/-- The deck `lastChunk` points to. -/
def last (s : Shoe) : Option Deck :=
  s.lastChunk.bind fun a => s.decks.find? fun ch => ch.data = a

/-- `ch->mark(ptr)`, the deck being changed where it hangs. -/
def markDeck (s : Shoe) (ch : Deck) (ptr : ℕ) : Except Fault (Bool × Shoe) := do
  let (first, ch') ← ch.mark ptr
  pure (first, { s with
    chunks := fun si => (s.chunks si).map fun d => if d.data = ch.data then ch' else d })

/-- The deck of a chain that owns `ptr`, `lastChunk` apart. -/
def ownerIn (s : Shoe) (si ptr : ℕ) : Option Deck :=
  (s.chunks si).find? fun ch => s.lastChunk ≠ some ch.data ∧ ch.isOwnPtr ptr

def mark (s : Shoe) (ptr size : ℕ) : Except Fault (Bool × Shoe) :=
  let size := alignUp 15 size
  if size = 0 ∨ maxShoe < size then .error badSize
  else
    match s.last.filter (·.isOwnPtr ptr) with
    | some ch => s.markDeck ch ptr
    | none =>
      match s.ownerIn (sizeClass size) ptr with
      | some ch => markDeck { s with lastChunk := some ch.data } ch ptr
      | none => pure (false, s)

def isOwnPtr (s : Shoe) (ptr size : ℕ) : Except Fault (Bool × Shoe) :=
  if size = 0 ∨ maxShoe < size then .error badSize
  else
    match s.last.filter (·.isOwnPtr ptr) with
    | some _ => pure (true, s)
    | none =>
      match s.ownerIn (sizeClass size) ptr with
      | some ch => pure (true, { s with lastChunk := some ch.data })
      | none => pure (false, s)

end Shoe

/-- `MemoryModel`, with the memory its blocks lie in. -/
structure MemoryModel where
  /-- a grow function, when one is set -/
  customGrow : Option (ℕ → ℕ)
  alignMask : ℕ
  totalAllocated : ℕ
  maxAllocated : ℕ
  initialSize : ℕ
  maxShoeAllocation : ℕ
  shoe : Shoe
  bigStuff : List Block
  mem : Memory

namespace MemoryModel

def defaultInitialSize : ℕ := 65536

/-- A default-constructed model; `PersistentStringAllocator` sets the mask to 3, and
`setTrackAllocations(true)` the largest shoe allocation to 0. -/
def new (alignMask maxShoeAllocation : ℕ) (mem : Memory) : MemoryModel where
  customGrow := none
  alignMask := alignMask
  totalAllocated := 0
  maxAllocated := 0
  initialSize := 0
  maxShoeAllocation := maxShoeAllocation
  shoe := Shoe.new
  bigStuff := []
  mem := mem

def setInitialSize (m : MemoryModel) (size : ℕ) : MemoryModel := { m with initialSize := size }

/-- `customGrow = fun` -/
def setGrowFunction (m : MemoryModel) (fn : ℕ → ℕ) : MemoryModel := { m with customGrow := some fn }

/-- `grow`: the entry count of the next deck of a size class. -/
def grow (m : MemoryModel) (si : ℕ) : ℕ × MemoryModel :=
  match m.shoe.chunks si with
  | ch :: _ =>
    (match m.customGrow with
      | some fn => fn ch.total
      | none => ch.total * 2 % 2 ^ 64, m)
  | [] =>
    let initialSize := if m.initialSize = 0 then defaultInitialSize else m.initialSize
    (initialSize / ((si + 1) * 16), { m with initialSize := initialSize })

def bytesAllocated (m : MemoryModel) : ℕ := m.totalAllocated

/-- `totalAllocated += size`, and the watermark. -/
def account (m : MemoryModel) (size : ℕ) : MemoryModel :=
  let total := (m.totalAllocated + size) % 2 ^ 64
  { m with totalAllocated := total, maxAllocated := max m.maxAllocated total }

/-- `totalAllocated -= size` -/
def discount (m : MemoryModel) (size : ℕ) : MemoryModel :=
  { m with totalAllocated := (m.totalAllocated + (2 ^ 64 - size)) % 2 ^ 64 }

/-- `bigStuff[ptr] = size` -/
def setBig (m : MemoryModel) (ptr size : ℕ) : MemoryModel :=
  { m with bigStuff := ⟨ptr, size⟩ :: m.bigStuff.eraseP fun b => b.ptr = ptr }

/-- A new deck in front of its chain, and a block out of it. -/
def allocateGrown (m : MemoryModel) (posix : Posix) (size : ℕ) :
    Except Fault (Option ℕ × MemoryModel) :=
  let size := alignUp 15 size
  if size = 0 ∨ maxShoe < size then .error Shoe.badSize
  else do
    let si := Shoe.sizeClass size
    let (total, m) := m.grow si
    let deck ← Deck.new posix total size
    let (res, deck) ← deck.allocate
    pure (res, { m with shoe :=
      { m.shoe with chunks := update m.shoe.chunks si (deck :: m.shoe.chunks si) } })

def allocate (m : MemoryModel) (posix : Posix) (size : ℕ) :
    Except Fault (Option ℕ × MemoryModel) :=
  if size = 0 then pure (none, m)
  else
    let size := alignUp m.alignMask size
    let m := m.account size
    if m.maxShoeAllocation < size then do
      let ptr ← alignedAlloc16 posix size
      pure (some ptr, m.setBig ptr size)
    else do
      let (res, shoe) ← m.shoe.allocate size
      match res with
      | some res => pure (some res, { m with shoe := shoe })
      | none => allocateGrown { m with shoe := shoe } posix size

def free (m : MemoryModel) (ptr size : ℕ) : Except Fault (Bool × MemoryModel) :=
  if size = 0 then pure (true, m)
  else
    let size := alignUp m.alignMask size
    if size ≤ m.maxShoeAllocation then do
      let shoe ← m.shoe.free ptr size
      pure (true, discount { m with shoe := shoe } size)
    else
      match m.bigStuff.find? fun b => b.ptr = ptr with
      | none => .error (.assert "we are trying to delete pointer, which we did not allocate")
      | some itb =>
        if itb.size ≠ size then .error (.assert "free size mismatch")
        else
          pure (true,
            discount { m with bigStuff := m.bigStuff.eraseP fun b => b.ptr = ptr } size)

def reallocate (m : MemoryModel) (posix : Posix) (ptr : Option ℕ) (size nsize : ℕ) :
    Except Fault (Option ℕ × MemoryModel) :=
  match ptr with
  | none => m.allocate posix nsize
  | some ptr => do
    let size := alignUp m.alignMask size
    let nsize := alignUp m.alignMask nsize
    let (nptr, m) ← m.allocate posix nsize
    match nptr with
    | none => .error (.verify "out of memory?")
    | some nptr => do
      let (_, m) ← free { m with mem := memcpy m.mem nptr ptr (min size nsize) } ptr size
      pure (some nptr, m)

def reset (m : MemoryModel) : MemoryModel := { m with bigStuff := [], shoe := m.shoe.reset }

/-- What `sweep` counts in the decks. -/
def countDecks (decks : List Deck) : ℕ :=
  decks.foldl (fun t ch => (t + popcount ch.bits (ch.total / 32) * ch.size) % 2 ^ 64) 0

/-- The marked entries of `bigStuff`, their marks taken off. -/
def keepMarked (bigStuff : List Block) : List Block :=
  (bigStuff.filter fun b => b.size &&& pageGcMask ≠ 0).map fun b =>
    ⟨b.ptr, b.size &&& (2 ^ 64 - 1 - pageGcMask)⟩

def sweep (m : MemoryModel) : Except Fault MemoryModel := do
  let shoe ← m.shoe.forEachDeck Deck.afterGC
  let bigStuff := keepMarked m.bigStuff
  pure { m with
    shoe := shoe
    bigStuff := bigStuff
    totalAllocated :=
      bigStuff.foldl (fun t b => (t + b.size) % 2 ^ 64) (countDecks shoe.decks) }

def isOwnPtr (m : MemoryModel) (ptr size : ℕ) : Except Fault (Bool × MemoryModel) :=
  if size ≤ m.maxShoeAllocation then do
    let (own, shoe) ← m.shoe.isOwnPtr ptr size
    pure (own, { m with shoe := shoe })
  else pure (m.bigStuff.any fun b => b.ptr = ptr, m)

end MemoryModel

end DaScript
