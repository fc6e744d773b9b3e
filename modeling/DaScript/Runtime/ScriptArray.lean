import DaScript.Foundations.CString

/-!
# Runtime/ScriptArray — the dynamic arrays of a script

`array_clear`, `array_reserve` and `array_resize` of `simulate/runtime_array.cpp`, the script's
operations of `builtin/module_builtin_array.cpp`, and `array_grow` with the pushes of
`simulate/aot_builtin.h`.  An array is a block of `capacity * stride` bytes whose first `size`
elements count.
-/

namespace DaScript

def int64Max : ℕ := 2 ^ 63 - 1

/-- `struct Array`, less its `magic` and flags; a null `data` is 0. -/
structure ScriptArray where
  data : ℕ
  size : ℕ
  capacity : ℕ
  lock : ℕ
  deriving DecidableEq, Repr

def ScriptArray.isLocked (arr : ScriptArray) : Bool := arr.lock ≠ 0

/-- An array and the memory its elements lie in. -/
structure ArrayState where
  array : ScriptArray
  mem : Memory

/-- The array's block. -/
def ArrayState.block (s : ArrayState) (stride : ℕ) : Block :=
  ⟨s.array.data, s.array.capacity * stride⟩

/-- **What the context's heap answers** to a call made for an array whose bytes are `block` — the
new block and the memory then, or nothing where there is no room.  A block that is moved keeps its
bytes, a block that is not stays as it is; whatever else is in the memory, the heap may change. -/
structure ArrayHeap (mem : Memory) (block : Block) where
  verySafeContext : Bool
  reallocate : ℕ → Option (ℕ × Memory)
  allocate : ℕ → Option (ℕ × Memory)
  reallocate_moves : ∀ {size p mem'}, reallocate size = some (p, mem') →
    p ≠ 0 ∧ p + size ≤ addressSpace ∧
      ∀ i < block.size, i < size → mem' (p + i) = mem (block.ptr + i)
  allocate_keeps : ∀ {size p mem'}, allocate size = some (p, mem') →
    p ≠ 0 ∧ p + size ≤ addressSpace ∧ ∀ i < block.size, mem' (block.ptr + i) = mem (block.ptr + i)

variable {mem : Memory} {block : Block}

/-- A failed `throw_error_at`. -/
def throwAt {α : Type} (msg : String) (s : ArrayState) : Outcome ArrayState α :=
  .error (.throw msg) s

def arrayClear (s : ArrayState) : Outcome ArrayState Unit :=
  if s.array.isLocked then throwAt "can't clear locked array" s
  else .ok () { s with array := { s.array with size := 0 } }

/-- The new block of `array_reserve`, with the elements in it. -/
def newData (heap : ArrayHeap mem block) (arr : ScriptArray) (stride memSize : ℕ) :
    Option (ℕ × Memory) :=
  if heap.verySafeContext then
    (heap.allocate memSize).map fun (newData, mem) =>
      (newData, if arr.data ≠ 0 then memcpy mem newData arr.data (arr.size * stride) else mem)
  else heap.reallocate memSize

def arrayReserve (heap : ArrayHeap mem block) (newCapacity stride : ℕ) (s : ArrayState) :
    Outcome ArrayState Unit :=
  if s.array.isLocked then throwAt "can't change capacity of a locked array" s
  else if newCapacity ≤ s.array.capacity then .ok () s
  else if stride ≠ 0 ∧ newCapacity > (2 ^ 64 - 1) / stride then
    throwAt "array_reserve: capacity*stride overflows uint64" s
  else
    match newData heap s.array stride (newCapacity * stride) with
    | none => throwAt "out of heap memory" s
    | some (p, mem) => .ok () ⟨{ s.array with data := p, capacity := newCapacity }, mem⟩

/-- The capacity an array grows to: a power of two, at least 16, clamped. -/
def arrayCapacity (newSize : ℕ) : ℕ :=
  min (max (2 ^ (Nat.log2 (max newSize 2 - 1) + 1)) 16) int64Max

theorem le_arrayCapacity {n : ℕ} (h : n ≤ int64Max) : n ≤ arrayCapacity n := by
  have hlog : max n 2 - 1 < 2 ^ (Nat.log2 (max n 2 - 1) + 1) := Nat.lt_log2_self
  have hle : n ≤ 2 ^ (Nat.log2 (max n 2 - 1) + 1) := by
    have := le_max_left n 2
    omega
  exact le_min (hle.trans (le_max_left _ _)) h

/-- The growth of `array_resize` and `array_grow`. -/
def arrayRoom (heap : ArrayHeap mem block) (newSize stride : ℕ) (s : ArrayState) :
    Outcome ArrayState Unit :=
  if s.array.capacity < newSize then arrayReserve heap (arrayCapacity newSize) stride s
  else .ok () s

def arrayResize (heap : ArrayHeap mem block) (newSize stride : ℕ) (zero : Bool) (s : ArrayState) :
    Outcome ArrayState Unit :=
  if s.array.isLocked then throwAt "can't resize locked array" s
  else if int64Max < newSize then throwAt "array_resize: newSize exceeds INT64_MAX" s
  else
    (arrayRoom heap newSize stride s).bind fun _ s =>
      let mem :=
        if zero ∧ s.array.size < newSize then
          memset s.mem (s.array.data + s.array.size * stride) ((newSize - s.array.size) * stride)
        else s.mem
      .ok () ⟨{ s.array with size := newSize }, mem⟩

def arrayGrow (heap : ArrayHeap mem block) (stride : ℕ) (s : ArrayState) :
    Outcome ArrayState Unit :=
  if s.array.isLocked then throwAt "can't resize locked array" s
  else if int64Max < s.array.size + 1 then throwAt "array_grow: newSize exceeds INT64_MAX" s
  else
    (arrayRoom heap (s.array.size + 1) stride s).bind fun _ s =>
      .ok () { s with array := { s.array with size := s.array.size + 1 } }

/-! ## The operations of a script

The versions for 32-bit and for 64-bit arguments have the same bodies, `builtin_array_erase` apart:
a negative argument is an integer here, so `int` and `int64_t` read alike. -/

/-- `builtin_array_resize`, with and without `_i64`. -/
def builtinArrayResize (heap : ArrayHeap mem block) (newSize : ℤ) (stride : ℕ) (s : ArrayState) :
    Outcome ArrayState Unit :=
  if newSize < 0 then throwAt "resizing array to negative size" s
  else arrayResize heap newSize.toNat stride true s

/-- `builtin_array_resize_no_init`, with and without `_i64`. -/
def builtinArrayResizeNoInit (heap : ArrayHeap mem block) (newSize : ℤ) (stride : ℕ)
    (s : ArrayState) : Outcome ArrayState Unit :=
  if newSize < 0 then throwAt "resizing array to negative size" s
  else arrayResize heap newSize.toNat stride false s

/-- `builtin_array_reserve`, with and without `_i64`. -/
def builtinArrayReserve (heap : ArrayHeap mem block) (newSize : ℤ) (stride : ℕ) (s : ArrayState) :
    Outcome ArrayState Unit :=
  if newSize < 0 then .ok () s else arrayReserve heap newSize.toNat stride s

/-- The `memmove` of the elements behind the `count` ones at `index`, onto them. -/
def closeGap (index count stride : ℕ) (s : ArrayState) : ArrayState :=
  { s with
    mem := memcpy s.mem (s.array.data + index * stride) (s.array.data + (index + count) * stride)
      ((s.array.size - index - count) * stride) }

/-- `builtin_array_erase_range`, with and without `_i64`. -/
def builtinArrayEraseRange (heap : ArrayHeap mem block) (index count : ℤ) (stride : ℕ)
    (s : ArrayState) : Outcome ArrayState Unit :=
  if index < 0 ∨ count < 0 ∨ (s.array.size : ℤ) < index + count then
    throwAt "erasing array range is invalid" s
  else
    let s := closeGap index.toNat count.toNat stride s
    arrayResize heap (s.array.size - count.toNat) stride false s

def builtinArrayEraseI64 (heap : ArrayHeap mem block) (index : ℤ) (stride : ℕ) (s : ArrayState) :
    Outcome ArrayState Unit :=
  if index < 0 ∨ (s.array.size : ℤ) ≤ index then throwAt "erase index out of range" s
  else
    let s := closeGap index.toNat 1 stride s
    arrayResize heap (s.array.size - 1) stride false s

/-- `builtin_array_erase`, whose `index*stride` and `(index+1)*stride` are products of `int`s. -/
def builtinArrayErase (heap : ArrayHeap mem block) (index : ℤ) (stride : ℕ) (s : ArrayState) :
    Outcome ArrayState Unit :=
  if index < 0 ∨ (s.array.size : ℤ) ≤ index then throwAt "erase index out of range" s
  else if 2 ^ 31 ≤ index + 1 ∨ 2 ^ 31 ≤ (index + 1) * stride then
    .error (.undefined "(index+1)*stride overflows int") s
  else
    let s := closeGap index.toNat 1 stride s
    arrayResize heap (s.array.size - 1) stride false s

def builtinArrayClear (s : ArrayState) : Outcome ArrayState Unit := arrayClear s

/-- `uint64_t(index)` -/
def asUInt64 (index : ℤ) : ℕ := (index % 2 ^ 64).toNat

/-- The `memmove` of the elements from `index` on, one further. -/
def openGap (index size stride : ℕ) (s : ArrayState) : ArrayState :=
  { s with
    mem := memcpy s.mem (s.array.data + (index + 1) * stride) (s.array.data + index * stride)
      ((size - index) * stride) }

def builtinArrayPush (heap : ArrayHeap mem block) (index : ℤ) (stride : ℕ) (s : ArrayState) :
    Outcome ArrayState Unit :=
  let idx := s.array.size
  (arrayGrow heap stride s).bind fun _ s =>
    if s.array.size ≤ asUInt64 index then throwAt "insert index out of range" s
    else .ok () (openGap (asUInt64 index) idx stride s)

def builtinArrayPushZero (heap : ArrayHeap mem block) (index : ℤ) (stride : ℕ) (s : ArrayState) :
    Outcome ArrayState Unit :=
  let idx := s.array.size
  (arrayGrow heap stride s).bind fun _ s =>
    if s.array.size ≤ asUInt64 index then throwAt "insert index out of range" s
    else
      let s := openGap (asUInt64 index) idx stride s
      .ok () { s with mem := memset s.mem (s.array.data + asUInt64 index * stride) stride }

def builtinArrayPushBack (heap : ArrayHeap mem block) (stride : ℕ) (s : ArrayState) :
    Outcome ArrayState Unit := arrayGrow heap stride s

def builtinArrayPushBackZero (heap : ArrayHeap mem block) (stride : ℕ) (s : ArrayState) :
    Outcome ArrayState Unit :=
  let idx := s.array.size
  (arrayGrow heap stride s).bind fun _ s =>
    .ok () { s with mem := memset s.mem (s.array.data + idx * stride) stride }

end DaScript
