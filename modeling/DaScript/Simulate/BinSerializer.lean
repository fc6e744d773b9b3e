import DaScript.Runtime.ScriptArray
import DaScript.Simulate.TypeInfo

/-!
# Simulate/BinSerializer — objects as bytes, and back

`BinDataSerialize` of `simulate/bin_serializer.cpp` on top of `DataWalker` (`data_walker.cpp`): one
walk of an object and its type, which writes the object's bytes or reads them.  Positions and sizes
are `uint32_t` and wrap.

Objects lie in blocks; a scalar is bytes at a place, a string or an array is what its pointer or its
header at the place says.  A write outside its block is undefined, and so is a `memcpy` outside the
data.
-/

namespace DaScript

/-- An address: a block, and an offset in it. -/
structure Place where
  block : ℕ
  offset : ℕ
  deriving DecidableEq, Repr

/-- `ps + n` -/
def Place.shift (p : Place) (n : ℕ) : Place := ⟨p.block, p.offset + n⟩

theorem Place.shift_shift (p : Place) (m n : ℕ) : (p.shift m).shift n = p.shift (m + n) :=
  congrArg (Place.mk p.block) (Nat.add_assoc ..)

/-- An `Array` in an object: its buffer is a block. -/
structure ArrayCell where
  data : Option ℕ
  size : ℕ
  capacity : ℕ
  lock : ℕ
  deriving DecidableEq, Repr

/-- `Array` of zeros. -/
def ArrayCell.zero : ArrayCell := ⟨none, 0, 0, 0⟩

/-- A `Lambda`'s capture: the hash of its type, and its block. -/
abbrev Capture := Option (ℕ × ℕ)

/-- **The blocks of a context** — their sizes, and what lies at each offset: bytes, the text a
string pointer has, an array's header, a lambda's capture. -/
structure Store where
  next : ℕ
  room : ℕ → ℕ
  byte : ℕ → ℕ → UInt8
  text : ℕ → ℕ → List UInt8
  array : ℕ → ℕ → ArrayCell
  capture : ℕ → ℕ → Capture

namespace Store

/-- The values at the places of one block, with those from `lo` to `hi` replaced. -/
def patch {α : Type} (f : ℕ → ℕ → α) (block lo hi : ℕ) (g : ℕ → α) : ℕ → ℕ → α := fun b o =>
  if b = block ∧ lo ≤ o ∧ o < hi then g o else f b o

theorem patch_self {α : Type} {f : ℕ → ℕ → α} {block lo hi b o : ℕ} {g : ℕ → α}
    (h : ¬ (b = block ∧ lo ≤ o ∧ o < hi)) : patch f block lo hi g b o = f b o := if_neg h

theorem patch_mem {α : Type} {f : ℕ → ℕ → α} {block lo hi o : ℕ} {g : ℕ → α} (h1 : lo ≤ o)
    (h2 : o < hi) : patch f block lo hi g block o = g o := if_pos ⟨rfl, h1, h2⟩

/-- Bytes at a place. -/
def setBytes (s : Store) (p : Place) (data : List UInt8) : Store :=
  { s with
    byte := patch s.byte p.block p.offset (p.offset + data.length) fun o =>
      data.getD (o - p.offset) 0 }

theorem setBytes_byte (s : Store) (p : Place) (data : List UInt8) : (s.setBytes p data).byte
    = patch s.byte p.block p.offset (p.offset + data.length) fun o =>
      data.getD (o - p.offset) 0 := rfl

/-- A string pointer at a place. -/
def setText (s : Store) (p : Place) (text : List UInt8) : Store :=
  { s with text := patch s.text p.block p.offset (p.offset + 1) fun _ => text }

theorem setText_text (s : Store) (p : Place) (text : List UInt8) : (s.setText p text).text
    = patch s.text p.block p.offset (p.offset + 1) fun _ => text := rfl

/-- An array's header at a place. -/
def setArray (s : Store) (p : Place) (arr : ArrayCell) : Store :=
  { s with array := patch s.array p.block p.offset (p.offset + 1) fun _ => arr }

theorem setArray_array (s : Store) (p : Place) (arr : ArrayCell) : (s.setArray p arr).array
    = patch s.array p.block p.offset (p.offset + 1) fun _ => arr := rfl

/-- A lambda's capture at a place. -/
def setCapture (s : Store) (p : Place) (c : Capture) : Store :=
  { s with capture := patch s.capture p.block p.offset (p.offset + 1) fun _ => c }

/-- `memset` to zero of the bytes from `lo` to `hi` of a block. -/
def clear (s : Store) (block lo hi : ℕ) : Store :=
  { s with
    byte := patch s.byte block lo hi fun _ => 0
    text := patch s.text block lo hi fun _ => []
    array := patch s.array block lo hi fun _ => ArrayCell.zero
    capture := patch s.capture block lo hi fun _ => none }

theorem clear_array (s : Store) (block lo hi : ℕ) : (s.clear block lo hi).array
    = patch s.array block lo hi fun _ => ArrayCell.zero := rfl

/-- A new block; what is in it, the heap left there. -/
def alloc (s : Store) (size : ℕ) : Store :=
  { s with next := s.next + 1, room := fun b => if b = s.next then size else s.room b }

/-- The first `n` bytes of a block become those of another. -/
def copy (s : Store) (dst src n : ℕ) : Store :=
  { s with
    byte := patch s.byte dst 0 n (s.byte src)
    text := patch s.text dst 0 n (s.text src)
    array := patch s.array dst 0 n (s.array src)
    capture := patch s.capture dst 0 n (s.capture src) }

/-- The `n` bytes at a place. -/
def bytesAt (s : Store) (p : Place) (n : ℕ) : List UInt8 :=
  (List.range n).map fun i => s.byte p.block (p.offset + i)

end Store

/-! ## Integers as bytes -/

/-- An integer of `n` bytes, the lowest first. -/
def leBytes : ℕ → ℕ → List UInt8
  | 0, _ => []
  | n + 1, x => UInt8.ofNat x :: leBytes n (x / 256)

/-- The integer bytes make. -/
def leNat : List UInt8 → ℕ
  | [] => 0
  | b :: l => b.toNat + 256 * leNat l

@[simp] theorem length_leBytes (n x : ℕ) : (leBytes n x).length = n := by
  induction n generalizing x with
  | zero => rfl
  | succ n ih => rw [leBytes, List.length_cons, ih]

theorem leNat_leBytes {n x : ℕ} (h : x < 256 ^ n) : leNat (leBytes n x) = x := by
  induction n generalizing x with
  | zero => rw [pow_zero] at h; rw [leBytes, leNat]; omega
  | succ n ih =>
    have hdiv : x / 256 < 256 ^ n := Nat.div_lt_of_lt_mul (by rwa [pow_succ, Nat.mul_comm] at h)
    rw [leBytes, leNat, ih hdiv, UInt8.toNat_ofNat']
    omega

theorem leNat_lt (l : List UInt8) : leNat l < 256 ^ l.length := by
  induction l with
  | nil => exact Nat.one_pos
  | cons b l ih =>
    have hb := b.toNat_lt
    rw [leNat, List.length_cons, pow_succ]
    omega

/-! ## The serializer -/

/-- One call of `read`: where, how much, into how large a buffer, and whether the guard let it. -/
structure ReadCall where
  pos : ℕ
  size : ℕ
  room : ℕ
  copied : Bool
  deriving DecidableEq, Repr

/-- **`BinDataSerialize`**, with the blocks it walks and a record of its reads, the last first. -/
structure Serializer where
  reading : Bool
  bytesAt : Memory
  bytesAllocated : ℕ
  bytesWritten : ℕ
  store : Store
  reads : List ReadCall

/-- What the serializer asks of the context: the types of lambdas by hash, functions by mangled name
hash, what the annotation of a handled type walks, and the heap's answers. -/
structure SerialEnv where
  lookup : ℕ → Option TypeInfo
  fnByMangledName : ℕ → ℕ
  mangledNameHash : ℕ → ℕ
  annotationWalk : ℕ → Place → Store → List (TypeInfo × Place)
  gives : ℕ → Bool

/-- A walk, or a piece of one. -/
def Walker (α : Type) : Type := Serializer → Outcome Serializer α

namespace Walker

instance : Monad Walker where
  pure a := fun s => .ok a s
  bind x f := fun s => (x s).bind f

theorem bind_ok {α β : Type} {x : Walker α} {f : α → Walker β} {s s' : Serializer} {a : α}
    (h : x s = .ok a s') : (x >>= f) s = f a s' := by
  change (x s).bind f = f a s'
  rw [h]
  rfl

theorem bind_error {α β : Type} {x : Walker α} {f : α → Walker β} {s s' : Serializer} {e : Fault}
    (h : x s = .error e s') : (x >>= f) s = .error e s' := by
  change (x s).bind f = .error e s'
  rw [h]
  rfl

/-- The state of the serializer. -/
def get : Walker Serializer := fun s => .ok s s

theorem get_bind {α : Type} (f : Serializer → Walker α) (s : Serializer) :
    (get >>= f) s = f s s := rfl

/-- The blocks change. -/
def modifyStore (f : Store → Store) : Walker Unit := fun s => .ok () { s with store := f s.store }

/-- A walk that stops. -/
def fail {α : Type} (e : Fault) : Walker α := fun s => .error e s

def error {α : Type} (message : String) : Walker α := fail (.throw message)

/-- `if ( c ) error(message)` -/
def refuse (c : Prop) [Decidable c] (message : String) : Walker Unit :=
  if c then error message else pure ()

/-- A write of `n` bytes to a place is inside its block. -/
def inBlock (p : Place) (n : ℕ) : Walker Unit := fun s =>
  if p.offset + n ≤ s.store.room p.block then .ok () s
  else .error (.undefined "write outside its block") s

end Walker

open Walker

/-- `read` into a buffer of `room` bytes. -/
def read (size room : ℕ) : Walker (List UInt8) := fun s =>
  let call := fun copied => { s with reads := ⟨s.bytesWritten, size, room, copied⟩ :: s.reads }
  if (s.bytesWritten + size) % 2 ^ 32 ≤ s.bytesAllocated then
    if s.bytesWritten + size ≤ s.bytesAllocated ∧ size ≤ room then
      .ok (bytes s.bytesAt s.bytesWritten size)
        { call true with bytesWritten := (s.bytesWritten + size) % 2 ^ 32 }
    else .error (.undefined "memcpy outside its buffers") (call true)
  else .error (.throw "binary data too short") (call false)

def bytesGrow : ℕ := 1024

def write (data : List UInt8) : Walker Unit := fun s =>
  let last := (s.bytesWritten + data.length) % 2 ^ 32
  .ok ()
    { s with
      bytesAllocated :=
        if s.bytesAllocated < last then max ((s.bytesAllocated + bytesGrow) % 2 ^ 32) last
        else s.bytesAllocated
      bytesAt := fun a =>
        if s.bytesWritten ≤ a ∧ a < s.bytesWritten + data.length then
          data.getD (a - s.bytesWritten) 0
        else s.bytesAt a
      bytesWritten := last }

/-- `load` of an integer of `n` bytes. -/
def load (n : ℕ) : Walker ℕ := do
  let data ← read n n
  pure (leNat data)

/-- `save` of an integer of `n` bytes. -/
def save (n x : ℕ) : Walker Unit := write (leBytes n x)

/-- `verify` for 4 bytes, `verify_hash` for 8. -/
def verify (n x : ℕ) : Walker Unit := do
  if (← get).reading then
    let test ← load n
    refuse (test ≠ x) "binary data type mismatch"
  else save n x

/-- `serialize` of the `n` bytes at a place. -/
def serialize (p : Place) (n : ℕ) : Walker Unit := do
  let s ← get
  if s.reading then
    let data ← read n n
    inBlock p n
    modifyStore fun store => store.setBytes p data
  else write (s.store.bytesAt p n)

/-- `String` -/
def walkString (p : Place) : Walker Unit := do
  let s ← get
  if s.reading then
    let length ← load 4
    let temp ← read length ((length + 1) % 2 ^ 32)
    inBlock p 8
    modifyStore fun store => store.setText p temp
  else
    let text := s.store.text p.block p.offset
    let length := text.length % 2 ^ 32
    save 4 length
    write (text.take length)

def walkFunction (env : SerialEnv) (p : Place) : Walker Unit := do
  let s ← get
  if s.reading then
    let mnh ← load 8
    inBlock p 8
    modifyStore fun store => store.setBytes p (leBytes 8 (env.fnByMangledName mnh))
  else save 8 (env.mangledNameHash (leNat (s.store.bytesAt p 8)))

/-- `array_reserve` of the array at `p`, out of blocks. -/
def reserveCell (env : SerialEnv) (p : Place) (arr : ArrayCell) (newCapacity stride : ℕ) :
    Walker Unit := fun s =>
  let memSize := newCapacity * stride
  if newCapacity ≤ arr.capacity then .ok () s
  else if stride ≠ 0 ∧ newCapacity > (2 ^ 64 - 1) / stride then
    .error (.throw "array_reserve: capacity*stride overflows uint64") s
  else if env.gives memSize = false then .error (.throw "out of heap memory") s
  else
    let new := s.store.next
    let store := (s.store.alloc memSize).setArray p
      { arr with data := some new, capacity := newCapacity }
    match arr.data with
    | none => .ok () { s with store := store }
    | some old =>
      if s.store.room old = arr.capacity * stride then
        .ok () { s with store := store.copy new old (min (arr.capacity * stride) memSize) }
      else .error (.undefined "reallocate of a block with another size") s

/-- The growth of `array_resize`. -/
def growCell (env : SerialEnv) (p : Place) (arr : ArrayCell) (newSize stride : ℕ) : Walker Unit :=
  if arr.capacity < newSize then reserveCell env p arr (arrayCapacity newSize) stride else pure ()

/-- The `memset` of `array_resize`. -/
def zeroCells (arr : ArrayCell) (newSize stride : ℕ) : Walker Unit :=
  if arr.size < newSize then
    match arr.data with
    | none => fail (.null "data")
    | some block => do
      inBlock ⟨block, arr.size * stride⟩ ((newSize - arr.size) * stride)
      modifyStore fun store => store.clear block (arr.size * stride) (newSize * stride)
  else pure ()

/-- `array_resize` with zeroing, of the array at `p`. -/
def resizeCell (env : SerialEnv) (p : Place) (newSize stride : ℕ) : Walker Unit := do
  let arr := (← get).store.array p.block p.offset
  refuse (arr.lock ≠ 0) "can't resize locked array"
  refuse (int64Max < newSize) "array_resize: newSize exceeds INT64_MAX"
  growCell env p arr newSize stride
  let arr := (← get).store.array p.block p.offset
  zeroCells arr newSize stride
  modifyStore fun store => store.setArray p { arr with size := newSize }

/-- `beforeArray`: it resizes with the stride `getTypeBaseSize(ti)`, the size of an array. -/
def beforeArray (env : SerialEnv) (p : Place) (hash : ℕ) : Walker Unit := do
  verify 8 hash
  let s ← get
  let arr := s.store.array p.block p.offset
  if s.reading then
    let newSize ← load 8
    inBlock p sizeofArray
    refuse (arr.lock ≠ 0) "can't clear locked array"
    modifyStore fun store => store.setArray p { arr with size := 0 }
    resizeCell env p newSize sizeofArray
  else save 8 arr.size

/-- `beforeLambda`: the type of the capture, and where that is. -/
def beforeLambda (env : SerialEnv) (p : Place) : Walker (TypeInfo × Place) := do
  let s ← get
  if s.reading then
    let hash ← load 8
    match env.lookup hash with
    | none => fail (.assert "type info not found")
    | some info =>
      refuse (env.gives (info.size + 16) = false) "out of heap memory"
      inBlock p 8
      let ptr := s.store.next
      modifyStore fun store =>
        ((store.alloc (info.size + 16)).clear ptr 0 (info.size + 16)).setCapture p
          (some (hash, ptr))
      pure (info, ⟨ptr, 16⟩)
  else
    match s.store.capture p.block p.offset with
    | none => fail (.null "lambda")
    | some (hash, ptr) =>
      save 8 hash
      match env.lookup hash with
      | none => fail (.assert "type info not found")
      | some info => pure (info, ⟨ptr, 16⟩)

/-! ## The walk -/

/-- The loop of `walk_array`. -/
def walkElements (walk : Place → Walker Unit) (stride : ℕ) : ℕ → Place → Walker Unit
  | 0, _ => pure ()
  | count + 1, pe => do
    walk pe
    walkElements walk stride count (pe.shift stride)

/-- What an annotation walks, one after the other. -/
def walkAll (walk : TypeInfo → Place → Walker Unit) : List (TypeInfo × Place) → Walker Unit
  | [] => pure ()
  | (info, p) :: rest => do
    walk info p
    walkAll walk rest

mutual

/-- **`DataWalker::walk`** for a `BinDataSerialize`; `deep` walks what the type does not show, a
lambda's capture or a handled object's parts. -/
def walkWith (env : SerialEnv) (deep : TypeInfo → Place → Walker Unit) :
    TypeInfo → Place → Walker Unit
  | .scalar t, pa => serialize pa t.size
  | .enumeration t enumHash, pa => do
    verify 8 enumHash
    serialize pa t.size
  | .string, pa => walkString pa
  | .struct hash _ fields, ps => do
    verify 8 hash
    walkFields env deep fields ps
  | .tuple _ argTypes, ps => walkEntries env deep argTypes ps 0
  | .dim hash dimSize count elem, pa => do
    verify 8 hash
    verify 4 dimSize
    let size := count * elem.size
    walkElements (walkWith env deep elem) (if count ≠ 0 then size / count else size) count pa
  | .array hash firstType, pa => do
    beforeArray env pa hash
    let arr := (← get).store.array pa.block pa.offset
    match arr.data with
    | none =>
      refuse (arr.size ≠ 0) "binary serialization of null pointers is not supported"
    | some data => walkElements (walkWith env deep firstType) firstType.size arr.size ⟨data, 0⟩
  | .variant _ argTypes, ps => do
    let fidx := leNat ((← get).store.bytesAt ps 4)
    walkChoice env deep argTypes fidx (ps.shift (alignOffset (max 4 argTypes.align) 4))
  | .function, pa => walkFunction env pa
  | .lambda, pa => do
    let (info, capture) ← beforeLambda env pa
    deep info capture
  | .handle hash _ _, pa => do
    verify 8 hash
    walkAll deep (env.annotationWalk hash pa (← get).store)
  | .unsupported _ message, _ => error message

/-- `walk_struct` -/
def walkFields (env : SerialEnv) (deep : TypeInfo → Place → Walker Unit) :
    Fields → Place → Walker Unit
  | .nil, _ => pure ()
  | .cons offset info rest, ps => do
    walkWith env deep info (ps.shift offset)
    walkFields env deep rest ps

/-- `walk_tuple` -/
def walkEntries (env : SerialEnv) (deep : TypeInfo → Place → Walker Unit) :
    Fields → Place → ℕ → Walker Unit
  | .nil, _, _ => pure ()
  | .cons _ info rest, ps, fieldOffset => do
    let fieldOffset := alignOffset info.align fieldOffset
    walkWith env deep info (ps.shift fieldOffset)
    walkEntries env deep rest ps (fieldOffset + info.size)

/-- The entry of `walk_variant`. -/
def walkChoice (env : SerialEnv) (deep : TypeInfo → Place → Walker Unit) :
    Fields → ℕ → Place → Walker Unit
  | .nil, _, _ => fail (.assert "invalid variant index")
  | .cons _ info _, 0, pf => walkWith env deep info pf
  | .cons _ _ rest, fidx + 1, pf => walkChoice env deep rest fidx pf

end

/-- The walk, `depth` bounding how deep lambdas and handled objects nest. -/
def walk (env : SerialEnv) : ℕ → TypeInfo → Place → Walker Unit
  | 0 => walkWith env fun _ _ => fail (.hang "walk")
  | depth + 1 => walkWith env (walk env depth)

/-- A writer. -/
def writer (store : Store) : Serializer := ⟨false, fun _ => 0, 0, 0, store, []⟩

/-- A reader of `len` bytes. -/
def reader (data : Memory) (len : ℕ) (store : Store) : Serializer := ⟨true, data, len, 0, store, []⟩

/-- `_builtin_binary_save`: the serializer when its walk is done. -/
def binarySave (env : SerialEnv) (depth : ℕ) (info : TypeInfo) (obj : Place) (store : Store) :
    Outcome Serializer Unit :=
  walk env depth info obj (writer store)

/-- `_builtin_binary_load`, which only takes reference types. -/
def binaryLoad (env : SerialEnv) (depth : ℕ) (info : TypeInfo) (obj : Place) (data : Memory)
    (len : ℕ) (store : Store) : Outcome Serializer Unit :=
  if info.isRefType then walk env depth info obj (reader data len store)
  else .ok () (reader data len store)

end DaScript
