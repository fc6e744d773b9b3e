import DaScript.Foundations.Machine
import DaScript.Misc.AnyHash

/-!
# Runtime/Table — the tables a script runs on

`Table` and `TableHash` of `simulate/runtime_table.h`, with `table_clear` of
`simulate/runtime_table.cpp`.  A string table of at most eight slots is **packed**: dense in
`[0,size)`, its 64-bit hashes compared in place of the keys.  Every other table is
**open-addressed**: a string slot keeps a 32-bit hash key, any other slot a one-byte control.

The three regions of a table's block are read as functions of the slot; `data` is the block's
identity, `0` for `nullptr`, and moves on whenever the block is reallocated.
-/

open Function

namespace DaScript

open Probing

/-- What the template argument `KeyType` of `TableHash` brings along. -/
structure KeyType (K : Type*) where
  /-- `PackedPolicy<KeyType>::storesHash`: the string keys -/
  storesHash : Bool
  /-- `sizeof(KeyType)` -/
  sizeofKey : ℕ
  /-- `KeyCompare<KeyType>` -/
  keyCompare : K → K → Bool
  /-- `hash_function` -/
  hashFunction : K → UInt64

/-- `Table`, with the contents of its block. -/
structure Table (K V : Type*) where
  data : ℕ
  size : ℕ
  capacity : ℕ
  magic : UInt32
  lock : UInt32
  shared : Bool
  hopeless : Bool
  foregoLockCheck : Bool
  tableNoHash : Bool
  /-- the value region -/
  values : ℕ → V
  /-- the key region -/
  keys : ℕ → K
  /-- the hash region, at the width of the table's regime -/
  hashes : ℕ → UInt64
  tombstones : ℕ

def tableMaxLinearCapacity : ℕ := 8

def minCapacity : ℕ := 8

def ctrlOccupied : UInt64 := 2

/-- `hashToHashKey`: the 32-bit hash key of a string, off the two sentinels. -/
def hashToHashKey (hash : UInt32) : UInt32 := if hash ≤ 1 then 16777619 else hash

variable {K V : Type*} [Inhabited K] [Zero V]

/-- `sizeof(Table)` zero bytes. -/
def Table.zero : Table K V where
  data := 0
  size := 0
  capacity := 0
  magic := 0
  lock := 0
  shared := false
  hopeless := false
  foregoLockCheck := false
  tableNoHash := false
  values := fun _ => 0
  keys := fun _ => default
  hashes := fun _ => 0
  tombstones := 0

def tableLiveSlot (tab : Table K V) (i : ℕ) : Bool :=
  if !tab.tableNoHash ∧ tab.capacity ≤ tableMaxLinearCapacity then i < tab.size
  else hashKilled < tab.hashes i

namespace TableHash

variable (T : KeyType K) (valueTypeSize : ℕ)

/-- The hash region of a table of this capacity is packed. -/
def packed (capacity : ℕ) : Bool := T.storesHash && capacity ≤ tableMaxLinearCapacity

/-- The slot after `index`, `mask` being the capacity less one. -/
def nextSlot (capacity : ℕ) (index : ℕ) : ℕ := (index + 1) &&& (capacity - 1)

/-- The home slot of a hash. -/
def homeSlot (capacity : ℕ) (hash : UInt64) : ℕ := hash.toNat &&& (capacity - 1)

/-- The hash key a large string table stores for a hash. -/
def storedKey (hash : UInt64) : UInt64 := (hashToHashKey hash.toUInt32).toUInt64

/-- What an open-addressed table keeps in a slot it gives to a hash. -/
def ownControl (hash : UInt64) : UInt64 := if T.storesHash then storedKey hash else ctrlOccupied

/-- `PackedPolicy<char *>::find`: the first of the eight slots with this hash. -/
def packedFind (tab : Table K V) (hash : UInt64) : Option ℕ :=
  (List.range tableMaxLinearCapacity).find? fun i => tab.hashes i == hash

/-- What `find` and `erase` make of a slot. -/
def seeFind (tab : Table K V) (key : K) (hash : UInt64) (index : ℕ) : Seen :=
  let kh := tab.hashes index
  if kh = hashEmpty then .empty
  else if kh = ownControl T hash ∧ T.keyCompare (tab.keys index) key then .hit
  else if kh = hashKilled then .killed
  else .miss

/-- What `reserve` makes of a slot: the killed one is told first, and a control past it is taken
for occupied. -/
def seeReserve (tab : Table K V) (key : K) (hash : UInt64) (index : ℕ) : Seen :=
  let kh := tab.hashes index
  if kh = hashEmpty then .empty
  else if kh = hashKilled then .killed
  else if (T.storesHash → kh = storedKey hash) ∧ T.keyCompare (tab.keys index) key then .hit
  else .miss

/-- `TableHash::find`: the slot of the key, `none` for `-1`.  The outer `none` is a probe that goes
round for ever: its index repeats within `capacity` steps. -/
def find (tab : Table K V) (key : K) (hash : UInt64) : Option (Option ℕ) :=
  if tab.capacity = 0 then some none
  else if packed T tab.capacity then some (packedFind tab hash)
  else scan (seeFind T tab key hash) (nextSlot tab.capacity) tab.capacity
    (homeSlot tab.capacity hash)

/-- `insertNew`: the first empty slot of a fresh table. -/
def insertNew (tab : Table K V) (hash : UInt64) : Option ℕ :=
  vacant (fun i => tab.hashes i == hashEmpty) (nextSlot tab.capacity) tab.capacity
    (homeSlot tab.capacity hash)

/-- The hash `reserveInternal` buckets an old slot by, and what it stores for it: the 64-bit hash
of a packed string, the stored 32-bit key of a large one, the recomputed hash of any other key. -/
def rebucket (tab : Table K V) (i : ℕ) : UInt64 × UInt64 :=
  if T.storesHash then
    if tab.capacity ≤ tableMaxLinearCapacity then (tab.hashes i, storedKey (tab.hashes i))
    else (tab.hashes i, tab.hashes i)
  else (T.hashFunction (tab.keys i), ctrlOccupied)

/-- The slots `reserveInternal` copies: `[0,size)` of a packed table, the live ones of any other. -/
def copies (tab : Table K V) (i : ℕ) : Bool :=
  if packed T tab.capacity then i < tab.size else hashKilled < tab.hashes i

/-- The copy loop of `reserveInternal`, over the first `n` old slots. -/
def copyEntries (tab newTab : Table K V) : ℕ → Option (Table K V)
  | 0 => some newTab
  | i + 1 => (copyEntries tab newTab i).bind fun t =>
      if copies T tab i then
        (insertNew t (rebucket T tab i).1).map fun index =>
          { t with
            hashes := update t.hashes index (rebucket T tab i).2
            keys := update t.keys index (tab.keys i)
            values := update t.values index (tab.values i) }
      else some t

/-- The bytes one slot takes in a table of this capacity. -/
def perSlot (capacity : ℕ) : ℕ :=
  valueTypeSize + T.sizeofKey + (if packed T capacity then 8 else if T.storesHash then 4 else 1)

/-- The fresh table `reserveInternal` copies into: values and hashes zeroed, no tombstone. -/
def freshTable (tab : Table K V) (newCapacity : ℕ) : Table K V :=
  { tab with
    data := tab.data + 1
    capacity := newCapacity
    magic := 0
    tableNoHash := !T.storesHash
    values := fun _ => 0
    keys := fun _ => default
    hashes := fun _ => 0
    tombstones := 0 }

/-- `reserveInternal`, every allocation succeeding. -/
def reserveInternal (tab : Table K V) (newCapacity : ℕ) : Outcome (Table K V) Unit :=
  if newCapacity = 0 ∨ newCapacity &&& (newCapacity - 1) ≠ 0 then
    .error (.verify "newCapacity must be a nonzero power of 2") tab
  else if tab.magic ≠ 0 ∨ tab.lock ≠ 0 then .error (.throw "can't grow a locked table") tab
  else if perSlot T valueTypeSize newCapacity ≠ 0 ∧
      newCapacity > (2 ^ 64 - 1) / perSlot T valueTypeSize newCapacity then
    .error (.throw "can't grow table, capacity*perSlot overflows uint64") tab
  else if tab.size = 0 then .ok () (freshTable T tab newCapacity)
  else
    match copyEntries T tab (freshTable T tab newCapacity)
        (if packed T tab.capacity then tab.size else tab.capacity) with
    | none => .error (.hang "insertNew") tab
    | some newTab => .ok () newTab

def grow (tab : Table K V) : Outcome (Table K V) Unit :=
  if tab.capacity > 2 ^ 62 then .error (.throw "table grow: capacity exceeds 2^62") tab
  else reserveInternal T valueTypeSize tab (max minCapacity (tab.capacity * 2))

def rehash (tab : Table K V) : Outcome (Table K V) Unit :=
  reserveInternal T valueTypeSize tab tab.capacity

/-- The doubling loop of `TableHash::reserve(size)`. -/
def doubleTo (size : ℕ) : ℕ → ℕ → Option ℕ
  | 0, _ => none
  | fuel + 1, newCapacity =>
    if newCapacity < size then doubleTo size fuel (newCapacity * 2) else some newCapacity

/-- `TableHash::reserve(tab, size, at)`.  Below `2^62` the loop ends within 62 doublings of the
least capacity. -/
def reserveSize (tab : Table K V) (size : ℕ) : Outcome (Table K V) Unit :=
  if size ≤ tab.capacity then .ok () tab
  else if size > 2 ^ 62 then .error (.throw "table reserve: size exceeds 2^62") tab
  else
    match doubleTo size 64 (max minCapacity (tab.capacity * 2)) with
    | none => .error (.hang "reserve") tab
    | some newCapacity => reserveInternal T valueTypeSize tab newCapacity

/-- Slot `index` is given to `key`: the write both insertion paths of `reserve` end in. -/
def occupy (tab : Table K V) (index : ℕ) (key : K) (control : UInt64) : Table K V :=
  { tab with
    hashes := update tab.hashes index control
    keys := update tab.keys index key
    size := tab.size + 1 }

/-- The load test at the head of an open-addressed `reserve`. -/
def makeRoom (tab : Table K V) : Outcome (Table K V) Unit :=
  if tab.size ≥ tab.capacity / 2 then grow T valueTypeSize tab
  else if (tab.capacity - tab.size) / 2 < tab.tombstones then rehash T valueTypeSize tab
  else .ok () tab

/-- The probe of an open-addressed `reserve`. -/
def insertOpen (tab : Table K V) (key : K) (hash : UInt64) : Outcome (Table K V) ℕ :=
  match place (seeReserve T tab key hash) (nextSlot tab.capacity) tab.capacity
      (homeSlot tab.capacity hash) none with
  | none => .error (.hang "reserve") tab
  | some (.found index) => .ok index tab
  | some (.empty index) =>
    if tab.lock ≠ 0 then .error (.throw "can't insert into locked table") tab
    else .ok index (occupy tab index key (ownControl T hash))
  | some (.killed index) =>
    if tab.lock ≠ 0 then .error (.throw "can't insert into locked table") tab
    else .ok index
      { occupy tab index key (ownControl T hash) with tombstones := dec64 tab.tombstones }

/-- `reserve` of an open-addressed table. -/
def reserveOpen (tab : Table K V) (key : K) (hash : UInt64) : Outcome (Table K V) ℕ :=
  match makeRoom T valueTypeSize tab with
  | .error e tab => .error e tab
  | .ok _ tab => insertOpen T tab key hash

/-- `TableHash::reserve`, `retries` counting the `goto retry` left. -/
def reserveRetry : ℕ → Table K V → K → UInt64 → Outcome (Table K V) ℕ
  | 0, tab, _, _ => .error (.hang "retry") tab
  | retries + 1, tab, key, hash =>
    if packed T tab.capacity then
      match if tab.capacity ≠ 0 then packedFind tab hash else none with
      | some idx => .ok idx tab
      | none =>
        if tab.lock ≠ 0 then .error (.throw "can't insert into locked table") tab
        else if tab.size ≥ tab.capacity then
          match reserveInternal T valueTypeSize tab
              (if tab.capacity = 0 then minCapacity else tab.capacity * 4) with
          | .error e tab => .error e tab
          | .ok _ tab => reserveRetry retries tab key hash
        else .ok tab.size (occupy tab tab.size key hash)
    else if !T.storesHash ∧ tab.capacity = 0 then
      if tab.lock ≠ 0 then .error (.throw "can't insert into locked table") tab
      else
        match reserveInternal T valueTypeSize tab minCapacity with
        | .error e tab => .error e tab
        | .ok _ tab => reserveRetry retries tab key hash
    else reserveOpen T valueTypeSize tab key hash

/-- `TableHash::reserve(tab, key, hash)`: the key's slot, inserted if it was absent.  A table is
re-dispatched at most twice, once out of capacity zero and once out of the packed regime. -/
def reserve (tab : Table K V) (key : K) (hash : UInt64) : Outcome (Table K V) ℕ :=
  reserveRetry T valueTypeSize 3 tab key hash

/-- A packed table loses slot `i` to its last one. -/
def swapRemove (tab : Table K V) (i : ℕ) : Table K V :=
  let last := tab.size - 1
  let moved : Table K V := if i ≠ last then
      { tab with
        hashes := update tab.hashes i (tab.hashes last)
        keys := update tab.keys i (tab.keys last)
        values := update tab.values i (tab.values last) }
    else tab
  { moved with
    hashes := update moved.hashes last 0
    values := update moved.values last 0
    size := tab.size - 1 }

/-- An open-addressed table kills slot `index`. -/
def killSlot (tab : Table K V) (index : ℕ) : Table K V :=
  { tab with
    size := tab.size - 1
    tombstones := tab.tombstones + 1
    hashes := update tab.hashes index hashKilled
    values := update tab.values index 0 }

/-- `TableHash::erase`: the slot the key was in, `none` for `-1`. -/
def erase (tab : Table K V) (key : K) (hash : UInt64) : Outcome (Table K V) (Option ℕ) :=
  if tab.capacity = 0 then .ok none tab
  else if packed T tab.capacity then
    match packedFind tab hash with
    | none => .ok none tab
    | some i => .ok (some i) (swapRemove tab i)
  else
    match scan (seeFind T tab key hash) (nextSlot tab.capacity) tab.capacity
        (homeSlot tab.capacity hash) with
    | none => .error (.hang "erase") tab
    | some none => .ok none tab
    | some (some index) => .ok (some index) (killSlot tab index)

end TableHash

def tableClear (tab : Table K V) : Outcome (Table K V) Unit :=
  if tab.lock ≠ 0 then .error (.throw "can't clear locked table") tab
  else if tab.data ≠ 0 then
    .ok () { tab with hashes := fun _ => 0, values := fun _ => 0, size := 0, tombstones := 0 }
  else .ok () { tab with size := 0, tombstones := 0 }

end DaScript
