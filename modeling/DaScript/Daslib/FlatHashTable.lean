import DaScript.Foundations.Machine
import DaScript.Misc.AnyHash
import Mathlib.Data.Nat.Size

/-!
# Daslib/FlatHashTable — the flat hash table of the library

`TFlatHashTable` of `daslib/flat_hash_table.das`: keys, hashes and values in three arrays of one
power-of-two length, probed linearly.  A hash of `0` is an empty slot, a hash of `1` a tombstone.

`reserve` puts the entries back through `operator []`, which may reserve again; `index` counts how
deep the calls may go.
-/

open Function

namespace DaScript

open Probing

/-- What the template parameters bring along. -/
structure FlatKeys (K : Type*) where
  /-- `hashFunctionName` -/
  hashFunction : K → UInt64
  /-- `==` on keys -/
  equal : K → K → Bool

/-- `TFlatHashTable`, its three arrays read as functions of the slot; each is `capacity` long. -/
structure FlatHashTable (K V : Type*) where
  keyData : ℕ → K
  hashes : ℕ → UInt64
  valueData : ℕ → V
  mask : ℕ
  dataLength : ℕ
  capacity : ℕ
  tombstones : ℕ

namespace FlatHashTable

/-- The largest `int`. -/
def maxInt : ℕ := 2 ^ 31 - 1

/-- `clz` of a `uint` -/
def clz (x : ℕ) : ℕ := 32 - Nat.size x

/-- `int(hash) & mask`, the mask being no negative `int`. -/
def homeIndex (mask : ℕ) (hash : UInt64) : ℕ := hash.toNat % 2 ^ 32 &&& mask

/-- `(index + 1) & mask` -/
def nextIndex (mask index : ℕ) : ℕ := (index + 1) &&& mask

variable {K V : Type*}

/-- Slot `index` is given to `key`; its value stays. -/
def occupy (t : FlatHashTable K V) (index : ℕ) (key : K) (hash : UInt64) : FlatHashTable K V :=
  { t with
    keyData := update t.keyData index key
    hashes := update t.hashes index hash
    dataLength := t.dataLength + 1 }

/-- `value_data[index] = value` -/
def setValue (t : FlatHashTable K V) (index : ℕ) (value : V) : FlatHashTable K V :=
  { t with valueData := update t.valueData index value }

def clear (t : FlatHashTable K V) : FlatHashTable K V :=
  { t with hashes := fun _ => hashEmpty, dataLength := 0, tombstones := 0 }

variable (T : FlatKeys K)

/-- What the loops of `key_index` and `operator []` make of a slot. -/
def see (t : FlatHashTable K V) (key : K) (hash : UInt64) (index : ℕ) : Seen :=
  let h := t.hashes index
  if h = hash then if T.equal (t.keyData index) key then .hit else .miss
  else if h = hashKilled then .killed
  else if h = hashEmpty then .empty
  else .miss

/-- `key_index`: the slot of the key, `none` for `-1`.  The outer `none` is a probe that goes round
for ever. -/
def keyIndex (t : FlatHashTable K V) (key : K) : Option (Option ℕ) :=
  scan (see T t key (T.hashFunction key)) (nextIndex t.mask) t.capacity
    (homeIndex t.mask (T.hashFunction key))

def keyExists (t : FlatHashTable K V) (key : K) : Option Bool :=
  (keyIndex T t key).map fun index => index ≠ none

/-- What `get` shows its block and `?[]` points to. -/
def get (t : FlatHashTable K V) (key : K) : Option (Option V) :=
  (keyIndex T t key).map fun index => index.map t.valueData

/-- `erase`: whether the key was there. -/
def erase (t : FlatHashTable K V) (key : K) : Outcome (FlatHashTable K V) Bool :=
  match keyIndex T t key with
  | none => .error (.hang "key_index") t
  | some none => .ok false t
  | some (some index) => .ok true
      { t with
        hashes := update t.hashes index hashKilled
        tombstones := t.tombstones + 1
        dataLength := t.dataLength - 1 }

/-- The probe of `operator []`: the slot referred to. -/
def insertSlot (t : FlatHashTable K V) (key : K) : Outcome (FlatHashTable K V) ℕ :=
  let hash := T.hashFunction key
  match place (see T t key hash) (nextIndex t.mask) t.capacity (homeIndex t.mask hash) none with
  | none => .error (.hang "operator []") t
  | some (.found index) => .ok index t
  | some (.empty index) => .ok index (occupy t index key hash)
  | some (.killed index) => .ok index
      { occupy t index key hash with tombstones := t.tombstones - 1 }

/-- The loop of `reserve` over the first slots of the old arrays, `self[k] <- v` being done by
`index`. -/
def reinsert (index : FlatHashTable K V → K → Outcome (FlatHashTable K V) ℕ)
    (old : FlatHashTable K V) : ℕ → FlatHashTable K V → Outcome (FlatHashTable K V) Unit
  | 0, t => .ok () t
  | i + 1, t => (reinsert index old i t).bind fun _ t =>
      if hashKilled < old.hashes i then
        (index t (old.keyData i)).bind fun j t => .ok () (setValue t j (old.valueData i))
      else .ok () t

variable [Inhabited K] [Inhabited V]

/-- A table of `size` empty slots: `TFlatHashTable(initialSize)`. -/
def sized (size : ℕ) : FlatHashTable K V where
  keyData := fun _ => default
  hashes := fun _ => hashEmpty
  valueData := fun _ => default
  mask := size - 1
  dataLength := 0
  capacity := size
  tombstones := 0

/-- `reserve`.  A size past the largest `int` is negative, and an array of negative size an
error. -/
def reserveBy (index : FlatHashTable K V → K → Outcome (FlatHashTable K V) ℕ)
    (t : FlatHashTable K V) (newSize : ℕ) : Outcome (FlatHashTable K V) Unit :=
  if maxInt < newSize then .error (.throw "resizing array to negative size") t
  else reinsert index t t.capacity (sized newSize)

/-- The tests at the head of `operator []`, with `grow` and `rehash`. -/
def makeRoom (index : FlatHashTable K V → K → Outcome (FlatHashTable K V) ℕ)
    (t : FlatHashTable K V) : Outcome (FlatHashTable K V) Unit :=
  if t.capacity / 2 < t.dataLength then reserveBy index t (t.capacity * 2)
  else if (t.capacity - t.dataLength) / 2 < t.tombstones then reserveBy index t t.capacity
  else .ok () t

/-- `operator []` at most so many calls of itself deep: the slot referred to. -/
def index : ℕ → FlatHashTable K V → K → Outcome (FlatHashTable K V) ℕ
  | 0, t, _ => .error (.hang "operator [] in itself") t
  | depth + 1, t, key => (makeRoom (index depth) t).bind fun _ t => insertSlot T t key

/-- `self[key] := value` -/
def assign (depth : ℕ) (t : FlatHashTable K V) (key : K) (value : V) :
    Outcome (FlatHashTable K V) Unit :=
  (index T depth t key).bind fun i t => .ok () (setValue t i value)

def reserve (depth : ℕ) (t : FlatHashTable K V) (newSize : ℕ) : Outcome (FlatHashTable K V) Unit :=
  reserveBy (index T depth) t newSize

/-- `for (kv in data) { self[kv.k] := kv.v }` -/
def assignAll (depth : ℕ) :
    List (K × V) → FlatHashTable K V → Outcome (FlatHashTable K V) Unit
  | [], t => .ok () t
  | kv :: data, t => (assign T depth t kv.1 kv.2).bind fun _ t => assignAll depth data t

/-- `TFlatHashTable(data)`, of an array and of a fixed array. -/
def ofArray (depth : ℕ) (data : List (K × V)) : Outcome (FlatHashTable K V) Unit :=
  let initialSize := 1 <<< (32 - clz data.length)
  if maxInt < initialSize then .error (.throw "resizing array to negative size") (sized 0)
  else assignAll T depth data (sized initialSize)

end FlatHashTable

end DaScript
