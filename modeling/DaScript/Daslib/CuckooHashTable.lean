import DaScript.Daslib.FlatHashTable

/-!
# Daslib/CuckooHashTable — the cuckoo hash table of the library

`TCuckooHashTable` of `daslib/cuckoo_hash_table.das`: a key has two slots, one for each hash
function, and a slot keeps the hash that led its key there; a hash of `0` is an empty slot.  An
insertion that finds both slots taken takes one of them, at random, and goes on with the entry it
put out.

The loops of `insert` and the calls of `operator []` in itself are counted; a count that runs out is
a call that has not returned.
-/

open Function

namespace DaScript

open Probing

/-- What the template parameters bring along. -/
structure CuckooKeys (K : Type*) where
  /-- `hashFunction0Name` -/
  hash0 : K → UInt64
  /-- `hashFunction1Name` -/
  hash1 : K → UInt64
  /-- `==` on keys -/
  equal : K → K → Bool

/-- `TCuckooHashTable`, `khv` read as three functions of the slot and a length. -/
structure CuckooHashTable (K V : Type*) where
  /-- `khv[i].key` -/
  key : ℕ → K
  /-- `khv[i].hash` -/
  hash : ℕ → UInt64
  /-- `khv[i].value` -/
  value : ℕ → V
  /-- `length(khv)` -/
  length : ℕ
  mask : ℕ
  dataLength : ℕ
  /-- what `(random_int(seed) & 1) == 0` is going to say -/
  seed : ℕ → Bool

namespace CuckooHashTable

open FlatHashTable (maxInt clz homeIndex)

variable {K V : Type*}

/-- Slot `index` is given to `key`; its value stays. -/
def occupy (t : CuckooHashTable K V) (index : ℕ) (key : K) (hash : UInt64) :
    CuckooHashTable K V :=
  { t with
    key := update t.key index key
    hash := update t.hash index hash
    dataLength := t.dataLength + 1 }

/-- `khv[index].value = value` -/
def setValue (t : CuckooHashTable K V) (index : ℕ) (value : V) : CuckooHashTable K V :=
  { t with value := update t.value index value }

/-- An empty slot is given to the entry in flight. -/
def settle (t : CuckooHashTable K V) (index : ℕ) (key : K) (hash : UInt64) (value : V) :
    CuckooHashTable K V := setValue (occupy t index key hash) index value

/-- A slot is given to the entry in flight, and its own entry put out. -/
def evict (t : CuckooHashTable K V) (index : ℕ) (key : K) (hash : UInt64) (value : V) :
    CuckooHashTable K V :=
  { t with
    key := update t.key index key
    hash := update t.hash index hash
    value := update t.value index value
    seed := fun i => t.seed (i + 1) }

def clear (t : CuckooHashTable K V) : CuckooHashTable K V :=
  { t with hash := fun _ => 0, dataLength := 0 }

variable (T : CuckooKeys K)

/-- `key_index`: the slot of the key, `none` for `-1`. -/
def keyIndex (t : CuckooHashTable K V) (key : K) : Option ℕ :=
  let firstHash := T.hash0 key
  let index := homeIndex t.mask firstHash
  if t.hash index = firstHash ∧ T.equal (t.key index) key then some index
  else
    let secondHash := T.hash1 key
    let index := homeIndex t.mask secondHash
    if t.hash index = secondHash ∧ T.equal (t.key index) key then some index
    else none

def keyExists (t : CuckooHashTable K V) (key : K) : Bool := keyIndex T t key ≠ none

/-- What `get` shows its block and `?[]` points to. -/
def get (t : CuckooHashTable K V) (key : K) : Option V := (keyIndex T t key).map t.value

/-- `erase`: whether the key was there. -/
def erase (t : CuckooHashTable K V) (key : K) : Bool × CuckooHashTable K V :=
  match keyIndex T t key with
  | none => (false, t)
  | some index =>
    (true, { t with hash := update t.hash index 0, dataLength := t.dataLength - 1 })

/-- The `for` of `insert`: the table, and the entry in flight when the turns are over. -/
def displace : ℕ → CuckooHashTable K V → K → V → CuckooHashTable K V × Option (K × V)
  | 0, t, key, value => (t, some (key, value))
  | turns + 1, t, key, value =>
    let firstHash := T.hash0 key
    let firstIndex := homeIndex t.mask firstHash
    if t.hash firstIndex = 0 then (settle t firstIndex key firstHash value, none)
    else
      let secondHash := T.hash1 key
      let secondIndex := homeIndex t.mask secondHash
      if t.hash secondIndex = 0 then (settle t secondIndex key secondHash value, none)
      else if t.seed 0 then
        displace turns (evict t firstIndex key firstHash value) (t.key firstIndex)
          (t.value firstIndex)
      else
        displace turns (evict t secondIndex key secondHash value) (t.key secondIndex)
          (t.value secondIndex)

/-- The loop of `reserve` over the first slots of the old array, `self[t.key] <- t.value` being done
by `index`. -/
def reinsert (index : CuckooHashTable K V → K → Outcome (CuckooHashTable K V) ℕ)
    (old : CuckooHashTable K V) : ℕ → CuckooHashTable K V → Outcome (CuckooHashTable K V) Unit
  | 0, t => .ok () t
  | i + 1, t => (reinsert index old i t).bind fun _ t =>
      if old.hash i ≠ 0 then
        (index t (old.key i)).bind fun j t => .ok () (setValue t j (old.value i))
      else .ok () t

variable [Inhabited K] [Inhabited V]

/-- A table of `size` empty slots: `TCuckooHashTable(initialSize)`. -/
def sized (size : ℕ) (seed : ℕ → Bool) : CuckooHashTable K V where
  key := fun _ => default
  hash := fun _ => 0
  value := fun _ => default
  length := size
  mask := size - 1
  dataLength := 0
  seed := seed

/-- `reserve`.  A size past the largest `int` is negative, and an array of negative size an
error. -/
def reserveBy (index : CuckooHashTable K V → K → Outcome (CuckooHashTable K V) ℕ)
    (t : CuckooHashTable K V) (newSize : ℕ) : Outcome (CuckooHashTable K V) Unit :=
  if maxInt < newSize then .error (.throw "resizing array to negative size") t
  else reinsert index t t.length (sized newSize t.seed)

/-- `insert`: so many turns of its `while`, each ending in `grow`. -/
def insertBy (index : CuckooHashTable K V → K → Outcome (CuckooHashTable K V) ℕ) :
    ℕ → CuckooHashTable K V → K → V → Outcome (CuckooHashTable K V) Unit
  | 0, t, _, _ => .error (.hang "insert") t
  | rounds + 1, t, key, value =>
    match displace T (t.length / 2) t key value with
    | (t, none) => .ok () t
    | (t, some e) => (reserveBy index t (t.length * 2)).bind fun _ t =>
        insertBy index rounds t e.1 e.2

/-- The slots of the key, and then the empty ones among them, in `operator []`; `insert` if there
are none. -/
def insertSlot (insert : CuckooHashTable K V → K → V → Outcome (CuckooHashTable K V) Unit)
    (t : CuckooHashTable K V) (key : K) : Outcome (CuckooHashTable K V) ℕ :=
  let firstHash := T.hash0 key
  let firstIndex := homeIndex t.mask firstHash
  if t.hash firstIndex = firstHash ∧ T.equal (t.key firstIndex) key then .ok firstIndex t
  else
    let secondHash := T.hash1 key
    let secondIndex := homeIndex t.mask secondHash
    if t.hash secondIndex = secondHash ∧ T.equal (t.key secondIndex) key then .ok secondIndex t
    else if t.hash firstIndex = 0 then .ok firstIndex (occupy t firstIndex key firstHash)
    else if t.hash secondIndex = 0 then .ok secondIndex (occupy t secondIndex key secondHash)
    else
      (insert t key default).bind fun _ t =>
        match keyIndex T t key with
        | some index => .ok index t
        | none => .error (.undefined "khv[-1]") t

/-- `operator []`: the slot referred to. -/
def index : ℕ → CuckooHashTable K V → K → Outcome (CuckooHashTable K V) ℕ
  | 0, t, _ => .error (.hang "operator [] in itself") t
  | fuel + 1, t, key =>
    (if (t.mask + 1) / 2 < t.dataLength then reserveBy (index fuel) t (t.length * 2)
      else .ok () t).bind fun _ t => insertSlot T (insertBy T (index fuel) fuel) t key

/-- `self[key] := value` -/
def assign (fuel : ℕ) (t : CuckooHashTable K V) (key : K) (value : V) :
    Outcome (CuckooHashTable K V) Unit :=
  (index T fuel t key).bind fun i t => .ok () (setValue t i value)

def reserve (fuel : ℕ) (t : CuckooHashTable K V) (newSize : ℕ) :
    Outcome (CuckooHashTable K V) Unit := reserveBy (index T fuel) t newSize

/-- `for (kv in data) { self[kv.k] := kv.v }` -/
def assignAll (fuel : ℕ) :
    List (K × V) → CuckooHashTable K V → Outcome (CuckooHashTable K V) Unit
  | [], t => .ok () t
  | kv :: data, t => (assign T fuel t kv.1 kv.2).bind fun _ t => assignAll fuel data t

/-- `TCuckooHashTable(data)`, of an array and of a fixed array. -/
def ofArray (fuel : ℕ) (data : List (K × V)) (seed : ℕ → Bool) :
    Outcome (CuckooHashTable K V) Unit :=
  let initialSize := 1 <<< (32 - clz data.length)
  if maxInt < initialSize then .error (.throw "resizing array to negative size") (sized 0 seed)
  else assignAll T fuel data (sized initialSize seed)

end CuckooHashTable

end DaScript
