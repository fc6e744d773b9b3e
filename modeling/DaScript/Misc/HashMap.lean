import DaScript.Foundations.Machine
import DaScript.Misc.AnyHash

/-!
# Misc/HashMap — the compiler's hash map

`daslang_hash_map` of `das_hash_map/das_hash_map.h`: three parallel vectors, probed linearly.  A
slot keeps the hash of its key, moved off the two sentinels by `to_hash_key`; a lookup starts from
the raw hash and a rehash from the one kept.
-/

open Function

namespace DaScript

open Probing

/-- What the template arguments `Hash` and `KeyEqual` bring along. -/
structure Hasher (K : Type*) where
  /-- `hash_` -/
  hash : K → UInt64
  /-- `key_equal_` -/
  keyEqual : K → K → Bool

/-- `daslang_hash_map`, its three vectors read as functions of the slot and of one size. -/
structure HashMap (K V : Type*) where
  /-- `hashes_.size()` -/
  bucketCount : ℕ
  hashes : ℕ → UInt64
  keys : ℕ → K
  values : ℕ → V
  size : ℕ
  tombstones : ℕ

namespace HashMap

def hashRemap : UInt64 := 1099511628211

def toHashKey (h : UInt64) : UInt64 := if h ≤ hashKilled then hashRemap else h

/-- `minCapacity` -/
def leastCapacity : ℕ := 8

/-- `vector<uint64_t>::max_size()` -/
def maxSize : ℕ := (2 ^ 63 - 1) / 8

/-- `next_probe_slot`, in a map of this capacity. -/
def nextProbeSlot (capacity index : ℕ) : ℕ := (index + 1) &&& (capacity - 1)

/-- `raw_hash & mask` -/
def homeBucket (capacity : ℕ) (hash : UInt64) : ℕ := hash.toNat &&& (capacity - 1)

variable {K V : Type*} [Inhabited K] [Inhabited V]

/-- The default-constructed map. -/
def new : HashMap K V where
  bucketCount := 0
  hashes := fun _ => hashEmpty
  keys := fun _ => default
  values := fun _ => default
  size := 0
  tombstones := 0

variable (T : Hasher K)

/-- What `find_index` makes of a slot. -/
def seeFind (m : HashMap K V) (key : K) (rawHash : UInt64) (index : ℕ) : Seen :=
  let kh := m.hashes index
  if kh = hashEmpty then .empty
  else if kh = toHashKey rawHash ∧ T.keyEqual (m.keys index) key then .hit
  else if kh = hashKilled then .killed
  else .miss

/-- What `reserve_slot` makes of a slot. -/
def seeReserve (m : HashMap K V) (key : K) (rawHash : UInt64) (index : ℕ) : Seen :=
  let kh := m.hashes index
  if kh = hashEmpty then .empty
  else if kh = hashKilled then .killed
  else if kh = toHashKey rawHash ∧ T.keyEqual (m.keys index) key then .hit
  else .miss

/-- `find_index`: the slot of the key, `none` for `SIZE_MAX`.  The outer `none` is a probe that goes
round for ever. -/
def findIndex (m : HashMap K V) (key : K) (rawHash : UInt64) : Option (Option ℕ) :=
  if m.bucketCount = 0 then some none
  else scan (seeFind T m key rawHash) (nextProbeSlot m.bucketCount) m.bucketCount
    (homeBucket m.bucketCount rawHash)

/-- `find`, as an index: `bucket_count()` for `end()`. -/
def find (m : HashMap K V) (key : K) : Option ℕ :=
  (findIndex T m key (T.hash key)).map fun idx => idx.getD m.bucketCount

def count (m : HashMap K V) (key : K) : Option ℕ :=
  (findIndex T m key (T.hash key)).map fun idx => if idx = none then 0 else 1

def contains (m : HashMap K V) (key : K) : Option Bool :=
  (findIndex T m key (T.hash key)).map fun idx => idx ≠ none

/-- The copy loop of `rehash_into`, over the first `n` old slots. -/
def rehashEntries (m new : HashMap K V) : ℕ → Option (HashMap K V)
  | 0 => some new
  | i + 1 => (rehashEntries m new i).bind fun t =>
      if m.hashes i ≤ hashKilled then some t
      else
        (vacant (fun j => t.hashes j == hashEmpty) (nextProbeSlot t.bucketCount) t.bucketCount
          (homeBucket t.bucketCount (m.hashes i))).map fun j =>
          { t with
            hashes := update t.hashes j (m.hashes i)
            keys := update t.keys j (m.keys i)
            values := update t.values j (m.values i) }

/-- The three new vectors of `rehash_into`. -/
def freshMap (m : HashMap K V) (newCap : ℕ) : HashMap K V :=
  { m with
    bucketCount := newCap
    hashes := fun _ => hashEmpty
    keys := fun _ => default
    values := fun _ => default
    tombstones := 0 }

/-- `rehash_into`.  A vector past `max_size` raises an error before anything has moved. -/
def rehashInto (m : HashMap K V) (newCap : ℕ) : Outcome (HashMap K V) Unit :=
  if newCap > maxSize then .error (.throw "vector") m
  else
    match rehashEntries m (freshMap m newCap) m.bucketCount with
    | none => .error (.hang "probe") m
    | some new => .ok () new

def grow (m : HashMap K V) : Outcome (HashMap K V) Unit :=
  rehashInto m (if m.bucketCount = 0 then leastCapacity else m.bucketCount * 2)

def rehashSameCapacity (m : HashMap K V) : Outcome (HashMap K V) Unit := rehashInto m m.bucketCount

/-- The load test at the head of `reserve_slot`. -/
def makeRoom (m : HashMap K V) : Outcome (HashMap K V) Unit :=
  if m.size ≥ m.bucketCount / 2 then grow m
  else if (m.bucketCount - m.size) / 2 < m.tombstones then rehashSameCapacity m
  else .ok () m

/-- Slot `index` is given to `key`. -/
def occupy (m : HashMap K V) (index : ℕ) (key : K) (hashKey : UInt64) : HashMap K V :=
  { m with
    hashes := update m.hashes index hashKey
    keys := update m.keys index key
    size := m.size + 1 }

/-- The probe of `reserve_slot`. -/
def insertSlot (m : HashMap K V) (key : K) (rawHash : UInt64) :
    Outcome (HashMap K V) (ℕ × Bool) :=
  match place (seeReserve T m key rawHash) (nextProbeSlot m.bucketCount) m.bucketCount
      (homeBucket m.bucketCount rawHash) none with
  | none => .error (.hang "probe") m
  | some (.found index) => .ok (index, false) m
  | some (.empty index) => .ok (index, true) (occupy m index key (toHashKey rawHash))
  | some (.killed index) => .ok (index, true)
      { occupy m index key (toHashKey rawHash) with tombstones := dec64 m.tombstones }

/-- `reserve_slot`: the slot, and whether the key was inserted. -/
def reserveSlot (m : HashMap K V) (key : K) (rawHash : UInt64) :
    Outcome (HashMap K V) (ℕ × Bool) :=
  match makeRoom m with
  | .error e m => .error e m
  | .ok _ m => insertSlot T m key rawHash

/-- A slot is killed and its key and value reset: `erase(it)`, and the end of `erase_index`. -/
def killSlot (m : HashMap K V) (idx : ℕ) : HashMap K V :=
  { m with
    hashes := update m.hashes idx hashKilled
    keys := update m.keys idx default
    values := update m.values idx default
    size := m.size - 1
    tombstones := m.tombstones + 1 }

/-- `val_at(index) = value` -/
def setValue (m : HashMap K V) (index : ℕ) (value : V) : HashMap K V :=
  { m with values := update m.values index value }

/-- `insert`: whether the key was inserted. -/
def insert (m : HashMap K V) (key : K) (value : V) : Outcome (HashMap K V) Bool :=
  match reserveSlot T m key (T.hash key) with
  | .error e m => .error e m
  | .ok r m => .ok r.2 (if r.2 then setValue m r.1 value else m)

/-- `try_emplace`: whether the key was inserted. -/
def tryEmplace (m : HashMap K V) (key : K) (value : V) : Outcome (HashMap K V) Bool :=
  match reserveSlot T m key (T.hash key) with
  | .error e m => .error e m
  | .ok r m => .ok r.2 (if r.2 then setValue m r.1 value else m)

/-- `operator[]`: the slot referred to. -/
def index (m : HashMap K V) (key : K) : Outcome (HashMap K V) ℕ :=
  match reserveSlot T m key (T.hash key) with
  | .error e m => .error e m
  | .ok r m => .ok r.1 m

/-- `erase(key)`: how many were erased. -/
def erase (m : HashMap K V) (key : K) : Outcome (HashMap K V) ℕ :=
  match findIndex T m key (T.hash key) with
  | none => .error (.hang "probe") m
  | some none => .ok 0 m
  | some (some idx) => .ok 1 (killSlot m idx)

/-- The first live slot at or after `index`, `bucket_count()` if there is none: the loop of
`operator++` and of `first_live_index`. -/
def liveFrom (m : HashMap K V) : ℕ → ℕ → ℕ
  | 0, index => index
  | fuel + 1, index =>
    if index < m.bucketCount ∧ m.hashes index ≤ hashKilled then liveFrom m fuel (index + 1)
    else index

/-- `first_live_index`, and `begin()`. -/
def firstLiveIndex (m : HashMap K V) : ℕ := liveFrom m m.bucketCount 0

/-- `iterator::operator++` -/
def nextLive (m : HashMap K V) (index : ℕ) : ℕ := liveFrom m m.bucketCount (index + 1)

/-- `erase(it)`: the iterator after it. -/
def eraseAt (m : HashMap K V) (idx : ℕ) : Outcome (HashMap K V) ℕ :=
  .ok (nextLive (killSlot m idx) idx) (killSlot m idx)

/-- The slots an iteration visits, from a given one to `end()`. -/
def visitFrom (m : HashMap K V) : ℕ → ℕ → List ℕ
  | 0, _ => []
  | fuel + 1, index =>
    if index = m.bucketCount then [] else index :: visitFrom m fuel (nextLive m index)

/-- The slots `for ( auto & kv : map )` visits. -/
def visited (m : HashMap K V) : List ℕ := visitFrom m (m.bucketCount + 1) (firstLiveIndex m)

/-- The doubling loop of `reserve(n)`, on `size_t`. -/
def neededFor (n : ℕ) : ℕ → ℕ → Option ℕ
  | 0, _ => none
  | fuel + 1, needed =>
    if needed < n * 2 % 2 ^ 64 then neededFor n fuel (needed * 2 % 2 ^ 64) else some needed

/-- `reserve(n)`.  The doubling loop ends within 61 doublings or, once `needed` has wrapped to zero,
not at all. -/
def reserve (m : HashMap K V) (n : ℕ) : Outcome (HashMap K V) Unit :=
  if n = 0 then .ok () m
  else
    match neededFor n 63 leastCapacity with
    | none => .error (.hang "reserve") m
    | some needed => if needed > m.bucketCount then rehashInto m needed else .ok () m

def clear (_ : HashMap K V) : HashMap K V := new

end HashMap

end DaScript
