import DaScript.Runtime.Table

/-!
# Runtime/TableKeys — the key types of a script's tables

The two kinds of key, by what a slot keeps of them: a `string`, its hash stored, and a `uint64`,
its hash recomputed.
-/

namespace DaScript

/-- Table keys of type `string`, none of them null. -/
def stringKey : KeyType (List UInt8) where
  storesHash := true
  sizeofKey := 8
  keyCompare a b := a == b
  hashFunction := hashBlockz64

/-- Table keys of type `uint64`. -/
def uint64Key : KeyType UInt64 where
  storesHash := false
  sizeofKey := 8
  keyCompare a b := a == b
  hashFunction := hashUint64

theorem stringKey_hash (k : List UInt8) : 1 < stringKey.hashFunction k := one_lt_offSentinels _

theorem uint64Key_hash (k : UInt64) : 1 < uint64Key.hashFunction k := one_lt_offSentinels _

end DaScript
