import DaScript.Machinery.Cells

/-!
# Misc/AnyHash — 64-bit hashes and the two sentinels

`misc/anyhash.h`.  A hash of `0` marks an empty slot and one of `1` a killed slot, so every hash
function steps off the two at the last moment, and a slot tagged with a hash is read as a `Cell`
(`openCell`).
-/

namespace DaScript

open Probing

variable {K V : Type*}

/-- `HASH_EMPTY64`, and `CTRL_EMPTY` -/
def hashEmpty : UInt64 := 0

/-- `HASH_KILLED64`, and `CTRL_TOMBSTONE` -/
def hashKilled : UInt64 := 1

/-! ## Slots tagged with a hash -/

/-- The slot of an open-addressed table tagged with `h`. -/
def openCell (h : UInt64) (k : K) (v : V) : Cell K V :=
  if h = hashEmpty then .empty else if h = hashKilled then .killed else .live k v

@[simp] theorem openCell_empty (k : K) (v : V) : openCell hashEmpty k v = .empty := if_pos rfl

@[simp] theorem openCell_killed (k : K) (v : V) : openCell hashKilled k v = .killed := by
  rw [openCell, if_neg (by decide), if_pos rfl]

theorem openCell_eq_empty {h : UInt64} {k : K} {v : V} :
    openCell h k v = .empty ↔ h = hashEmpty := by
  unfold openCell
  split_ifs <;> simp_all

theorem openCell_eq_killed {h : UInt64} {k : K} {v : V} :
    openCell h k v = .killed ↔ h = hashKilled := by
  unfold openCell
  split_ifs with h0 <;> simp_all [hashEmpty, hashKilled]

theorem one_lt_iff {h : UInt64} : hashKilled < h ↔ h ≠ hashEmpty ∧ h ≠ hashKilled := by
  rw [hashKilled, hashEmpty, UInt64.lt_iff_toNat_lt, Ne, Ne, ← UInt64.toNat_inj,
    ← UInt64.toNat_inj]
  have h0 : (0 : UInt64).toNat = 0 := rfl
  have h1 : (1 : UInt64).toNat = 1 := rfl
  omega

theorem openCell_of_lt {h : UInt64} (hh : hashKilled < h) (k : K) (v : V) :
    openCell h k v = .live k v := by
  obtain ⟨h0, h1⟩ := one_lt_iff.mp hh
  rw [openCell, if_neg h0, if_neg h1]

theorem openCell_isLive {h : UInt64} {k : K} {v : V} :
    (openCell h k v).isLive = true ↔ hashKilled < h := by
  rw [one_lt_iff]
  unfold openCell
  split_ifs with h0 h1 <;> simp_all [Cell.isLive]

/-! ## Hash functions -/

/-- The FNV prime, which the 64-bit hashes fall back on. -/
def fnvPrime : UInt64 := 1099511628211

def fnvOffsetBasis : UInt64 := 14695981039346656037

/-- The last line of every hash: off the two sentinels. -/
def offSentinels (h : UInt64) : UInt64 := if h ≤ hashKilled then fnvPrime else h

theorem one_lt_offSentinels (h : UInt64) : 1 < offSentinels h := by
  rw [offSentinels]
  split_ifs with hh
  · decide
  · rw [hashKilled, UInt64.le_iff_toNat_le] at hh
    rw [UInt64.lt_iff_toNat_lt]
    have h1 : (1 : UInt64).toNat = 1 := rfl
    omega

/-- The loop of `hash_blockz64`: two bytes a step, the terminating zero not among them. -/
def hashBlockzLoop : List UInt8 → UInt64 → UInt64
  | [], h => h
  | [b], h => (h ^^^ b.toUInt64) * fnvPrime
  | b :: c :: block, h =>
    hashBlockzLoop block ((h ^^^ (b.toUInt64 ||| c.toUInt64 <<< 8)) * fnvPrime)

/-- `hash_blockz64`, of the bytes before the terminating zero. -/
def hashBlockz64 (block : List UInt8) : UInt64 :=
  offSentinels (hashBlockzLoop block fnvOffsetBasis)

/-- `_wymix`: the two halves of the 128-bit product, added bitwise. -/
def wymix (a b : UInt64) : UInt64 :=
  UInt64.ofNat (a.toNat * b.toNat) ^^^ UInt64.ofNat (a.toNat * b.toNat / 2 ^ 64)

/-- The default secret of `wyhash`. -/
def wyp (i : ℕ) : UInt64 :=
  match i with
  | 0 => 0xa0761d6478bd642f
  | 1 => 0xe7037ed1a0b428db
  | 2 => 0x8ebc6af09c88c6e3
  | _ => 0x589965cc75374cc3

/-- `DAS_WYHASH_SEED` -/
def wyhashSeed : UInt64 := 0x1234567890abcdef

/-- The `n` bytes at an offset, little-endian: `_wyr8` and `_wyr4`. -/
def wyr (n : ℕ) (block : List UInt8) (offset : ℕ) : UInt64 :=
  (List.range n).foldr (fun i v => v <<< 8 ||| (block.getD (offset + i) 0).toUInt64) 0

/-- `_wyr3`, of the whole block. -/
def wyr3 (block : List UInt8) : UInt64 :=
  let k := block.length
  (block.getD 0 0).toUInt64 <<< 16 ||| (block.getD (k / 2) 0).toUInt64 <<< 8
    ||| (block.getD (k - 1) 0).toUInt64

/-- The loop of 48 bytes a step, from `p` with `i` to go; `fuel` bounds the steps. -/
def wyhash48 (block : List UInt8) :
    ℕ → ℕ → ℕ → UInt64 → UInt64 → UInt64 → ℕ × ℕ × UInt64
  | 0, p, i, seed, see1, see2 => (p, i, seed ^^^ (see1 ^^^ see2))
  | fuel + 1, p, i, seed, see1, see2 =>
    let seed := wymix (wyr 8 block p ^^^ wyp 1) (wyr 8 block (p + 8) ^^^ seed)
    let see1 := wymix (wyr 8 block (p + 16) ^^^ wyp 2) (wyr 8 block (p + 24) ^^^ see1)
    let see2 := wymix (wyr 8 block (p + 32) ^^^ wyp 3) (wyr 8 block (p + 40) ^^^ see2)
    if 48 < i - 48 then wyhash48 block fuel (p + 48) (i - 48) seed see1 see2
    else (p + 48, i - 48, seed ^^^ (see1 ^^^ see2))

/-- The loop of 16 bytes a step. -/
def wyhash16 (block : List UInt8) : ℕ → ℕ → ℕ → UInt64 → UInt64
  | 0, _, _, seed => seed
  | fuel + 1, p, i, seed =>
    if 16 < i then
      wyhash16 block fuel (p + 16) (i - 16)
        (wymix (wyr 8 block p ^^^ wyp 1) (wyr 8 block (p + 8) ^^^ seed))
    else seed

def wyhash (block : List UInt8) (seed : UInt64) : UInt64 :=
  let len := block.length
  let seed := seed ^^^ wymix (seed ^^^ wyp 0) (wyp 1)
  let (a, b, seed) :=
    if len ≤ 16 then
      if 4 ≤ len then
        let skip := len / 8 * 4
        (wyr 4 block 0 <<< 32 ||| wyr 4 block skip,
          wyr 4 block (len - 4) <<< 32 ||| wyr 4 block (len - 4 - skip), seed)
      else if 0 < len then (wyr3 block, 0, seed)
      else (0, 0, seed)
    else
      let (p, i, seed) :=
        if 48 < len then wyhash48 block len 0 len seed seed seed else (0, len, seed)
      (wyr 8 block (len - 16), wyr 8 block (len - 8), wyhash16 block i p i seed)
  let product := (a ^^^ wyp 1).toNat * (b ^^^ seed).toNat
  wymix (UInt64.ofNat product ^^^ wyp 0 ^^^ UInt64.ofNat len)
    (UInt64.ofNat (product / 2 ^ 64) ^^^ wyp 1)

def hashBlock64 (block : List UInt8) : UInt64 := offSentinels (wyhash block wyhashSeed)

def hashUint64 (value : UInt64) : UInt64 := offSentinels (wymix value wyhashSeed)

end DaScript
