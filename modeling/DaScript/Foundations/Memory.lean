import DaScript.Foundations.Machine
import DaScript.Machinery.Blocks

/-!
# Foundations/Memory — bytes, alignment and the system allocator

Addresses are natural numbers and a null pointer that is returned is `none`.  Memory is every byte
of the process; `das_aligned_alloc16` gets its blocks from the system, which is a parameter: what it
answers is arbitrary up to `Honest`.
-/

namespace DaScript

/-- Every byte of the process. -/
abbrev Memory := ℕ → UInt8

/-- `memcpy` and `memmove` -/
def memcpy (mem : Memory) (dst src n : ℕ) : Memory := fun a =>
  if dst ≤ a ∧ a < dst + n then mem (src + (a - dst)) else mem a

/-- `memset(dst, 0, n)` -/
def memset (mem : Memory) (dst n : ℕ) : Memory := fun a =>
  if dst ≤ a ∧ a < dst + n then 0 else mem a

/-- `(size + mask) & ~mask` on `uint64_t` -/
def alignUp (mask size : ℕ) : ℕ := (size + mask) % 2 ^ 64 &&& (2 ^ 64 - 1 - mask)

/-- Addresses of a process end here. -/
def addressSpace : ℕ := 2 ^ 48

/-- `posix_memalign(&p, 16, size)`: the block's address, `none` where there is no memory left. -/
abbrev Posix := ℕ → Option ℕ

/-- **What the system allocator promises** — an aligned, nonnull address inside the address space,
of a block that is apart from the blocks not given back yet. -/
def Honest (held : List Block) (posix : Posix) : Prop :=
  ∀ n p, posix n = some p →
    p ≠ 0 ∧ p % 16 = 0 ∧ p + n ≤ addressSpace ∧ ∀ b ∈ held, Block.Apart ⟨p, n⟩ b

/-- `das_aligned_alloc16` -/
def alignedAlloc16 (posix : Posix) (size : ℕ) : Except Fault ℕ :=
  if size = 0 then .error (.assert "das_aligned_alloc16 called with size 0")
  else
    match posix size with
    | none => .error (.assert "posix_memalign returned nullptr")
    | some p => .ok p

theorem alignedAlloc16_eq_ok {posix : Posix} {size p : ℕ} :
    alignedAlloc16 posix size = .ok p ↔ size ≠ 0 ∧ posix size = some p := by
  unfold alignedAlloc16
  split_ifs with h
  · simp [h]
  · cases hp : posix size <;> simp [h]

/-! ## Copies -/

theorem memcpy_of_mem (mem : Memory) {dst src n i : ℕ} (hi : i < n) :
    memcpy mem dst src n (dst + i) = mem (src + i) := by
  rw [memcpy, if_pos ⟨by omega, by omega⟩, Nat.add_sub_cancel_left]

theorem memcpy_of_notMem (mem : Memory) {dst src n a : ℕ} (ha : a < dst ∨ dst + n ≤ a) :
    memcpy mem dst src n a = mem a := if_neg (by omega)

theorem memset_of_mem (mem : Memory) {dst n i : ℕ} (hi : i < n) :
    memset mem dst n (dst + i) = 0 := if_pos ⟨by omega, by omega⟩

theorem memset_of_notMem (mem : Memory) {dst n a : ℕ} (ha : a < dst ∨ dst + n ≤ a) :
    memset mem dst n a = mem a := if_neg (by omega)

/-! ## Alignment -/

theorem and_not_mask {k x : ℕ} (hk : k ≤ 64) (hx : x < 2 ^ 64) :
    x &&& (2 ^ 64 - 1 - (2 ^ k - 1)) = x / 2 ^ k * 2 ^ k := by
  have hpow : 2 ^ 64 - 1 - (2 ^ k - 1) = (2 ^ (64 - k) - 1) <<< k := by
    have h1 : 0 < 2 ^ k := Nat.two_pow_pos k
    have h2 : 2 ^ (64 - k) * 2 ^ k = 2 ^ 64 := by rw [← Nat.pow_add, Nat.sub_add_cancel hk]
    rw [Nat.shiftLeft_eq, Nat.sub_mul, h2]
    omega
  rw [hpow]
  refine Nat.eq_of_testBit_eq fun i => ?_
  rw [← Nat.shiftLeft_eq (x / 2 ^ k), Nat.testBit_and, Nat.testBit_shiftLeft,
    Nat.testBit_shiftLeft, Nat.testBit_two_pow_sub_one, Nat.testBit_div_two_pow]
  by_cases hik : k ≤ i
  · rw [Nat.sub_add_cancel hik]
    by_cases hi : i < 64
    · simp [hik, show i - k < 64 - k by omega]
    · have hxi : x.testBit i = false :=
        Nat.testBit_lt_two_pow (lt_of_lt_of_le hx (Nat.pow_le_pow_right (by omega) (by omega)))
      simp [hxi]
  · simp [hik]

theorem alignUp_eq {k size : ℕ} (hk : k ≤ 64) (h : size + (2 ^ k - 1) < 2 ^ 64) :
    alignUp (2 ^ k - 1) size = (size + (2 ^ k - 1)) / 2 ^ k * 2 ^ k := by
  rw [alignUp, Nat.mod_eq_of_lt h, and_not_mask hk h]

theorem alignUp_three {size : ℕ} (h : size + 3 < 2 ^ 64) :
    alignUp 3 size = (size + 3) / 4 * 4 := alignUp_eq (k := 2) (by omega) h

theorem alignUp_fifteen {size : ℕ} (h : size + 15 < 2 ^ 64) :
    alignUp 15 size = (size + 15) / 16 * 16 := alignUp_eq (k := 4) (by omega) h

theorem alignUp_thirtyone (ne : ℕ) : alignUp 31 ne = (ne + 31) % 2 ^ 64 / 32 * 32 :=
  and_not_mask (k := 5) (by omega) (Nat.mod_lt _ (by omega))

end DaScript
