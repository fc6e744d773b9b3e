import Mathlib.Tactic

/-!
# Machinery/BitScan — the lowest and the highest bit of a word

A word is a number, and a set of bits: `testBit`.  Taking its bits away one by one, from below
(`x & (x - 1)`) or from above, empties it.
-/

namespace DaScript.BitScan

/-- The place of the lowest bit. -/
def ctz (x : ℕ) : ℕ :=
  if x = 0 then 0 else if x % 2 = 1 then 0 else ctz (x / 2) + 1
termination_by x
decreasing_by omega

/-- The bits of a condition below `n`, set one after the other. -/
def populate (p : ℕ → Bool) : ℕ → ℕ
  | 0 => 0
  | n + 1 => populate p n ||| ((p n).toNat <<< n)

theorem testBit_populate (p : ℕ → Bool) (n j : ℕ) :
    (populate p n).testBit j = (decide (j < n) && p j) := by
  induction n with
  | zero => simp [populate]
  | succ n ih =>
    rw [populate, Nat.testBit_or, ih, Nat.testBit_shiftLeft]
    rcases lt_trichotomy j n with h | rfl | h
    · simp [h, Nat.lt_succ_of_lt h, Nat.not_le.mpr h]
    · cases p j <;> simp
    · have h1 : ¬ j < n := by omega
      have h2 : ¬ j < n + 1 := by omega
      have hbit : (p n).toNat.testBit (j - n) = false := by
        obtain ⟨k, hk⟩ : ∃ k, j - n = k + 1 := ⟨j - n - 1, by omega⟩
        rw [hk, Nat.testBit_succ]
        cases p n <;> simp
      simp [h1, h2, hbit]

theorem testBit_ctz {x : ℕ} (hx : x ≠ 0) : x.testBit (ctz x) = true := by
  induction x using Nat.strong_induction_on with
  | _ x ih =>
    rw [ctz, if_neg hx]
    split_ifs with hodd
    · rw [Nat.testBit_zero, decide_eq_true hodd]
    · rw [Nat.testBit_succ]
      exact ih (x / 2) (by omega) (by omega)

theorem testBit_and_pred {x : ℕ} (hx : x ≠ 0) (j : ℕ) :
    (x &&& (x - 1)).testBit j = (x.testBit j && decide (j ≠ ctz x)) := by
  induction x using Nat.strong_induction_on generalizing j with
  | _ x ih =>
    rw [Nat.testBit_and, ctz, if_neg hx]
    split_ifs with hodd
    · -- an odd number loses its lowest bit
      cases j with
      | zero =>
        rw [Nat.testBit_zero, Nat.testBit_zero]
        have hev : ¬ (x - 1) % 2 = 1 := by omega
        simp [hev]
      | succ j =>
        have hhalf : (x - 1) / 2 = x / 2 := by omega
        rw [Nat.testBit_succ, Nat.testBit_succ, hhalf]
        simp
    · cases j with
      | zero =>
        rw [Nat.testBit_zero]
        simp [hodd]
      | succ j =>
        have hhalf : (x - 1) / 2 = x / 2 - 1 := by omega
        have hrec := ih (x / 2) (by omega) (by omega) j
        rw [Nat.testBit_and] at hrec
        rw [Nat.testBit_succ, Nat.testBit_succ, hhalf, hrec]
        simp

theorem and_pred_lt {x : ℕ} (hx : x ≠ 0) : x &&& (x - 1) < x :=
  lt_of_le_of_lt Nat.and_le_right (by omega)

theorem testBit_log2 {x : ℕ} (hx : x ≠ 0) : x.testBit x.log2 = true := by
  have hle : 2 ^ x.log2 ≤ x := Nat.log2_self_le hx
  have hlt : x < 2 ^ (x.log2 + 1) := Nat.lt_log2_self
  rw [Nat.testBit_eq_decide_div_mod_eq]
  have hdiv : x / 2 ^ x.log2 = 1 := by
    rw [pow_succ] at hlt
    exact Nat.div_eq_of_lt_le (by omega) (by omega)
  rw [hdiv]
  rfl

theorem testBit_of_log2_lt {x j : ℕ} (hj : x.log2 < j) : x.testBit j = false :=
  Nat.testBit_lt_two_pow (lt_of_lt_of_le Nat.lt_log2_self (Nat.pow_le_pow_right (by omega) hj))

theorem testBit_and_mask (x j : ℕ) :
    (x &&& (1 <<< x.log2 - 1)).testBit j = (x.testBit j && decide (j < x.log2)) := by
  rw [Nat.testBit_and, Nat.one_shiftLeft, Nat.testBit_two_pow_sub_one]

theorem and_mask_lt {x : ℕ} (hx : x ≠ 0) : x &&& (1 <<< x.log2 - 1) < x := by
  have hle : 2 ^ x.log2 ≤ x := Nat.log2_self_le hx
  have hpos : 0 < 2 ^ x.log2 := Nat.two_pow_pos _
  refine lt_of_le_of_lt Nat.and_le_right ?_
  rw [Nat.one_shiftLeft]
  omega

end DaScript.BitScan
