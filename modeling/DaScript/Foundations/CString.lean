import DaScript.Foundations.Memory

/-!
# Foundations/CString — bytes up to a zero

The functions of `string.h` that walk memory byte by byte.  Strings that agree for `strncmp` need
not have the same bytes: it stops at a zero in both (`strncmp_eq_zero`).
-/

namespace DaScript

/-- The `n` bytes at `p`. -/
def bytes (mem : Memory) (p : ℕ) : ℕ → List UInt8
  | 0 => []
  | n + 1 => mem p :: bytes mem (p + 1) n

/-- The bytes before the first zero. -/
def beforeZero (text : List UInt8) : List UInt8 := text.takeWhile (· ≠ 0)

/-- The loop of `strlen`; `fuel` bounds its steps. -/
def strlenLoop (mem : Memory) (str : ℕ) : ℕ → ℕ → Except Fault ℕ
  | 0, _ => .error (.hang "strlen")
  | fuel + 1, n => if mem (str + n) = 0 then .ok n else strlenLoop mem str fuel (n + 1)

/-- `strlen`; a string that no byte of the process ends is never measured. -/
def strlen (mem : Memory) (str : ℕ) : Except Fault ℕ := strlenLoop mem str addressSpace 0

/-- `strncmp`: the difference of the first bytes that differ, at most `n` of them and none past a
zero. -/
def strncmp (mem : Memory) (a b : ℕ) : ℕ → ℤ
  | 0 => 0
  | n + 1 =>
    if mem a = mem b then
      if mem a = 0 then 0 else strncmp mem (a + 1) (b + 1) n
    else ((mem a).toNat : ℤ) - (mem b).toNat

theorem bytes_congr {mem mem' : Memory} {p q n : ℕ}
    (h : ∀ i < n, mem (p + i) = mem' (q + i)) : bytes mem p n = bytes mem' q n := by
  induction n generalizing p q with
  | zero => rfl
  | succ n ih =>
    have htail : bytes mem (p + 1) n = bytes mem' (q + 1) n := ih fun i hi => by
      rw [Nat.add_right_comm, Nat.add_assoc, Nat.add_right_comm, Nat.add_assoc]
      exact h (i + 1) (by omega)
    exact congrArg₂ List.cons (h 0 (Nat.succ_pos n)) htail

theorem length_bytes {mem : Memory} {p n : ℕ} : (bytes mem p n).length = n := by
  induction n generalizing p with
  | zero => rfl
  | succ n ih => rw [bytes, List.length_cons, ih]

theorem getElem_bytes {mem : Memory} {p n i : ℕ} (hi : i < (bytes mem p n).length) :
    (bytes mem p n)[i] = mem (p + i) := by
  induction n generalizing p i with
  | zero => exact absurd hi (by simp [bytes])
  | succ n ih =>
    cases i with
    | zero => rfl
    | succ i =>
      have htail := ih (p := p + 1) (i := i) (by simpa [bytes] using hi)
      simpa [bytes, Nat.add_right_comm, Nat.add_assoc, Nat.add_comm 1] using htail

theorem bytes_inj {mem mem' : Memory} {p q n : ℕ} :
    bytes mem p n = bytes mem' q n ↔ ∀ i < n, mem (p + i) = mem' (q + i) := by
  refine ⟨fun h i hi => ?_, bytes_congr⟩
  have hp : i < (bytes mem p n).length := by rw [length_bytes]; exact hi
  have hq : i < (bytes mem' q n).length := by rw [length_bytes]; exact hi
  have hget : (bytes mem p n)[i] = (bytes mem' q n)[i] := by simp only [h]
  rwa [getElem_bytes, getElem_bytes] at hget

theorem strncmp_eq_zero {mem : Memory} {a b n : ℕ} :
    strncmp mem a b n = 0 ↔ beforeZero (bytes mem a n) = beforeZero (bytes mem b n) := by
  induction n generalizing a b with
  | zero => exact iff_of_true rfl rfl
  | succ n ih =>
    rw [strncmp, bytes, bytes, beforeZero, beforeZero, List.takeWhile_cons, List.takeWhile_cons]
    by_cases hab : mem a = mem b
    · by_cases h0 : mem a = 0
      · simp [← hab, h0]
      · rw [if_pos hab, if_neg h0, ih, ← hab]
        simp [beforeZero, h0]
    · have hne : ((mem a).toNat : ℤ) - (mem b).toNat ≠ 0 := by
        have := mt UInt8.toNat_inj.mp hab
        omega
      rw [if_neg hab]
      refine iff_of_false hne fun heq => ?_
      by_cases ha : mem a = 0
      · by_cases hb : mem b = 0
        · exact hab (ha.trans hb.symm)
        · simp [ha, hb] at heq
      · by_cases hb : mem b = 0
        · simp [ha, hb] at heq
        · simp [ha, hb, hab] at heq

end DaScript
