import Mathlib.Tactic

/-!
# Machinery/Text — bytes that spell text

Text is a list of bytes.  A number is spelled in decimal and read back digit by digit.
-/

namespace DaScript.Text

/-- The byte of an ASCII character. -/
def ch (c : Char) : UInt8 := c.toNat.toUInt8

/-- The bytes of an ASCII text. -/
def text (s : String) : List UInt8 := s.toList.map ch

/-! ## Decimal numbers -/

def isDigit (c : UInt8) : Bool := 48 ≤ c && c ≤ 57

/-- A number in decimal. -/
def decimal (n : ℕ) : List UInt8 := (Nat.toDigits 10 n).map ch

/-- An integer in decimal. -/
def decimalInt (i : ℤ) : List UInt8 :=
  if i < 0 then ch '-' :: decimal i.natAbs else decimal i.natAbs

/-- The number that digits spell. -/
def readDecimal (digits : List UInt8) : ℕ := digits.foldl (fun n d => 10 * n + (d.toNat - 48)) 0

theorem isDigit_ch {c : Char} (h : c.isDigit = true) : isDigit (ch c) = true ∧
    (ch c).toNat - 48 = c.toNat - '0'.toNat := by
  rw [Char.isDigit, Bool.and_eq_true, decide_eq_true_eq, decide_eq_true_eq] at h
  have hlo : 48 ≤ c.toNat := UInt32.le_iff_toNat_le.mp h.1
  have hhi : c.toNat ≤ 57 := UInt32.le_iff_toNat_le.mp h.2
  have hnat : (ch c).toNat = c.toNat := by
    rw [ch, Nat.toUInt8, UInt8.toNat_ofNat']
    exact Nat.mod_eq_of_lt (by omega)
  refine ⟨?_, by rw [hnat]; rfl⟩
  rw [isDigit, Bool.and_eq_true, decide_eq_true_eq, decide_eq_true_eq, UInt8.le_iff_toNat_le,
    UInt8.le_iff_toNat_le, hnat]
  exact ⟨hlo, hhi⟩

theorem decimal_ne_nil (n : ℕ) : decimal n ≠ [] := by
  rw [decimal, Ne, List.map_eq_nil_iff]
  exact Nat.toDigits_ne_nil

theorem isDigit_of_mem_decimal {n : ℕ} {c : UInt8} (h : c ∈ decimal n) : isDigit c = true := by
  obtain ⟨d, hd, rfl⟩ := List.mem_map.mp h
  exact (isDigit_ch (Nat.isDigit_of_mem_toDigits (by decide) (by decide) hd)).1

theorem readDecimal_decimal (n : ℕ) : readDecimal (decimal n) = n := by
  have hfold : ∀ (l : List Char) (m : ℕ), (∀ c ∈ l, c.isDigit = true) →
      (l.map ch).foldl (fun n d => 10 * n + (d.toNat - 48)) m
        = l.foldl (fun n c => 10 * n + (c.toNat - '0'.toNat)) m := by
    intro l
    induction l with
    | nil => exact fun _ _ => rfl
    | cons c l ih =>
      intro m hl
      rw [List.map_cons, List.foldl_cons, List.foldl_cons,
        (isDigit_ch (hl c List.mem_cons_self)).2]
      exact ih _ fun c' hc' => hl c' (List.mem_cons_of_mem _ hc')
  rw [readDecimal, decimal, hfold _ _ fun c hc =>
    Nat.isDigit_of_mem_toDigits (by decide) (by decide) hc, ← Nat.ofDigitChars_eq_foldl]
  exact Nat.ofDigitChars_ten_toDigits

end DaScript.Text
