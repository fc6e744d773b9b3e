import DaScript.Daslib.RegexParser

/-!
# Daslib/RegexSets — which bytes are in a set

Each operation on a `CharSet`, read through `is_char_in_set`.
-/

namespace DaScript.Regex

open Text

variable {cset eset : CharSet} {c c' lo hi : UInt8}

theorem isCharInSet_allOnes : isCharInSet c (BitVec.allOnes 256) = true := by
  rw [isCharInSet, BitVec.getLsbD_allOnes, decide_eq_true_eq]
  exact c.toNat_lt

theorem isCharInSet_setOrChar :
    isCharInSet c (setOrChar cset c') = true ↔ isCharInSet c cset = true ∨ c = c' := by
  rw [isCharInSet, setOrChar, BitVec.getLsbD_or, Bool.or_eq_true, isCharInSet,
    ← BitVec.twoPow_eq, BitVec.getLsbD_twoPow, Bool.and_eq_true, decide_eq_true_eq,
    decide_eq_true_eq, ← UInt8.toNat_inj]
  have hc : c'.toNat < 256 := c'.toNat_lt
  exact or_congr_right ⟨fun h => h.2.symm, fun h => ⟨hc, h.symm⟩⟩

theorem isCharInSet_setOrSet :
    isCharInSet c (setOrSet cset eset) = true
      ↔ isCharInSet c cset = true ∨ isCharInSet c eset = true := by
  rw [isCharInSet, setOrSet, BitVec.getLsbD_or, Bool.or_eq_true, isCharInSet, isCharInSet]

end DaScript.Regex
