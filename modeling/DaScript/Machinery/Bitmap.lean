import Mathlib.Tactic

/-!
# Machinery/Bitmap — sets of slots as 32-bit words

A set of slots is an array of 32-bit words: slot `k` is bit `k % 32` of word `k / 32`.  The word
operations allocators use (`|` and `^` with a shifted one, count-leading-zeros, popcount) are read
off as operations on the set of slots (`bit`) and on its list of members.
-/

open Function

namespace DaScript.Bitmap

/-- `1u << j` -/
def flag (j : ℕ) : BitVec 32 := 1#32 <<< j

/-- Slot `k` is in the set. -/
def bit (words : ℕ → BitVec 32) (k : ℕ) : Bool := (words (k / 32)).getLsbD (k % 32)

/-- The slots below `n` that are in the set, in order. -/
def members (p : ℕ → Bool) (n : ℕ) : List ℕ := (List.range n).filter p

/-- The set bits of the first `n` words. -/
def popcount (words : ℕ → BitVec 32) (n : ℕ) : ℕ :=
  ((List.range n).map fun i => (words i).cpop.toNat).sum

/-! ## One word -/

theorem getLsbD_flag {i j : ℕ} (hi : i < 32) : (flag j).getLsbD i = decide (i = j) := by
  rw [flag, BitVec.getLsbD_shiftLeft, BitVec.getLsbD_one]
  rcases Nat.lt_trichotomy i j with h | h | h
  · simp [h, hi, Nat.ne_of_lt h]
  · simp [h, h ▸ hi]
  · have hij : ¬ i < j := by omega
    have h0 : i - j ≠ 0 := by omega
    simp [hij, hi, h0, Nat.ne_of_gt h]

theorem and_flag_eq_zero {w : BitVec 32} {j : ℕ} (hj : j < 32) :
    w &&& flag j = 0#32 ↔ w.getLsbD j = false := by
  constructor
  · intro h
    have := congrArg (fun x : BitVec 32 => x.getLsbD j) h
    simpa [BitVec.getLsbD_and, getLsbD_flag hj] using this
  · intro h
    refine BitVec.eq_of_getLsbD_eq fun i hi => ?_
    rw [BitVec.getLsbD_and, getLsbD_flag hi, BitVec.getLsbD_zero]
    by_cases hij : i = j
    · rw [hij, h, Bool.false_and]
    · simp [hij]

theorem getLsbD_highest_zero {w : BitVec 32} (hw : ~~~w ≠ 0#32) :
    31 - (~~~w).clz.toNat < 32 ∧ w.getLsbD (31 - (~~~w).clz.toNat) = false := by
  have hlt : 31 - (~~~w).clz.toNat < 32 := by omega
  refine ⟨hlt, ?_⟩
  have h := BitVec.getLsbD_true_clz_of_ne_zero (x := ~~~w) (by omega) hw
  rw [show 32 - 1 - (~~~w).clz.toNat = 31 - (~~~w).clz.toNat by omega, BitVec.getLsbD_not] at h
  simpa [hlt] using h

theorem not_ne_zero {w : BitVec 32} {j : ℕ} (hj : j < 32) (h : w.getLsbD j = false) :
    ~~~w ≠ 0#32 := by
  intro h0
  have hj' : (~~~w).getLsbD j = true := by rw [BitVec.getLsbD_not, h]; simp [hj]
  rw [h0, BitVec.getLsbD_zero] at hj'
  exact Bool.noConfusion hj'

theorem cpopNatRec_eq_length (w : BitVec 32) (n acc : ℕ) :
    w.cpopNatRec n acc = acc + (members w.getLsbD n).length := by
  induction n generalizing acc with
  | zero => simp [members]
  | succ n ih =>
    have hsplit : (members w.getLsbD (n + 1)).length
        = (members w.getLsbD n).length + (w.getLsbD n).toNat := by
      rw [members, List.range_succ, List.filter_append, List.length_append, ← members]
      cases h : w.getLsbD n <;> simp [h]
    rw [BitVec.cpopNatRec_succ, ih, hsplit]
    omega

theorem length_members_le (p : ℕ → Bool) (n : ℕ) : (members p n).length ≤ n := by
  have := List.length_filter_le p (List.range n)
  rwa [List.length_range] at this

theorem toNat_cpop (w : BitVec 32) : w.cpop.toNat = (members w.getLsbD 32).length := by
  have hle := length_members_le w.getLsbD 32
  rw [BitVec.cpop, BitVec.toNat_ofNat, cpopNatRec_eq_length, Nat.zero_add,
    Nat.mod_eq_of_lt (by omega)]

/-! ## All words -/

theorem popcount_eq_length (words : ℕ → BitVec 32) (n : ℕ) :
    popcount words n = (members (bit words) (n * 32)).length := by
  induction n with
  | zero => simp [popcount, members]
  | succ n ih =>
    have hword : (members (bit words) ((n + 1) * 32)).length
        = (members (bit words) (n * 32)).length + (members (words n).getLsbD 32).length := by
      rw [members, Nat.add_mul, Nat.one_mul, List.range_add, List.filter_append,
        List.length_append, List.filter_map, List.length_map, ← members, members, members]
      congr 2
      refine List.filter_congr fun j hj => ?_
      have hj : j < 32 := List.mem_range.mp hj
      have hdiv : (n * 32 + j) / 32 = n := by omega
      have hmod : (n * 32 + j) % 32 = j := by omega
      rw [comp_apply, bit, hdiv, hmod]
    rw [hword, ← ih, popcount, List.range_succ, List.map_append, List.sum_append, ← popcount,
      List.map_singleton, List.sum_singleton, toNat_cpop]

theorem bit_zero (k : ℕ) : bit (fun _ => 0#32) k = false := by simp [bit]

theorem bit_update (words : ℕ → BitVec 32) (i : ℕ) (w : BitVec 32) (k : ℕ) :
    bit (update words i w) k = if k / 32 = i then w.getLsbD (k % 32) else bit words k := by
  rw [bit]
  split_ifs with h
  · rw [h, update_self]
  · rw [update_of_ne h, ← bit]

theorem bit_or_flag (words : ℕ → BitVec 32) {i j : ℕ} (hj : j < 32) :
    bit (update words i (words i ||| flag j)) = update (bit words) (i * 32 + j) true := by
  funext k
  have hk : k % 32 < 32 := Nat.mod_lt _ (by omega)
  rw [bit_update, update_apply]
  by_cases hki : k = i * 32 + j
  · have hdiv : k / 32 = i := by omega
    have hmod : k % 32 = j := by omega
    rw [if_pos hdiv, if_pos hki, BitVec.getLsbD_or, getLsbD_flag hk, hmod]
    simp
  · rw [if_neg hki]
    split_ifs with h
    · have hmod : k % 32 ≠ j := by omega
      rw [BitVec.getLsbD_or, getLsbD_flag hk, bit, h]
      simp [hmod]
    · rfl

theorem bit_xor_flag (words : ℕ → BitVec 32) {i j : ℕ} (hj : j < 32)
    (hset : (words i).getLsbD j = true) :
    bit (update words i (words i ^^^ flag j)) = update (bit words) (i * 32 + j) false := by
  funext k
  have hk : k % 32 < 32 := Nat.mod_lt _ (by omega)
  rw [bit_update, update_apply]
  by_cases hki : k = i * 32 + j
  · have hdiv : k / 32 = i := by omega
    have hmod : k % 32 = j := by omega
    rw [if_pos hdiv, if_pos hki, BitVec.getLsbD_xor, getLsbD_flag hk, hmod, hset]
    simp
  · rw [if_neg hki]
    split_ifs with h
    · have hmod : k % 32 ≠ j := by omega
      rw [BitVec.getLsbD_xor, getLsbD_flag hk, bit, h]
      simp [hmod]
    · rfl

/-! ## Members -/

@[simp] theorem mem_members {p : ℕ → Bool} {n k : ℕ} : k ∈ members p n ↔ k < n ∧ p k = true := by
  simp [members]

theorem members_zero (n : ℕ) : members (bit fun _ => 0#32) n = [] :=
  List.filter_eq_nil_iff.mpr fun k _ => by rw [bit_zero]; exact Bool.noConfusion

theorem nodup_members (p : ℕ → Bool) (n : ℕ) : (members p n).Nodup :=
  List.nodup_range.filter _

theorem members_update {p : ℕ → Bool} {n k : ℕ} (hk : k < n) (hp : p k = false) :
    (members (update p k true) n).Perm (k :: members p n) := by
  have hkm : k ∉ members p n := by simp [hp]
  rw [List.perm_ext_iff_of_nodup (nodup_members _ _)
    (List.nodup_cons.mpr ⟨hkm, nodup_members _ _⟩)]
  intro j
  rw [mem_members, List.mem_cons, mem_members, update_apply]
  by_cases hj : j = k
  · simp [hj, hk]
  · simp [hj]

theorem members_update_false {p : ℕ → Bool} {n k : ℕ} (hk : k < n) (hp : p k = true) :
    (members p n).Perm (k :: members (update p k false) n) := by
  have h := members_update (p := update p k false) hk (update_self ..)
  rwa [update_idem, ← hp, update_eq_self] at h

theorem exists_missing {p : ℕ → Bool} {n : ℕ} (h : (members p n).length < n) :
    ∃ k < n, p k = false := by
  by_contra hall
  have hfull : members p n = List.range n :=
    List.filter_eq_self.mpr fun k hk => by
      by_contra hp
      exact hall ⟨k, List.mem_range.mp hk, by simpa using hp⟩
  rw [hfull, List.length_range] at h
  omega

end DaScript.Bitmap
