import Mathlib.Tactic

/-!
# Machinery/Arrays — entries changing places, and comparing them

An array is a function from places.  `Permutes lo hi a b`: the entries of `a` in `[lo, hi)` are
those of `b` in another order, the others are where they were.

A comparison that is a strict weak order is read through `AtMost`, which is then a total preorder.
-/

namespace DaScript.Arrays

variable {α : Type}

/-- Two entries change places. -/
def swap (a : ℕ → α) (i j : ℕ) : ℕ → α := fun k =>
  if k = i then a j else if k = j then a i else a k

section Swap

variable (a : ℕ → α) (i j : ℕ)

@[simp] theorem swap_left : swap a i j i = a j := if_pos rfl

@[simp] theorem swap_right : swap a i j j = a i := by
  by_cases h : j = i
  · rw [h, swap_left]
  · unfold swap
    rw [if_neg h, if_pos rfl]

theorem swap_other {k : ℕ} (hi : k ≠ i) (hj : k ≠ j) : swap a i j k = a k := by
  unfold swap
  rw [if_neg hi, if_neg hj]

theorem swap_eq_comp : swap a i j = a ∘ Equiv.swap i j := by
  funext k
  unfold swap
  rw [Function.comp_apply, Equiv.swap_apply_def]
  split_ifs <;> rfl

theorem swap_self : swap a i i = a := by
  rw [swap_eq_comp, Equiv.swap_self, Equiv.coe_refl, Function.comp_id]

theorem swap_apart : (if i ≠ j then swap a i j else a) = swap a i j := by
  split_ifs with h
  · rfl
  · rw [not_not.mp h, swap_self]

end Swap

/-- **The same entries between two places, in another order.** -/
def Permutes (lo hi : ℕ) (a b : ℕ → α) : Prop :=
  ∃ σ : Equiv.Perm ℕ, (∀ k, k < lo ∨ hi ≤ k → σ k = k) ∧ b = a ∘ σ

namespace Permutes

variable {lo hi : ℕ} {a b c : ℕ → α}

theorem refl (lo hi : ℕ) (a : ℕ → α) : Permutes lo hi a a := ⟨1, fun _ _ => rfl, rfl⟩

theorem trans (h : Permutes lo hi a b) (h' : Permutes lo hi b c) : Permutes lo hi a c := by
  obtain ⟨σ, hσ, rfl⟩ := h
  obtain ⟨τ, hτ, rfl⟩ := h'
  refine ⟨σ * τ, fun k hk => ?_, rfl⟩
  rw [Equiv.Perm.mul_apply, hτ k hk, hσ k hk]

theorem mono {lo' hi' : ℕ} (h : Permutes lo hi a b) (hlo : lo' ≤ lo) (hhi : hi ≤ hi') :
    Permutes lo' hi' a b := by
  obtain ⟨σ, hσ, rfl⟩ := h
  exact ⟨σ, fun k hk => hσ k (by omega), rfl⟩

theorem of_swap {i j : ℕ} (a : ℕ → α) (hi' : lo ≤ i ∧ i < hi) (hj : lo ≤ j ∧ j < hi) :
    Permutes lo hi a (swap a i j) := by
  refine ⟨Equiv.swap i j, fun k hk => ?_, swap_eq_comp a i j⟩
  exact Equiv.swap_apply_of_ne_of_ne (by omega) (by omega)

theorem outside (h : Permutes lo hi a b) {k : ℕ} (hk : k < lo ∨ hi ≤ k) : b k = a k := by
  obtain ⟨σ, hσ, rfl⟩ := h
  rw [Function.comp_apply, hσ k hk]

theorem source (h : Permutes lo hi a b) {k : ℕ} (hk : lo ≤ k ∧ k < hi) :
    ∃ k', (lo ≤ k' ∧ k' < hi) ∧ b k = a k' := by
  obtain ⟨σ, hσ, rfl⟩ := h
  refine ⟨σ k, ?_, rfl⟩
  by_contra hout
  have hfix := hσ (σ k) (by omega)
  have hk' := σ.injective hfix
  omega

theorem all {P : α → Prop} (h : Permutes lo hi a b) (ha : ∀ k, lo ≤ k → k < hi → P (a k)) :
    ∀ k, lo ≤ k → k < hi → P (b k) := by
  intro k hlo hhi
  obtain ⟨k', hk', hb⟩ := h.source ⟨hlo, hhi⟩
  rw [hb]
  exact ha k' hk'.1 hk'.2

theorem perm {n : ℕ} (h : Permutes 0 n a b) :
    ((List.range n).map b).Perm ((List.range n).map a) := by
  obtain ⟨σ, hσ, rfl⟩ := h
  have hrange : ((List.range n).map σ).Perm (List.range n) := by
    refine (List.perm_ext_iff_of_nodup (List.nodup_range.map σ.injective) List.nodup_range).mpr
      fun k => ?_
    rw [List.mem_map, List.mem_range]
    constructor
    · rintro ⟨k', hk', rfl⟩
      rw [List.mem_range] at hk'
      by_contra hout
      have hfix := σ.injective (hσ (σ k') (by omega))
      omega
    · intro hk
      refine ⟨σ.symm k, ?_, σ.apply_symm_apply k⟩
      rw [List.mem_range]
      by_contra hout
      have hfix := hσ (σ.symm k) (by omega)
      rw [σ.apply_symm_apply] at hfix
      omega
  rw [← List.map_map]
  exact hrange.map a

end Permutes

/-! ## Comparing -/

section Order

variable (cmp : α → α → Bool)

/-- The second does not compare less. -/
def AtMost (x y : α) : Prop := cmp y x = false

/-- No later entry compares less than an earlier one. -/
def Ordered (a : ℕ → α) (lo hi : ℕ) : Prop :=
  ∀ i j, lo ≤ i → i < j → j < hi → AtMost cmp (a i) (a j)

variable {cmp} {x y z : α}

theorem atMost_of_not (h : ¬ cmp y x = true) : AtMost cmp x y := Bool.eq_false_iff.mpr h

variable [IsStrictWeakOrder α (fun x y => cmp x y = true)]

theorem atMost_refl (x : α) : AtMost cmp x x :=
  Bool.eq_false_iff.mpr fun h => irrefl_of (fun x y => cmp x y = true) x h

theorem atMost_of_lt (h : cmp x y = true) : AtMost cmp x y :=
  Bool.eq_false_iff.mpr fun h' => asymm_of (fun x y => cmp x y = true) h h'

theorem AtMost.trans (hxy : AtMost cmp x y) (hyz : AtMost cmp y z) : AtMost cmp x z := by
  have hyx := Bool.eq_false_iff.mp hxy
  have hzy := Bool.eq_false_iff.mp hyz
  refine Bool.eq_false_iff.mpr fun hzx => ?_
  have hxy' : ¬ cmp x y = true := fun h =>
    hzy (trans_of (fun x y => cmp x y = true) hzx h)
  have hyz' : ¬ cmp y z = true := fun h =>
    hyx (trans_of (fun x y => cmp x y = true) h hzx)
  have htied := @IsStrictWeakOrder.incomp_trans α (fun x y => cmp x y = true) _ x y z
    ⟨hxy', hyx⟩ ⟨hyz', hzy⟩
  exact htied.2 hzx

theorem lt_of_atMost_of_lt (hxy : AtMost cmp x y) (hyz : cmp y z = true) : cmp x z = true := by
  by_contra h
  exact Bool.eq_false_iff.mp (AtMost.trans (atMost_of_not h) hxy) hyz

theorem lt_of_lt_of_atMost (hxy : cmp x y = true) (hyz : AtMost cmp y z) : cmp x z = true := by
  by_contra h
  exact Bool.eq_false_iff.mp (AtMost.trans hyz (atMost_of_not h)) hxy

end Order

/-! ## Entries as a list -/

/-- The entries from one place to another. -/
def segment (a : ℕ → α) (lo hi : ℕ) : List α := (List.range' lo (hi - lo)).map a

/-- Some entries taken over from another array. -/
def copyRange (a : ℕ → α) (k : ℕ) (b : ℕ → α) (i n : ℕ) : ℕ → α := fun x =>
  if k ≤ x ∧ x < k + n then b (i + (x - k)) else a x

section Segment

variable {a b : ℕ → α} {lo mid hi : ℕ}

theorem segment_self (a : ℕ → α) (lo : ℕ) : segment a lo lo = [] := by
  rw [segment, Nat.sub_self]
  rfl

theorem segment_cons (a : ℕ → α) (h : lo < hi) :
    segment a lo hi = a lo :: segment a (lo + 1) hi := by
  rw [segment, segment, show hi - lo = hi - (lo + 1) + 1 by omega, List.range'_succ, List.map_cons]

theorem segment_append (a : ℕ → α) (h : lo ≤ mid) (h' : mid ≤ hi) :
    segment a lo hi = segment a lo mid ++ segment a mid hi := by
  rw [segment, segment, segment, ← List.map_append]
  congr 1
  have hmid : lo + 1 * (mid - lo) = mid := by omega
  have happ := @List.range'_append lo (mid - lo) (hi - mid) 1
  rw [hmid] at happ
  rw [happ]
  congr 1
  omega

theorem segment_congr (h : ∀ k, lo ≤ k → k < hi → a k = b k) :
    segment a lo hi = segment b lo hi := by
  refine List.map_congr_left fun k hk => ?_
  rw [List.mem_range'_1] at hk
  exact h k hk.1 (by omega)

theorem segment_copyRange (h : lo ≤ mid) (i n : ℕ) :
    segment (copyRange a mid b i n) lo (mid + n) = segment a lo mid ++ segment b i (i + n) := by
  rw [segment_append _ h (Nat.le_add_right _ _)]
  congr 1
  · refine segment_congr fun k _ hk => ?_
    unfold copyRange
    rw [if_neg (by omega)]
  · unfold segment
    rw [Nat.add_sub_cancel_left, Nat.add_sub_cancel_left]
    refine List.ext_getElem (by simp) fun k hk _ => ?_
    rw [List.length_map, List.length_range'] at hk
    rw [List.getElem_map, List.getElem_map, List.getElem_range', List.getElem_range']
    unfold copyRange
    rw [if_pos (by omega)]
    congr 1
    omega

theorem pairwise_segment {R : α → α → Prop} :
    (segment a lo hi).Pairwise R ↔ ∀ i j, lo ≤ i → i < j → j < hi → R (a i) (a j) := by
  rw [segment, List.pairwise_map, List.pairwise_iff_getElem]
  constructor
  · intro h i j hi' hij hj
    have hlen : ∀ k, lo ≤ k → k < hi → k - lo < (List.range' lo (hi - lo)).length :=
      fun k h1 h2 => by
      rw [List.length_range']
      omega
    have hval := h (i - lo) (j - lo) (hlen i hi' (by omega)) (hlen j (by omega) hj) (by omega)
    rw [List.getElem_range', List.getElem_range'] at hval
    rwa [show lo + 1 * (i - lo) = i by omega, show lo + 1 * (j - lo) = j by omega] at hval
  · intro h i j hi' hj hij
    rw [List.length_range'] at hi' hj
    rw [List.getElem_range', List.getElem_range']
    exact h _ _ (by omega) (by omega) (by omega)

end Segment

end DaScript.Arrays
