import DaScript.Simulate.Qsort

/-!
# Simulate/QsortPartition — a range split at its pivot

Both partitions end with the pivot between what is not above it and what is not below it
(`Partitioned`).  By blocks, a bitset marks the elements of a block that are on the wrong side; a
bit that is not set says that its element is on the right one.
-/

namespace DaScript.Qsort

open Arrays

variable {α : Type} {cmp : α → α → Bool}

/-- **The pivot in its place.** -/
structure Partitioned (cmp : α → α → Bool) (lo p hi : ℕ) (a : ℕ → α) : Prop where
  le : lo ≤ p ∧ p ≤ hi
  below : ∀ k, lo ≤ k → k ≤ p → AtMost cmp (a k) (a p)
  above : ∀ k, p ≤ k → k ≤ hi → AtMost cmp (a p) (a k)

section Hoare

theorem partitioned_swap [IsStrictWeakOrder α (fun x y => cmp x y = true)] {lo j hi : ℕ}
    {a : ℕ → α} (hj : lo ≤ j ∧ j ≤ hi)
    (hbelow : ∀ k, lo < k → k ≤ j → AtMost cmp (a k) (a lo))
    (habove : ∀ k, j < k → k ≤ hi → AtMost cmp (a lo) (a k)) :
    Partitioned cmp lo j hi (swap a lo j) := by
  refine ⟨hj, fun k hlo hk => ?_, fun k hk hhi => ?_⟩
  · rw [swap_right]
    by_cases hkj : k = j
    · rw [hkj, swap_right]
      exact atMost_refl _
    · by_cases hklo : k = lo
      · rw [hklo, swap_left]
        exact hbelow j (by omega) le_rfl
      · rw [swap_other a _ _ hklo hkj]
        exact hbelow k (by omega) hk
  · rw [swap_right]
    by_cases hkj : k = j
    · rw [hkj, swap_right]
      exact atMost_refl _
    · rw [swap_other a _ _ (by omega) hkj]
      exact habove k (by omega) hhi

variable (cmp) in
theorem scanUp_spec (a : ℕ → α) (piv : α) (j i : ℕ) (hij : i ≤ j + 1) :
    scanUp cmp a piv j i ≤ j + 1 ∧
      (∀ k, i ≤ k → k < scanUp cmp a piv j i → cmp (a k) piv = true) ∧
      (scanUp cmp a piv j i ≤ j → cmp (a (scanUp cmp a piv j i)) piv = false) := by
  fun_induction scanUp cmp a piv j i with
  | case1 i h ih =>
    obtain ⟨hle, hup, hstop⟩ := ih (by omega)
    refine ⟨hle, fun k hk hk' => ?_, hstop⟩
    rcases Nat.eq_or_lt_of_le hk with rfl | hlt
    · exact h.2
    · exact hup k hlt hk'
  | case2 i h =>
    refine ⟨hij, fun k hk hk' => by omega, fun hle => ?_⟩
    exact Bool.eq_false_iff.mpr fun hlt => h ⟨hle, hlt⟩

variable (cmp) in
theorem scanDown_spec (a : ℕ → α) (piv : α) (i j : ℕ) (hi : 0 < i) (hij : i ≤ j + 1) :
    i ≤ scanDown cmp a piv i j + 1 ∧
      (∀ k, scanDown cmp a piv i j < k → k ≤ j → cmp piv (a k) = true) ∧
      (i ≤ scanDown cmp a piv i j → cmp piv (a (scanDown cmp a piv i j)) = false) := by
  induction j with
  | zero =>
    rw [scanDown]
    exact ⟨hij, fun k hk hk' => by omega, fun hle => by omega⟩
  | succ j ih =>
    rw [scanDown]
    split_ifs with h
    · obtain ⟨hle, hdown, hstop⟩ := ih (by omega)
      refine ⟨hle, fun k hk hk' => ?_, hstop⟩
      rcases Nat.eq_or_lt_of_le hk' with rfl | hlt
      · exact h.2
      · exact hdown k hk (by omega)
    · refine ⟨hij, fun k hk hk' => by omega, fun hle => ?_⟩
      exact Bool.eq_false_iff.mpr fun hlt => h ⟨hle, hlt⟩

variable [IsStrictWeakOrder α (fun x y => cmp x y = true)]

variable (cmp) in
theorem hoareLoop_spec (lo hi : ℕ) (n : ℕ) : ∀ (a : ℕ → α) (i j : ℕ), j - i = n → lo < i →
    i ≤ j + 1 → j ≤ hi → (∀ k, lo < k → k < i → AtMost cmp (a k) (a lo)) →
    (∀ k, j < k → k ≤ hi → AtMost cmp (a lo) (a k)) →
    ∃ b p, hoareLoop cmp lo a i j = (b, p) ∧ (lo ≤ p ∧ p ≤ hi) ∧
      Permutes (lo + 1) (hi + 1) a b ∧ (∀ k, lo < k → k ≤ p → AtMost cmp (b k) (b lo)) ∧
      ∀ k, p < k → k ≤ hi → AtMost cmp (b lo) (b k) := by
  induction n using Nat.strong_induction_on with
  | _ n ih =>
    intro a i j hn hlo hij hhi hbelow habove
    have hi' := le_scanUp cmp a (a lo) j i
    obtain ⟨hiLe, hup, hiStop⟩ := scanUp_spec cmp a (a lo) j i hij
    rw [hoareLoop]
    generalize scanUp cmp a (a lo) j i = i' at hi' hiLe hup hiStop ⊢
    have hj' := scanDown_le cmp a (a lo) i' j
    obtain ⟨hjLe, hdown, hjStop⟩ := scanDown_spec cmp a (a lo) i' j (by omega) hiLe
    generalize scanDown cmp a (a lo) i' j = j' at hj' hjLe hdown hjStop ⊢
    have hbelow' : ∀ k, lo < k → k < i' → AtMost cmp (a k) (a lo) := fun k hk hk' => by
      by_cases hki : k < i
      · exact hbelow k hk hki
      · exact atMost_of_lt (hup k (by omega) hk')
    have habove' : ∀ k, j' < k → k ≤ hi → AtMost cmp (a lo) (a k) := fun k hk hk' => by
      by_cases hkj : j < k
      · exact habove k hkj hk'
      · exact atMost_of_lt (hdown k hk (by omega))
    by_cases hmeet : i' ≥ j'
    · rw [if_pos hmeet]
      refine ⟨a, j', rfl, by omega, Permutes.refl _ _ _, fun k hk hk' => ?_, habove'⟩
      by_cases hki : k < i'
      · exact hbelow' k hk hki
      · obtain rfl : k = j' := by omega
        exact hjStop (by omega)
    · rw [if_neg hmeet]
      have hat : ∀ k, k ≠ i' → k ≠ j' → swap a i' j' k = a k := fun k h1 h2 =>
        swap_other a _ _ h1 h2
      have hpiv : swap a i' j' lo = a lo := hat lo (by omega) (by omega)
      obtain ⟨b, p, hrun, hp, hperm, hb, hb'⟩ := ih (j' - 1 - (i' + 1)) (by omega)
        (swap a i' j') (i' + 1) (j' - 1) rfl (by omega) (by omega) (by omega)
        (fun k hk hk' => by
          rw [hpiv]
          by_cases hki : k = i'
          · rw [hki, swap_left]
            exact hjStop (by omega)
          · rw [hat k hki (by omega)]
            exact hbelow' k hk (by omega))
        (fun k hk hk' => by
          rw [hpiv]
          by_cases hkj : k = j'
          · rw [hkj, swap_right]
            exact hiStop (by omega)
          · rw [hat k (by omega) hkj]
            exact habove' k (by omega) hk')
      exact ⟨b, p, hrun, hp, (Permutes.of_swap a (by omega) (by omega)).trans hperm, hb, hb'⟩

variable (cmp) in
theorem hoarePartition_spec (a : ℕ → α) {lo hi : ℕ} (hlo : lo < hi) :
    ∃ b p, hoarePartition cmp a lo hi = (b, p) ∧ Partitioned cmp lo p hi b ∧
      Permutes lo (hi + 1) a b := by
  obtain ⟨b, p, hrun, hp, hperm, hbelow, habove⟩ := hoareLoop_spec cmp lo hi _ a
    (lo + 1) hi rfl (by omega) (by omega) le_rfl (fun k hk hk' => by omega)
    fun k hk hk' => by omega
  refine ⟨swap b lo p, p, ?_, partitioned_swap hp hbelow habove,
    (hperm.mono (by omega) le_rfl).trans (Permutes.of_swap b (by omega) (by omega))⟩
  rw [hoarePartition, hrun]

end Hoare

/-! ## Bitsets -/

/-- **A bitset of the left**: `n` elements from `first` on; the bits are those to move. -/
structure LeftBits (cmp : α → α → Bool) (v : α) (first n left : ℕ) (a : ℕ → α) : Prop where
  set : ∀ j, left.testBit j = true → j < n ∧ AtMost cmp v (a (first + j))
  clear : ∀ j, j < n → left.testBit j = false → AtMost cmp (a (first + j)) v

/-- **A bitset of the right**: `n` elements from `last` down. -/
structure RightBits (cmp : α → α → Bool) (v : α) (last n right : ℕ) (a : ℕ → α) : Prop where
  set : ∀ j, right.testBit j = true → j < n ∧ AtMost cmp (a (last - j)) v
  clear : ∀ j, j < n → right.testBit j = false → AtMost cmp v (a (last - j))

/-- **A partition under way**: what is out of the scan is on its side. -/
structure Scanning (cmp : α → α → Bool) (v : α) (lo hi : ℕ) (s : Scan α) : Prop where
  low : lo < s.first
  gap : s.first ≤ s.last + 1
  high : s.last ≤ hi
  below : ∀ k, lo < k → k < s.first → AtMost cmp (s.data k) v
  above : ∀ k, s.last < k → k ≤ hi → AtMost cmp v (s.data k)

namespace Scan

section Turn

variable {v : α} {s : Scan α} {l r : ℕ}

variable (cmp) in
theorem pairSwaps_spec (hl : LeftBits cmp v s.first l s.left s.data)
    (hr : RightBits cmp v s.last r s.right s.data) (hroom : s.first + l + r ≤ s.last + 1) :
    LeftBits cmp v s.first l s.pairSwaps.left s.pairSwaps.data ∧
      RightBits cmp v s.last r s.pairSwaps.right s.pairSwaps.data ∧
      Permutes s.first (s.last + 1) s.data s.pairSwaps.data := by
  fun_induction pairSwaps s with
  | case1 s h ih =>
    obtain ⟨hli, hlv⟩ := hl.set _ (BitScan.testBit_ctz h.1)
    obtain ⟨hri, hrv⟩ := hr.set _ (BitScan.testBit_ctz h.2)
    have hleft := BitScan.testBit_and_pred h.1
    have hright := BitScan.testBit_and_pred h.2
    generalize BitScan.ctz s.left = li at hli hlv hleft ih ⊢
    generalize BitScan.ctz s.right = ri at hri hrv hright ih ⊢
    have hat : ∀ k, k ≠ s.first + li → k ≠ s.last - ri →
        swap s.data (s.first + li) (s.last - ri) k = s.data k := fun k h1 h2 =>
      swap_other s.data _ _ h1 h2
    obtain ⟨hl', hr', hperm⟩ := ih
      ⟨fun j hj => by
        rw [hleft, Bool.and_eq_true, decide_eq_true_eq] at hj
        obtain ⟨hjl, hjv⟩ := hl.set j hj.1
        refine ⟨hjl, ?_⟩
        dsimp only
        rwa [hat _ (by omega) (by omega)],
      fun j hjl hj => by
        dsimp only
        by_cases hji : j = li
        · rw [hji, swap_left]
          exact hrv
        · rw [hat _ (by omega) (by omega)]
          rw [hleft, Bool.and_eq_false_iff] at hj
          refine hl.clear j hjl (hj.resolve_right fun h => ?_)
          exact hji (not_not.mp (decide_eq_false_iff_not.mp h))⟩
      ⟨fun j hj => by
        rw [hright, Bool.and_eq_true, decide_eq_true_eq] at hj
        obtain ⟨hjr, hjv⟩ := hr.set j hj.1
        refine ⟨hjr, ?_⟩
        dsimp only
        rwa [hat _ (by omega) (by omega)],
      fun j hjr hj => by
        dsimp only
        by_cases hji : j = ri
        · rw [hji, swap_right]
          exact hlv
        · rw [hat _ (by omega) (by omega)]
          rw [hright, Bool.and_eq_false_iff] at hj
          refine hr.clear j hjr (hj.resolve_right fun h => ?_)
          exact hji (not_not.mp (decide_eq_false_iff_not.mp h))⟩
      hroom
    exact ⟨hl', hr', (Permutes.of_swap s.data (by omega) (by omega)).trans hperm⟩
  | case2 s h => exact ⟨hl, hr, Permutes.refl _ _ _⟩

variable [IsStrictWeakOrder α (fun x y => cmp x y = true)]

theorem populateLeft_spec (hl : s.left ≠ 0 → LeftBits cmp v s.first l s.left s.data) :
    ∃ left, s.populateLeft cmp v l = { s with left := left } ∧
      LeftBits cmp v s.first l left s.data := by
  unfold populateLeft
  split_ifs with h
  · refine ⟨_, rfl, fun j hj => ?_, fun j hjl hj => ?_⟩
    · rw [BitScan.testBit_populate, Bool.and_eq_true, decide_eq_true_eq, Bool.not_eq_true'] at hj
      exact hj
    · rw [BitScan.testBit_populate, decide_eq_true hjl, Bool.true_and, Bool.not_eq_false'] at hj
      exact atMost_of_lt hj
  · exact ⟨s.left, rfl, hl h⟩

variable (cmp) in
theorem populateRight_spec (hr : s.right ≠ 0 → RightBits cmp v s.last r s.right s.data) :
    ∃ right, s.populateRight cmp v r = { s with right := right } ∧
      RightBits cmp v s.last r right s.data := by
  unfold populateRight
  split_ifs with h
  · refine ⟨_, rfl, fun j hj => ?_, fun j hjr hj => ?_⟩
    · rw [BitScan.testBit_populate, Bool.and_eq_true, decide_eq_true_eq, Bool.not_eq_true'] at hj
      exact hj
    · rw [BitScan.testBit_populate, decide_eq_true hjr, Bool.true_and, Bool.not_eq_false'] at hj
      exact atMost_of_lt hj
  · exact ⟨s.right, rfl, hr h⟩

theorem turn_spec {lo hi : ℕ} (hs : Scanning cmp v lo hi s)
    (hl : s.left ≠ 0 → LeftBits cmp v s.first l s.left s.data)
    (hr : s.right ≠ 0 → RightBits cmp v s.last r s.right s.data)
    (hroom : s.first + l + r ≤ s.last + 1) :
    ∃ t, s.turn cmp v l r = t ∧ Scanning cmp v lo hi t ∧
      Permutes (lo + 1) (hi + 1) s.data t.data ∧ (t.left = 0 ∨ t.right = 0) ∧
      t.first = (if t.left = 0 then s.first + l else s.first) ∧
      t.last = (if t.right = 0 then s.last - r else s.last) ∧
      (t.left ≠ 0 → LeftBits cmp v t.first l t.left t.data) ∧
      (t.right ≠ 0 → RightBits cmp v t.last r t.right t.data) := by
  obtain ⟨left, hleft, hl'⟩ := populateLeft_spec hl
  obtain ⟨right, hright, hr'⟩ :=
    populateRight_spec cmp (v := v) (s := { s with left := left }) hr
  refine ⟨_, rfl, ?_⟩
  unfold turn
  rw [hleft, hright]
  let u : Scan α := { s with left := left, right := right }
  obtain ⟨hl'', hr'', hperm⟩ := pairSwaps_spec cmp (v := v) (s := u) hl' hr' hroom
  have hfirst : u.pairSwaps.first = s.first := pairSwaps_first u
  have hlast : u.pairSwaps.last = s.last := pairSwaps_last u
  have hempty := pairSwaps_empty u
  have hlow := hs.low
  have hgap := hs.gap
  have hhigh := hs.high
  change Scanning cmp v lo hi (u.pairSwaps.advance l r) ∧ _
  generalize u.pairSwaps = t at hl'' hr'' hperm hfirst hlast hempty ⊢
  change LeftBits cmp v s.first l t.left t.data at hl''
  change RightBits cmp v s.last r t.right t.data at hr''
  change Permutes s.first (s.last + 1) s.data t.data at hperm
  refine ⟨⟨?_, ?_, ?_, ?_, ?_⟩, hperm.mono (by omega) (by omega), hempty, ?_, ?_, ?_, ?_⟩
  · unfold advance
    dsimp only
    split_ifs <;> omega
  · unfold advance
    dsimp only
    split_ifs <;> omega
  · unfold advance
    dsimp only
    split_ifs <;> omega
  · intro k hk hk'
    unfold advance at hk' ⊢
    dsimp only at hk' ⊢
    by_cases hout : k < s.first
    · rw [hperm.outside (.inl hout)]
      exact hs.below k hk hout
    · have hzero : t.left = 0 := by
        by_contra h
        rw [if_neg h] at hk'
        omega
      rw [if_pos hzero] at hk'
      have hclear := hl''.clear (k - s.first) (by omega) (by rw [hzero]; exact Nat.zero_testBit _)
      rwa [Nat.add_sub_cancel' (by omega)] at hclear
  · intro k hk hk'
    unfold advance at hk ⊢
    dsimp only at hk ⊢
    by_cases hout : s.last < k
    · rw [hperm.outside (.inr (by omega))]
      exact hs.above k hout hk'
    · have hzero : t.right = 0 := by
        by_contra h
        rw [if_neg h] at hk
        omega
      rw [if_pos hzero] at hk
      have hclear := hr''.clear (s.last - k) (by omega)
        (by rw [hzero]; exact Nat.zero_testBit _)
      rwa [show s.last - (s.last - k) = k by omega] at hclear
  · unfold advance
    dsimp only
    rw [hfirst]
  · unfold advance
    dsimp only
    rw [hlast]
  · intro h
    unfold advance at h ⊢
    dsimp only at h ⊢
    rw [if_neg h, hfirst]
    exact hl''
  · intro h
    unfold advance at h ⊢
    dsimp only at h ⊢
    rw [if_neg h, hlast]
    exact hr''

end Turn

section Blocks

variable {v : α} {lo hi : ℕ}

/-- At most one side has a block under way, with room for it. -/
structure Residue (cmp : α → α → Bool) (v : α) (s : Scan α) : Prop where
  one : s.left = 0 ∨ s.right = 0
  left : s.left ≠ 0 →
    LeftBits cmp v s.first blockSize s.left s.data ∧ s.first + blockSize ≤ s.last + 1
  right : s.right ≠ 0 →
    RightBits cmp v s.last blockSize s.right s.data ∧ s.first + blockSize ≤ s.last + 1

theorem blocks_spec [IsStrictWeakOrder α (fun x y => cmp x y = true)] (n : ℕ) :
    ∀ s : Scan α, s.last - s.first = n → Scanning cmp v lo hi s → Residue cmp v s →
    ∃ t, s.blocks cmp v = t ∧ Scanning cmp v lo hi t ∧ Residue cmp v t ∧
      Permutes (lo + 1) (hi + 1) s.data t.data ∧ t.last + 1 < t.first + 2 * blockSize := by
  induction n using Nat.strong_induction_on with
  | _ n ih =>
    intro s hn hs hres
    rw [blocks]
    have hsize : blockSize = 64 := rfl
    have hgap := hs.gap
    split_ifs with hmore
    · obtain ⟨t, rfl, ht, hperm, hempty, hfirst, hlast, hleft, hright⟩ :=
        turn_spec hs (fun h => (hres.left h).1) (fun h => (hres.right h).1)
          (show s.first + blockSize + blockSize ≤ s.last + 1 by omega)
      have hlt := turn_lt cmp v blockSize blockSize (by decide) (by decide)
        (s := s) (by omega)
      generalize s.turn cmp v blockSize blockSize = t
        at ht hperm hempty hfirst hlast hleft hright hlt ⊢
      obtain ⟨t', hrun, ht', hres', hperm', hfew⟩ := ih _ (by omega) t rfl ht
        ⟨hempty, fun h => ⟨hleft h, by
          have hzero := hempty.resolve_left h
          rw [if_neg h] at hfirst
          rw [if_pos hzero] at hlast
          omega⟩, fun h => ⟨hright h, by
          have hzero := hempty.resolve_right h
          rw [if_pos hzero] at hfirst
          rw [if_neg h] at hlast
          omega⟩⟩
      exact ⟨t', hrun, ht', hres', hperm.trans hperm', hfew⟩
    · exact ⟨s, rfl, hs, hres, Permutes.refl _ _ _, by omega⟩

theorem sizes_spec {s : Scan α} (hs : Scanning cmp v lo hi s) (hres : Residue cmp v s) :
    s.first + s.sizes.1 + s.sizes.2 = s.last + 1 ∧ (s.left ≠ 0 → s.sizes.1 = blockSize) ∧
      (s.right ≠ 0 → s.sizes.2 = blockSize) := by
  have hgap := hs.gap
  unfold sizes
  dsimp only
  split_ifs with h1 h2
  · exact ⟨by dsimp only; omega, fun h => absurd h1.1 h, fun h => absurd h1.2 h⟩
  · have hroom := (hres.right fun h => h1 ⟨h2, h⟩).2
    exact ⟨by dsimp only; omega, fun h => absurd h2 h, fun _ => rfl⟩
  · have hroom := (hres.left h2).2
    exact ⟨by dsimp only; omega, fun _ => rfl, fun h => absurd (hres.one.resolve_left h2) h⟩

variable (cmp) in
theorem drainLeft_spec {s : Scan α} (hfirst : 0 < s.first) (hgap : s.first ≤ s.last + 1)
    (hl : LeftBits cmp v s.first (s.last + 1 - s.first) s.left s.data) :
    ∃ t, s.drainLeft = t ∧ s.first ≤ t.last + 1 ∧ t.last ≤ s.last ∧
      Permutes s.first (s.last + 1) s.data t.data ∧
      (∀ k, s.first ≤ k → k ≤ t.last → AtMost cmp (t.data k) v) ∧
      ∀ k, t.last < k → k ≤ s.last → AtMost cmp v (t.data k) := by
  fun_induction drainLeft s with
  | case1 s h ih =>
    obtain ⟨htz, htv⟩ := hl.set _ (BitScan.testBit_log2 h)
    have hmask := BitScan.testBit_and_mask s.left
    have hhigh : ∀ j, s.left.log2 < j → s.left.testBit j = false := fun j hj =>
      BitScan.testBit_of_log2_lt hj
    generalize s.left.log2 = tz at htz htv hmask hhigh ih ⊢
    rw [dite_eq_ite, swap_apart] at ih
    rw [swap_apart]
    have hb : ∀ k, k ≠ s.first + tz → k ≠ s.last →
        swap s.data (s.first + tz) s.last k = s.data k := fun k h1 h2 => swap_other s.data _ _ h1 h2
    obtain ⟨t, hrun, hle, htl, hperm', hbelow, habove⟩ := ih hfirst (by dsimp only; omega)
      ⟨fun j hj => by
        rw [hmask, Bool.and_eq_true, decide_eq_true_eq] at hj
        obtain ⟨hjn, hjv⟩ := hl.set j hj.1
        refine ⟨by dsimp only; omega, ?_⟩
        change AtMost cmp v (swap s.data (s.first + tz) s.last (s.first + j))
        rwa [hb _ (by omega) (by omega)],
      fun j hjn hj => by
        dsimp only at hjn
        change AtMost cmp (swap s.data (s.first + tz) s.last (s.first + j)) v
        by_cases hjt : j = tz
        · rw [hjt, swap_left]
          have hclear := hl.clear (s.last - s.first) (by omega) (hhigh _ (by omega))
          rwa [Nat.add_sub_cancel' (by omega)] at hclear
        · rw [hb _ (by omega) (by omega)]
          refine hl.clear j (by omega) ?_
          rw [hmask, Bool.and_eq_false_iff, decide_eq_false_iff_not] at hj
          exact hj.elim id fun hj => hhigh j (by omega)⟩
    dsimp only at hle htl hperm' hbelow habove
    have hperm : Permutes s.first (s.last + 1) s.data (swap s.data (s.first + tz) s.last) :=
      .of_swap s.data (by omega) (by omega)
    refine ⟨t, hrun, hle, by omega, hperm.trans (hperm'.mono le_rfl (by omega)), hbelow,
      fun k hk hk' => ?_⟩
    by_cases hkl : k = s.last
    · rw [hkl, hperm'.outside (.inr (by omega))]
      rw [swap_right]
      exact htv
    · exact habove k hk (by omega)
  | case2 s h =>
    have hzero : s.left = 0 := not_not.mp h
    refine ⟨s, rfl, hgap, le_rfl, Permutes.refl _ _ _, fun k hk hk' => ?_,
      fun k hk hk' => by omega⟩
    have hclear := hl.clear (k - s.first) (by omega) (by rw [hzero]; exact Nat.zero_testBit _)
    rwa [Nat.add_sub_cancel' hk] at hclear

variable (cmp) in
theorem drainRight_spec {s : Scan α} (hfirst : 0 < s.first) (hgap : s.first ≤ s.last + 1)
    (hr : RightBits cmp v s.last (s.last + 1 - s.first) s.right s.data) :
    ∃ t, s.drainRight = t ∧ s.first ≤ t.first ∧ t.first ≤ s.last + 1 ∧
      Permutes s.first (s.last + 1) s.data t.data ∧
      (∀ k, s.first ≤ k → k < t.first → AtMost cmp (t.data k) v) ∧
      ∀ k, t.first ≤ k → k ≤ s.last → AtMost cmp v (t.data k) := by
  fun_induction drainRight s with
  | case1 s h ih =>
    obtain ⟨htz, htv⟩ := hr.set _ (BitScan.testBit_log2 h)
    have hmask := BitScan.testBit_and_mask s.right
    have hhigh : ∀ j, s.right.log2 < j → s.right.testBit j = false := fun j hj =>
      BitScan.testBit_of_log2_lt hj
    generalize s.right.log2 = tz at htz htv hmask hhigh ih ⊢
    rw [dite_eq_ite, swap_apart] at ih
    rw [swap_apart]
    have hb : ∀ k, k ≠ s.last - tz → k ≠ s.first →
        swap s.data (s.last - tz) s.first k = s.data k := fun k h1 h2 => swap_other s.data _ _ h1 h2
    obtain ⟨t, hrun, hle, htl, hperm', hbelow, habove⟩ := ih (by dsimp only; omega)
      (by dsimp only; omega)
      ⟨fun j hj => by
        rw [hmask, Bool.and_eq_true, decide_eq_true_eq] at hj
        obtain ⟨hjn, hjv⟩ := hr.set j hj.1
        refine ⟨by dsimp only; omega, ?_⟩
        change AtMost cmp (swap s.data (s.last - tz) s.first (s.last - j)) v
        rwa [hb _ (by omega) (by omega)],
      fun j hjn hj => by
        dsimp only at hjn
        change AtMost cmp v (swap s.data (s.last - tz) s.first (s.last - j))
        by_cases hjt : j = tz
        · rw [hjt, swap_left]
          have hclear := hr.clear (s.last - s.first) (by omega) (hhigh _ (by omega))
          rwa [show s.last - (s.last - s.first) = s.first by omega] at hclear
        · rw [hb _ (by omega) (by omega)]
          refine hr.clear j (by omega) ?_
          rw [hmask, Bool.and_eq_false_iff, decide_eq_false_iff_not] at hj
          exact hj.elim id fun hj => hhigh j (by omega)⟩
    dsimp only at hle htl hperm' hbelow habove
    have hperm : Permutes s.first (s.last + 1) s.data (swap s.data (s.last - tz) s.first) :=
      .of_swap s.data (by omega) (by omega)
    refine ⟨t, hrun, by omega, htl, hperm.trans (hperm'.mono (by omega) le_rfl),
      fun k hk hk' => ?_, habove⟩
    by_cases hkf : k = s.first
    · rw [hkf, hperm'.outside (.inl (by omega))]
      rw [swap_right]
      exact htv
    · exact hbelow k (by omega) hk'
  | case2 s h =>
    have hzero : s.right = 0 := not_not.mp h
    refine ⟨s, rfl, le_rfl, hgap, Permutes.refl _ _ _, fun k hk hk' => by omega,
      fun k hk hk' => ?_⟩
    have hclear := hr.clear (s.last - k) (by omega) (by rw [hzero]; exact Nat.zero_testBit _)
    rwa [show s.last - (s.last - k) = k by omega] at hclear

theorem tail_spec [IsStrictWeakOrder α (fun x y => cmp x y = true)] {s : Scan α}
    (hs : Scanning cmp v lo hi s) (hres : Residue cmp v s) :
    ∃ t, (s.turn cmp v s.sizes.1 s.sizes.2).residual = t ∧ (lo < t.first ∧ t.first ≤ hi + 1) ∧
      Permutes (lo + 1) (hi + 1) s.data t.data ∧
      (∀ k, lo < k → k < t.first → AtMost cmp (t.data k) v) ∧
      ∀ k, t.first ≤ k → k ≤ hi → AtMost cmp v (t.data k) := by
  obtain ⟨hsum, hsize, hsize'⟩ := sizes_spec hs hres
  obtain ⟨t, rfl, ht, hperm, hempty, hfirst, hlast, hleft, hright⟩ :=
    turn_spec (l := s.sizes.1) (r := s.sizes.2) hs
      (fun h => by rw [hsize h]; exact (hres.left h).1)
      (fun h => by rw [hsize' h]; exact (hres.right h).1) (by omega)
  generalize s.turn cmp v s.sizes.1 s.sizes.2 = t at ht hperm hempty hfirst hlast hleft hright ⊢
  have hlow := ht.low
  have hgap := ht.gap
  have hhigh := ht.high
  have hslow := hs.low
  unfold residual
  split_ifs with h1 h2
  · -- the left block is all there is between the sides
    have hzero := hempty.resolve_left h1
    rw [if_neg h1] at hfirst
    rw [if_pos hzero] at hlast
    obtain ⟨u, hu, hle, hul, hperm', hbelow, habove⟩ := drainLeft_spec cmp (v := v)
      (s := t) (by omega) hgap (by
        rw [show t.last + 1 - t.first = s.sizes.1 by omega]
        exact hleft h1)
    rw [hu]
    refine ⟨_, rfl, by dsimp only; omega, hperm.trans (hperm'.mono (by omega) (by omega)),
      fun k hk hk' => ?_, fun k hk hk' => ?_⟩
    · dsimp only at hk' ⊢
      by_cases hout : k < t.first
      · rw [hperm'.outside (.inl hout)]
        exact ht.below k hk hout
      · exact hbelow k (by omega) (by omega)
    · dsimp only at hk ⊢
      by_cases hout : t.last < k
      · rw [hperm'.outside (.inr (by omega))]
        exact ht.above k hout hk'
      · exact habove k (by omega) (by omega)
  · have hzero : t.left = 0 := not_not.mp h1
    rw [if_pos hzero] at hfirst
    rw [if_neg h2] at hlast
    obtain ⟨u, hu, hle, hul, hperm', hbelow, habove⟩ := drainRight_spec cmp (v := v)
      (s := t) (by omega) hgap (by
        rw [show t.last + 1 - t.first = s.sizes.2 by omega]
        exact hright h2)
    rw [hu]
    refine ⟨u, rfl, by omega, hperm.trans (hperm'.mono (by omega) (by omega)),
      fun k hk hk' => ?_, fun k hk hk' => ?_⟩
    · by_cases hout : k < t.first
      · rw [hperm'.outside (.inl hout)]
        exact ht.below k hk hout
      · exact hbelow k (by omega) hk'
    · by_cases hout : t.last < k
      · rw [hperm'.outside (.inr (by omega))]
        exact ht.above k hout hk'
      · exact habove k hk (by omega)
  · rw [if_pos (not_not.mp h1)] at hfirst
    rw [if_pos (not_not.mp h2)] at hlast
    exact ⟨t, rfl, by omega, hperm, ht.below, fun k hk hk' => ht.above k (by omega) hk'⟩

end Blocks

end Scan

/-! ## The partition by blocks -/

section Find

variable (a : ℕ → α) (pivot : α)

variable (cmp) in
theorem findFirst_spec (hi first : ℕ) (hfirst : first ≤ hi + 1) :
    first ≤ findFirst cmp a pivot hi first ∧ findFirst cmp a pivot hi first ≤ hi + 1 ∧
      (∀ k, first ≤ k → k < findFirst cmp a pivot hi first → AtMost cmp (a k) pivot) ∧
      (findFirst cmp a pivot hi first ≤ hi →
        cmp pivot (a (findFirst cmp a pivot hi first)) = true) := by
  fun_induction findFirst cmp a pivot hi first with
  | case1 first h ih =>
    obtain ⟨hle, hhi, hbelow, hstop⟩ := ih (by omega)
    refine ⟨by omega, hhi, fun k hk hk' => ?_, hstop⟩
    rcases Nat.eq_or_lt_of_le hk with rfl | hlt
    · exact (Bool.not_eq_true' _).mp h.2
    · exact hbelow k hlt hk'
  | case2 first h =>
    refine ⟨le_rfl, hfirst, fun k hk hk' => by omega, fun hle => ?_⟩
    by_contra hstop
    exact h ⟨hle, by rw [Bool.eq_false_iff.mpr hstop]; rfl⟩

variable (cmp) in
theorem findLast_spec (lo last : ℕ) (hlast : lo < last) :
    lo < findLast cmp a pivot lo last ∧ findLast cmp a pivot lo last ≤ last ∧
      (∀ k, findLast cmp a pivot lo last < k → k ≤ last → cmp pivot (a k) = true) ∧
      (findLast cmp a pivot lo last = lo + 1 ∨
        AtMost cmp (a (findLast cmp a pivot lo last)) pivot) := by
  induction last with
  | zero => omega
  | succ last ih =>
    rw [findLast]
    split_ifs with habove hend
    · exact ⟨by omega, le_rfl, fun k hk hk' => by omega, .inl hend⟩
    · obtain ⟨hlo, hle, hdown, hstop⟩ := ih (by omega)
      refine ⟨hlo, by omega, fun k hk hk' => ?_, hstop⟩
      rcases Nat.eq_or_lt_of_le hk' with rfl | hlt
      · exact habove
      · exact hdown k hk (by omega)
    · exact ⟨hlast, le_rfl, fun k hk hk' => by omega, .inr (atMost_of_not habove)⟩

variable [IsStrictWeakOrder α (fun x y => cmp x y = true)]

variable (cmp) in
theorem guardedFind_spec {lo hi : ℕ} (hlo : lo < hi) :
    ∃ s already, guardedFind cmp pivot a lo hi = (s, already) ∧ s.left = 0 ∧ s.right = 0 ∧
      Scanning cmp pivot lo hi s ∧ Permutes (lo + 1) (hi + 1) a s.data := by
  obtain ⟨hfirst, hfirst', hbelow, hstop⟩ :=
    findFirst_spec cmp a pivot hi (lo + 1) (by omega)
  obtain ⟨hlast, hlast', hdown, hstop'⟩ := findLast_spec cmp a pivot lo hi hlo
  unfold guardedFind
  dsimp only
  generalize findFirst cmp a pivot hi (lo + 1) = first at hfirst hfirst' hbelow hstop ⊢
  generalize findLast cmp a pivot lo hi = last at hlast hlast' hdown hstop' ⊢
  by_cases hin : first < hi
  · rw [if_pos hin]
    have habove : ∀ k, last < k → k ≤ hi → AtMost cmp pivot (a k) := fun k hk hk' =>
      atMost_of_lt (hdown k hk hk')
    split_ifs with hmeet
    · refine ⟨_, _, rfl, rfl, rfl, ⟨by dsimp only; omega, ?_, hlast', fun k hk hk' =>
        hbelow k hk hk', habove⟩, Permutes.refl _ _ _⟩
      -- what is before the first above the pivot is not past the last that is not
      by_contra hgap
      dsimp only at hgap
      have h1 := hbelow (last + 1) (by omega) (by omega)
      have h2 := hdown (last + 1) (by omega) (by omega)
      rw [AtMost, h2] at h1
      exact Bool.noConfusion h1
    · have hle : AtMost cmp (a last) pivot := hstop'.resolve_left (by omega)
      have hat : ∀ k, k ≠ first → k ≠ last → swap a first last k = a k := fun k h1 h2 =>
        swap_other a _ _ h1 h2
      refine ⟨_, _, rfl, rfl, rfl, ⟨by dsimp only; omega, by dsimp only; omega, hlast',
        fun k hk hk' => ?_, fun k hk hk' => ?_⟩, Permutes.of_swap a (by omega) (by omega)⟩
      · dsimp only at hk' ⊢
        by_cases hkf : k = first
        · rw [hkf, swap_left]
          exact hle
        · rw [hat k hkf (by omega)]
          exact hbelow k (by omega) (by omega)
      · dsimp only at hk ⊢
        rw [hat k (by omega) (by omega)]
        exact habove k hk hk'
  · rw [if_neg hin, if_pos (by omega)]
    exact ⟨_, _, rfl, rfl, rfl, ⟨by dsimp only; omega, by dsimp only; omega, le_rfl,
      fun k hk hk' => hbelow k hk hk', fun k hk hk' => by dsimp only at hk; omega⟩,
      Permutes.refl _ _ _⟩

variable (cmp) in
theorem blockPartition_spec (wide : Bool) {lo hi : ℕ} (hlo : lo < hi) :
    ∃ b p already, blockPartition cmp wide a lo hi = (b, p, already) ∧
      Partitioned cmp lo p hi b ∧ Permutes lo (hi + 1) a b := by
  unfold blockPartition
  split_ifs
  · obtain ⟨b, p, hrun, hpart, hperm⟩ := hoarePartition_spec cmp a hlo
    rw [hrun]
    exact ⟨b, p, false, rfl, hpart, hperm⟩
  · obtain ⟨s, already, hfind, hleft, hright, hs, hperm⟩ :=
      guardedFind_spec cmp a (a lo) hlo
    obtain ⟨t, hblocks, ht, hres, hperm', -⟩ := Scan.blocks_spec _ s rfl hs
      ⟨.inl hleft, fun h => absurd hleft h, fun h => absurd hright h⟩
    obtain ⟨u, htail, hu, hperm'', hbelow, habove⟩ := Scan.tail_spec ht hres
    dsimp only
    rw [hfind]
    dsimp only
    rw [hblocks, htail]
    have hfixed : u.data lo = a lo :=
      ((hperm.trans hperm').trans hperm'').outside (.inl (by omega))
    have hplace : Function.update
        (if u.first - 1 ≠ lo then Function.update u.data lo (u.data (u.first - 1)) else u.data)
        (u.first - 1) (a lo) = swap u.data lo (u.first - 1) := by
      funext k
      unfold swap
      by_cases hne : u.first - 1 = lo
      · rw [hne, if_neg (not_not.mpr rfl)]
        by_cases hk : k = lo
        · rw [hk, Function.update_self, if_pos rfl, hfixed]
        · rw [Function.update_of_ne hk, if_neg hk, if_neg hk]
      · rw [if_pos hne]
        by_cases hk : k = u.first - 1
        · rw [hk, Function.update_self, if_neg hne, if_pos rfl, hfixed]
        · rw [Function.update_of_ne hk, if_neg hk]
          by_cases hk' : k = lo
          · rw [hk', Function.update_self, if_pos rfl]
          · rw [Function.update_of_ne hk', if_neg hk']
    refine ⟨_, _, _, rfl, ?_, ?_⟩
    · rw [hplace]
      refine partitioned_swap (by omega) (fun k hk hk' => ?_) fun k hk hk' => ?_
      · rw [hfixed]
        exact hbelow k hk (by omega)
      · rw [hfixed]
        exact habove k (by omega) hk'
    · rw [hplace]
      exact (((hperm.trans hperm').trans hperm'').mono (by omega) le_rfl).trans
        (Permutes.of_swap u.data (by omega) (by omega))

variable (cmp) in
theorem partition_spec (wide : Bool) {lo hi : ℕ} (hlo : lo < hi) :
    ∃ b p, partition cmp wide a lo hi = (b, p) ∧ Partitioned cmp lo p hi b ∧
      Permutes lo (hi + 1) a b := by
  unfold partition
  split_ifs
  · obtain ⟨b, p, already, hrun, hpart, hperm⟩ := blockPartition_spec cmp a wide hlo
    rw [hrun]
    exact ⟨b, p, rfl, hpart, hperm⟩
  · exact hoarePartition_spec cmp a hlo

omit [IsStrictWeakOrder α (fun x y => cmp x y = true)] in
variable (cmp) in
theorem medianOf3_permutes {lo hi : ℕ} (hlo : lo < hi) :
    Permutes lo (hi + 1) a (medianOf3 cmp a lo hi) := by
  have hstep : ∀ (c : Bool) (b : ℕ → α) (i j : ℕ), (lo ≤ i ∧ i < hi + 1) → (lo ≤ j ∧ j < hi + 1) →
      Permutes lo (hi + 1) b (if c then swap b i j else b) := fun c b i j hi' hj => by
    split_ifs
    · exact Permutes.of_swap b hi' hj
    · exact Permutes.refl _ _ _
  unfold medianOf3
  dsimp only
  refine Permutes.trans ?_ (Permutes.of_swap _ (by omega) (by omega))
  refine Permutes.trans ?_ (hstep _ _ _ _ (by omega) (by omega))
  refine Permutes.trans ?_ (hstep _ _ _ _ (by omega) (by omega))
  exact hstep _ _ _ _ (by omega) (by omega)

end Find

end DaScript.Qsort
