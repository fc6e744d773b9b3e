import DaScript.Simulate.Qsort

/-!
# Simulate/QsortHeap — ranges sorted by insertion and through a heap

The two ends of the recursion.  A heap of `nel` elements from `base` on: no child compares above
its parent.  While an element goes down, this fails at its hole alone, and what is below the hole is
not above the hole's own parent (`HeapBut`).
-/

namespace DaScript.Qsort

open Arrays

variable {α : Type} {cmp : α → α → Bool}

/-- A child of a parent. -/
def Child (p c : ℕ) : Prop := c = 2 * p + 1 ∨ c = 2 * p + 2

/-- **A heap** below some parents. -/
def Heap (cmp : α → α → Bool) (base nel first : ℕ) (a : ℕ → α) : Prop :=
  ∀ p c, first ≤ p → Child p c → c < nel → AtMost cmp (a (base + c)) (a (base + p))

/-- **A heap but for a hole**, what is below the hole being in its place. -/
structure HeapBut (cmp : α → α → Bool) (base nel first hole : ℕ) (a : ℕ → α) : Prop where
  edge : ∀ p c, first ≤ p → p ≠ hole → Child p c → c < nel →
    AtMost cmp (a (base + c)) (a (base + p))
  grand : ∀ g c, first ≤ g → Child g hole → Child hole c → c < nel →
    AtMost cmp (a (base + c)) (a (base + g))

section Sift

variable {base nel first hole : ℕ} {a : ℕ → α}

theorem HeapBut.stop (h : HeapBut cmp base nel first hole a)
    (habove : ∀ c, Child hole c → c < nel → AtMost cmp (a (base + c)) (a (base + hole))) :
    Heap cmp base nel first a := by
  intro p c hp hchild hc
  by_cases hhole : p = hole
  · subst hhole
    exact habove c hchild hc
  · exact h.edge p c hp hhole hchild hc

theorem HeapBut.down (h : HeapBut cmp base nel first hole a) (hfirst : first ≤ hole) {c : ℕ}
    (hchild : Child hole c) (hc : c < nel)
    (habove : ∀ c', Child hole c' → c' < nel → AtMost cmp (a (base + c')) (a (base + c)))
    (hless : AtMost cmp (a (base + hole)) (a (base + c))) :
    HeapBut cmp base nel first c (swap a (base + hole) (base + c)) := by
  unfold Child at *
  have hother : ∀ k, k ≠ hole → k ≠ c →
      swap a (base + hole) (base + c) (base + k) = a (base + k) :=
    fun k h1 h2 => swap_other a _ _ (by omega) (by omega)
  refine ⟨fun p c' hp hpc hchild' hc' => ?_, fun g c' hg hgc hchild' hc' => ?_⟩
  · by_cases hhole : p = hole
    · subst hhole
      rw [swap_left]
      by_cases hcc : c' = c
      · rw [hcc, swap_right]
        exact hless
      · rw [hother c' (by unfold Child at hchild'; omega) hcc]
        exact habove c' hchild' hc'
    · rw [hother p hhole hpc]
      by_cases hup : c' = hole
      · rw [hup, swap_left]
        exact h.grand p c hp (by rw [← hup]; exact hchild') hchild hc
      · rw [hother c' hup (by unfold Child at hchild'; omega)]
        exact h.edge p c' hp hhole hchild' hc'
  · obtain rfl : g = hole := by
      unfold Child at hgc
      omega
    rw [swap_left, hother c' (by unfold Child at hchild'; omega)
      (by unfold Child at hchild'; omega)]
    exact h.edge c c' (by omega) (by omega) hchild' hc'

variable [IsStrictWeakOrder α (fun x y => cmp x y = true)]

theorem largerOf_above {c : ℕ} (hchild : Child hole c) (hc : c < nel) :
    AtMost cmp (a (base + c)) (a (base + largerOf cmp base nel a hole)) := by
  unfold largerOf
  split_ifs with h
  · rcases hchild with rfl | rfl
    · exact atMost_of_lt h.2
    · exact atMost_refl _
  · rcases hchild with rfl | rfl
    · exact atMost_refl _
    · exact atMost_of_not fun hlt => h ⟨hc, hlt⟩

variable (cmp base) in
theorem largestOf_above {c : ℕ} (hchild : Child hole c ∨ c = hole) (hc : c < nel) :
    AtMost cmp (a (base + c)) (a (base + largestOf cmp base nel a hole)) := by
  unfold largestOf
  dsimp only
  split_ifs with h1 h2 h3
  · rcases hchild with (rfl | rfl) | rfl
    · exact atMost_of_lt h2.2
    · exact atMost_refl _
    · exact (atMost_of_lt h1).trans (atMost_of_lt h2.2)
  · rcases hchild with (rfl | rfl) | rfl
    · exact atMost_refl _
    · exact atMost_of_not fun hlt => h2 ⟨hc, hlt⟩
    · exact atMost_of_lt h1
  · rcases hchild with (rfl | rfl) | rfl
    · exact (atMost_of_not h1).trans (atMost_of_lt h3.2)
    · exact atMost_refl _
    · exact atMost_of_lt h3.2
  · rcases hchild with (rfl | rfl) | rfl
    · exact atMost_of_not h1
    · exact atMost_of_not fun hlt => h3 ⟨hc, hlt⟩
    · exact atMost_refl _

theorem siftSwaps_spec (hfirst : first ≤ hole) (h : HeapBut cmp base nel first hole a)
    (hhole : hole < nel) :
    Heap cmp base nel first (siftSwaps cmp base nel a hole) ∧
      Permutes base (base + nel) a (siftSwaps cmp base nel a hole) := by
  fun_induction siftSwaps cmp base nel a hole with
  | case1 a hole hleft =>
    refine ⟨h.stop fun c hchild hc => ?_, Permutes.refl _ _ _⟩
    unfold Child at hchild
    omega
  | case2 a hole hleft hlargest =>
    refine ⟨h.stop fun c hchild hc => ?_, Permutes.refl _ _ _⟩
    have habove := largestOf_above cmp base (a := a) (.inl hchild) hc
    rwa [hlargest] at habove
  | case3 a hole hleft hlargest ih =>
    have hcases := largestOf_cases cmp base nel a hole
    have hchild : Child hole (largestOf cmp base nel a hole) := by
      unfold Child
      omega
    have hc : largestOf cmp base nel a hole < nel := by
      omega
    have hdown := h.down hfirst hchild hc
      (fun c' hchild' hc' => largestOf_above cmp base (.inl hchild') hc')
      (largestOf_above cmp base (.inr rfl) hhole)
    obtain ⟨hheap, hperm⟩ := ih (by omega) hdown hc
    exact ⟨hheap, (Permutes.of_swap a (by omega) (by omega)).trans hperm⟩

theorem slide_spec (tmp : α) (hfirst : first ≤ hole)
    (h : HeapBut cmp base nel first hole (Function.update a (base + hole) tmp))
    (hhole : hole < nel) :
    Heap cmp base nel first (slide cmp base nel tmp a hole) ∧
      Permutes base (base + nel) (Function.update a (base + hole) tmp)
        (slide cmp base nel tmp a hole) := by
  fun_induction slide cmp base nel tmp a hole with
  | case1 a hole hleft =>
    refine ⟨h.stop fun c hchild hc => ?_, Permutes.refl _ _ _⟩
    unfold Child at hchild
    omega
  | case2 a hole hleft hstop =>
    refine ⟨h.stop fun c hchild hc => ?_, Permutes.refl _ _ _⟩
    rw [Bool.not_eq_true'] at hstop
    have hne : c ≠ hole := by
      unfold Child at hchild
      omega
    rw [Function.update_self, Function.update_of_ne (by omega)]
    exact (largerOf_above hchild hc).trans hstop
  | case3 a hole hleft hstop ih =>
    have hcases := largerOf_cases cmp base nel a hole
    have hchild : Child hole (largerOf cmp base nel a hole) := by
      unfold Child
      omega
    have hc : largerOf cmp base nel a hole < nel := by omega
    have hne : largerOf cmp base nel a hole ≠ hole := by omega
    -- what is moved up leaves its place to what waits
    have hswap : swap (Function.update a (base + hole) tmp) (base + hole)
        (base + largerOf cmp base nel a hole)
        = Function.update (Function.update a (base + hole)
          (a (base + largerOf cmp base nel a hole))) (base + largerOf cmp base nel a hole) tmp := by
      funext k
      unfold swap
      split_ifs with h1 h2
      · subst h1
        rw [Function.update_of_ne (by omega), Function.update_of_ne (by omega),
          Function.update_self]
      · subst h2
        rw [Function.update_self, Function.update_self]
      · rw [Function.update_of_ne h1, Function.update_of_ne h2, Function.update_of_ne h1]
    have hval : ∀ c', Child hole c' →
        Function.update a (base + hole) tmp (base + c') = a (base + c') := fun c' hchild' => by
      unfold Child at hchild'
      exact Function.update_of_ne (by omega) _ _
    have hdown := h.down hfirst hchild hc
      (fun c' hchild' hc' => by
        rw [hval c' hchild', hval _ hchild]
        exact largerOf_above hchild' hc')
      (by
        rw [Function.update_self, hval _ hchild]
        refine atMost_of_lt ?_
        simpa using hstop)
    rw [hswap] at hdown
    obtain ⟨hheap, hperm⟩ := ih (by omega) hdown hc
    refine ⟨hheap, Permutes.trans ?_ hperm⟩
    rw [← hswap]
    exact Permutes.of_swap _ (by omega) (by omega)

theorem siftDown_spec (wide : Bool) (hfirst : first ≤ hole)
    (h : HeapBut cmp base nel first hole a) (hhole : hole < nel) :
    Heap cmp base nel first (siftDown cmp wide base hole nel a) ∧
      Permutes base (base + nel) a (siftDown cmp wide base hole nel a) := by
  unfold siftDown
  split_ifs with hleft
  · refine ⟨h.stop fun c hchild hc => ?_, Permutes.refl _ _ _⟩
    unfold Child at hchild
    omega
  · exact siftSwaps_spec hfirst h hhole
  · have hself : Function.update a (base + hole) (a (base + hole)) = a :=
      Function.update_eq_self _ _
    have hslide := slide_spec (a (base + hole)) hfirst (by rwa [hself]) hhole
    rwa [hself] at hslide

variable (cmp base) in
theorem makeHeap_spec (wide : Bool) (first : ℕ) (hfirst : first ≤ nel / 2) (a : ℕ → α)
    (h : Heap cmp base nel first a) :
    Heap cmp base nel 0 (makeHeap cmp wide base nel first a) ∧
      Permutes base (base + nel) a (makeHeap cmp wide base nel first a) := by
  induction first generalizing a with
  | zero => exact ⟨h, Permutes.refl _ _ _⟩
  | succ i ih =>
    have hbut : HeapBut cmp base nel i i a :=
      ⟨fun p c hp hpi hchild hc => h p c (by omega) hchild hc, fun g c hg hgi => by
        unfold Child at hgi
        omega⟩
    obtain ⟨hheap, hperm⟩ := siftDown_spec wide le_rfl hbut (by omega)
    obtain ⟨hheap', hperm'⟩ := ih (by omega) _ hheap
    exact ⟨hheap', hperm.trans hperm'⟩

theorem Heap.root (h : Heap cmp base nel 0 a) : ∀ c < nel, AtMost cmp (a (base + c)) (a base) := by
  intro c
  induction c using Nat.strong_induction_on with
  | _ c ih =>
    intro hc
    rcases Nat.eq_zero_or_pos c with rfl | hpos
    · exact atMost_refl _
    · have hchild : Child ((c - 1) / 2) c := by
        unfold Child
        omega
      exact (h _ c (Nat.zero_le _) hchild hc).trans (ih _ (by omega) (by omega))

theorem drainHeap_spec (wide : Bool) (base nel : ℕ) : ∀ (len : ℕ) (a : ℕ → α), len ≤ nel →
    Heap cmp base len 0 a → Ordered cmp a (base + len) (base + nel) →
    (∀ i j, i < len → len ≤ j → j < nel → AtMost cmp (a (base + i)) (a (base + j))) →
    Ordered cmp (drainHeap cmp wide base len a) base (base + nel) ∧
      Permutes base (base + nel) a (drainHeap cmp wide base len a) := by
  intro len
  induction len with
  | zero => exact fun a _ _ hord _ => ⟨hord, Permutes.refl _ _ _⟩
  | succ len ih =>
    intro a hlen hheap hord hbelow
    cases len with
    | zero =>
      refine ⟨fun i j hi hij hj => ?_, Permutes.refl _ _ _⟩
      rcases Nat.eq_or_lt_of_le hi with rfl | hlt
      · have h := hbelow 0 (j - base) (by omega) (by omega) (by omega)
        rwa [Nat.add_zero, Nat.add_sub_cancel' (by omega)] at h
      · exact hord i j (by omega) hij hj
    | succ len =>
      let b := swap a base (base + (len + 1))
      have hb : ∀ k, k ≠ 0 → k ≠ len + 1 → b (base + k) = a (base + k) :=
        fun k h1 h2 => swap_other a _ _ (by omega) (by omega)
      have hbut : HeapBut cmp base (len + 1) 0 0 b := by
        refine ⟨fun p c _ hp hchild hc => ?_, fun g c _ hg => by unfold Child at hg; omega⟩
        have hcs := hchild
        unfold Child at hcs
        rw [hb c (by omega) (by omega), hb p hp (by omega)]
        exact hheap p c (Nat.zero_le _) hchild (by omega)
      obtain ⟨hheap', hperm⟩ := siftDown_spec wide le_rfl hbut (by omega)
      have hswap : Permutes base (base + (len + 2)) a b :=
        Permutes.of_swap a (by omega) (by omega)
      have hout : ∀ j, len + 1 ≤ j →
          siftDown cmp wide base 0 (len + 1) b (base + j) = b (base + j) :=
        fun j hj => hperm.outside (by omega)
      -- what is behind is not below the root that was
      have hlast : b (base + (len + 1)) = a base := swap_right a _ _
      have hsmall : ∀ k, base ≤ k → k < base + (len + 2) → AtMost cmp (b k) (a base) :=
        hswap.all (P := fun x => AtMost cmp x (a base)) fun k hk hk' => by
          have h := hheap.root (k - base) (by omega)
          rwa [Nat.add_sub_cancel' hk] at h
      have htail : ∀ j, len + 1 < j → j < nel → AtMost cmp (a base) (b (base + j)) :=
        fun j hj hjn => by
          rw [hb j (by omega) (by omega)]
          exact hbelow 0 j (by omega) (by omega) hjn
      have hbig : ∀ j, len + 1 ≤ j → j < nel → AtMost cmp (a base) (b (base + j)) :=
        fun j hj hjn => by
          rcases Nat.eq_or_lt_of_le hj with rfl | hlt
          · rw [hlast]
            exact atMost_refl _
          · exact htail j hlt hjn
      obtain ⟨hord', hperm'⟩ := ih (siftDown cmp wide base 0 (len + 1) b) (by omega) hheap'
        (fun i j hi hij hj => by
          obtain ⟨i, rfl⟩ := Nat.exists_eq_add_of_le (show base ≤ i by omega)
          obtain ⟨j, rfl⟩ := Nat.exists_eq_add_of_le (show base ≤ j by omega)
          rw [hout i (by omega), hout j (by omega)]
          rcases Nat.eq_or_lt_of_le (show len + 1 ≤ i by omega) with rfl | hlt
          · rw [hlast]
            exact htail j (by omega) (by omega)
          · rw [hb i (by omega) (by omega), hb j (by omega) (by omega)]
            exact hord _ _ (by omega) (by omega) (by omega))
        (fun i j hi hj hjn => by
          rw [hout j hj]
          refine AtMost.trans ?_ (hbig j hj hjn)
          exact hperm.all (P := fun x => AtMost cmp x (a base))
            (fun k hk hk' => hsmall k hk (by omega)) (base + i) (by omega) (by omega))
      exact ⟨hord', (hswap.mono le_rfl (by omega)).trans
        ((hperm.mono le_rfl (by omega)).trans hperm')⟩

variable (cmp) in
theorem heapsortHelper_spec (wide : Bool) (base nel : ℕ) (a : ℕ → α) :
    Ordered cmp (heapsortHelper cmp wide base nel a) base (base + nel) ∧
      Permutes base (base + nel) a (heapsortHelper cmp wide base nel a) := by
  unfold heapsortHelper
  split_ifs with hnel
  · exact ⟨fun i j hi hij hj => by omega, Permutes.refl _ _ _⟩
  · obtain ⟨hheap, hperm⟩ := makeHeap_spec cmp base wide (nel / 2) le_rfl a
      fun p c hp hchild hc => by
        unfold Child at hchild
        omega
    obtain ⟨hord, hperm'⟩ := drainHeap_spec wide base nel nel _ le_rfl hheap
      (fun i j hi hij hj => by omega) fun i j hi hj hjn => by omega
    exact ⟨hord, hperm.trans hperm'⟩

end Sift

/-! ## Insertion -/

section Insertion

variable [IsStrictWeakOrder α (fun x y => cmp x y = true)]

theorem insert_spec (lo i : ℕ) : ∀ (j : ℕ) (a : ℕ → α), j ≤ i → lo ≤ j →
    (∀ x y, lo ≤ x → x < y → y ≤ i → y ≠ j → AtMost cmp (a x) (a y)) →
    Ordered cmp (insert cmp lo j a) lo (i + 1) ∧
      Permutes lo (i + 1) a (insert cmp lo j a) := by
  intro j
  induction j with
  | zero =>
    intro a _ _ hord
    exact ⟨fun x y hx hxy hy => hord x y hx hxy (by omega) (by omega), Permutes.refl _ _ _⟩
  | succ j ih =>
    intro a hji hlo hord
    rw [insert]
    split_ifs with hless
    · have hb : ∀ k, k ≠ j + 1 → k ≠ j → swap a (j + 1) j k = a k :=
        fun k h1 h2 => swap_other a _ _ h1 h2
      obtain ⟨hord', hperm⟩ := ih (swap a (j + 1) j) (by omega) (by omega)
        fun x y hx hxy hy hyj => by
          by_cases hy' : y = j + 1
          · rw [hy', swap_left]
            by_cases hx' : x = j
            · rw [hx', swap_right]
              exact atMost_of_lt hless.2
            · rw [hb x (by omega) hx']
              exact hord x j hx (by omega) (by omega) (by omega)
          · rw [hb y hy' hyj]
            by_cases hx' : x = j + 1
            · rw [hx', swap_left]
              exact hord j y (by omega) (by omega) hy hy'
            · by_cases hx'' : x = j
              · rw [hx'', swap_right]
                exact hord (j + 1) y (by omega) (by omega) hy hy'
              · rw [hb x hx' hx'']
                exact hord x y hx hxy hy hy'
      exact ⟨hord', (Permutes.of_swap a (by omega) (by omega)).trans hperm⟩
    · refine ⟨fun x y hx hxy hy => ?_, Permutes.refl _ _ _⟩
      by_cases hy' : y = j + 1
      · subst hy'
        have hle : AtMost cmp (a j) (a (j + 1)) :=
          atMost_of_not fun hlt => hless ⟨by omega, hlt⟩
        rcases Nat.eq_or_lt_of_le (Nat.lt_succ_iff.mp hxy) with rfl | hlt
        · exact hle
        · exact (hord x j hx hlt (by omega) (by omega)).trans hle
      · exact hord x y hx hxy (by omega) hy'

variable (cmp) in
theorem insertionTail_spec (lo n : ℕ) (a : ℕ → α) :
    Ordered cmp (insertionTail cmp lo n a) lo (lo + n + 1) ∧
      Permutes lo (lo + n + 1) a (insertionTail cmp lo n a) := by
  induction n with
  | zero => exact ⟨fun x y hx hxy hy => by omega, Permutes.refl _ _ _⟩
  | succ n ih =>
    obtain ⟨hord, hperm⟩ := ih
    obtain ⟨hord', hperm'⟩ := insert_spec lo (lo + (n + 1)) (lo + (n + 1))
      (insertionTail cmp lo n a) le_rfl (by omega)
      fun x y hx hxy hy hyj => hord x y hx hxy (by omega)
    exact ⟨hord', (hperm.mono le_rfl (by omega)).trans hperm'⟩

end Insertion

end DaScript.Qsort
