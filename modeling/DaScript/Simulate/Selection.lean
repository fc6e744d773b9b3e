import DaScript.Simulate.QsortRuns

/-!
# Simulate/Selection — the first elements of an order, without the rest

`das_nth_element_r` and `das_partial_sort_r` of `das_qsort_r.h`.  The first narrows a range around
a place: what is before the range is not above it, what is behind it not below (`Narrowed`).  The
second has a heap of the least elements so far, and puts what it displaces behind it.
-/

namespace DaScript.Qsort

open Arrays

variable {α : Type} (cmp : α → α → Bool)

/-- The median of the first, the middle and the last goes behind the first. -/
def medianSecond (a : ℕ → α) (lo hi : ℕ) : ℕ → α :=
  let mid := lo + (hi - lo) / 2
  let a := if cmp (a mid) (a lo) then swap a lo mid else a
  let a := if cmp (a hi) (a lo) then swap a lo hi else a
  let a := if cmp (a hi) (a mid) then swap a mid hi else a
  swap a mid (lo + 1)

/-- The loop of `das_nth_element_r`, with what is left of `depth_limit`. -/
def nthLoop (wide : Bool) (n : ℕ) : ℕ → ℕ → ℕ → (ℕ → α) → ℕ → α
  | 0, lo, hi, a => if lo < hi then heapsortHelper cmp wide lo (hi - lo + 1) a else a
  | depth_limit + 1, lo, hi, a =>
    if lo < hi then
      if hi - lo < 16 then insertionTail cmp lo (hi - lo) a
      else
        match hoarePartition cmp (medianSecond cmp a lo hi) (lo + 1) hi with
        | (a, j) =>
          if j = n then a
          else if j < n then nthLoop wide n depth_limit (j + 1) hi a
          else nthLoop wide n depth_limit lo (if j > 0 then j - 1 else 0) a
    else a

/-- **`das_nth_element_r`** -/
def nthElement (wide : Bool) (nel n : ℕ) (a : ℕ → α) : ℕ → α :=
  if nel ≤ 1 ∨ n ≥ nel then a else nthLoop cmp wide n (maxDepth nel) 0 (nel - 1) a

/-- The scan of `das_partial_sort_r`, with so many elements still to look at. -/
def scanRest (wide : Bool) (nel n : ℕ) : ℕ → (ℕ → α) → ℕ → α
  | 0, a => a
  | left + 1, a =>
    let i := nel - (left + 1)
    scanRest wide nel n left
      (if cmp (a i) (a 0) then siftDown cmp wide 0 0 n (swap a 0 i) else a)

/-- **`das_partial_sort_r`** -/
def partialSort (wide : Bool) (nel n : ℕ) (a : ℕ → α) : ℕ → α :=
  if nel ≤ 1 ∨ n = 0 then a
  else
    let n := if n > nel then nel else n
    drainHeap cmp wide 0 n (scanRest cmp wide nel n (nel - n) (makeHeap cmp wide 0 n (n / 2) a))

/-- **Selected**: the element at `n` is not below any before it, nor above any behind it. -/
structure Selected (nel n : ℕ) (a : ℕ → α) : Prop where
  before : ∀ k < n, AtMost cmp (a k) (a n)
  behind : ∀ k, n < k → k < nel → AtMost cmp (a n) (a k)

/-- **A range that has the place**, all before it not above, all behind it not below. -/
structure Narrowed (nel n lo hi : ℕ) (a : ℕ → α) : Prop where
  inside : lo ≤ n ∧ n ≤ hi ∧ hi < nel
  before : ∀ x y, x < lo → lo ≤ y → y < nel → AtMost cmp (a x) (a y)
  behind : ∀ x y, x ≤ hi → hi < y → y < nel → AtMost cmp (a x) (a y)

section Nth

variable {cmp} {nel n lo hi : ℕ} {a b : ℕ → α}

theorem Narrowed.permute (h : Narrowed cmp nel n lo hi a) (hperm : Permutes lo (hi + 1) a b) :
    Narrowed cmp nel n lo hi b := by
  obtain ⟨hinside, hbefore, hbehind⟩ := h
  refine ⟨hinside, fun x y hx hy hyn => ?_, fun x y hx hy hyn => ?_⟩
  · rw [hperm.outside (.inl hx)]
    by_cases hyh : hi < y
    · rw [hperm.outside (.inr hyh)]
      exact hbefore x y hx hy hyn
    · exact hperm.all (P := fun z => AtMost cmp (a x) z)
        (fun k hk hk' => hbefore x k hx hk (by omega)) y hy (by omega)
  · rw [hperm.outside (.inr hy)]
    by_cases hxl : x < lo
    · rw [hperm.outside (.inl hxl)]
      exact hbehind x y hx hy hyn
    · exact hperm.all (P := fun z => AtMost cmp z (a y))
        (fun k hk hk' => hbehind k y (by omega) hy hyn) x (by omega) (by omega)

theorem Narrowed.selected (h : Narrowed cmp nel n lo hi a)
    (hord : Ordered cmp a lo (hi + 1)) : Selected cmp nel n a := by
  obtain ⟨hinside, hbefore, hbehind⟩ := h
  refine ⟨fun k hk => ?_, fun k hk hkn => ?_⟩
  · by_cases hkl : k < lo
    · exact hbefore k n hkl hinside.1 (by omega)
    · exact hord k n (by omega) hk (by omega)
  · by_cases hkh : hi < k
    · exact hbehind n k hinside.2.1 hkh hkn
    · exact hord n k hinside.1 hk (by omega)

theorem Narrowed.selected_pivot (h : Narrowed cmp nel n lo hi a)
    (hpart : Partitioned cmp lo n hi a) : Selected cmp nel n a := by
  obtain ⟨hinside, hbefore, hbehind⟩ := h
  refine ⟨fun k hk => ?_, fun k hk hkn => ?_⟩
  · by_cases hkl : k < lo
    · exact hbefore k n hkl hinside.1 (by omega)
    · exact hpart.below k (by omega) hk.le
  · by_cases hkh : hi < k
    · exact hbehind n k hinside.2.1 hkh hkn
    · exact hpart.above k hk.le (by omega)

variable [IsStrictWeakOrder α (fun x y => cmp x y = true)]

theorem Narrowed.right {j : ℕ} (h : Narrowed cmp nel n lo hi a) (hpart : Partitioned cmp lo j hi a)
    (hjn : j < n) : Narrowed cmp nel n (j + 1) hi a := by
  have hle := hpart.le
  refine ⟨⟨hjn, h.inside.2⟩, fun x y hx hy hyn => ?_, h.behind⟩
  by_cases hyh : hi < y
  · exact h.behind x y (by omega) hyh hyn
  · by_cases hxl : x < lo
    · exact h.before x y hxl (by omega) hyn
    · exact (hpart.below x (by omega) (by omega)).trans (hpart.above y (by omega) (by omega))

theorem Narrowed.left {j : ℕ} (h : Narrowed cmp nel n lo hi a) (hpart : Partitioned cmp lo j hi a)
    (hnj : n < j) : Narrowed cmp nel n lo (j - 1) a := by
  have hle := hpart.le
  have hinside := h.inside
  refine ⟨⟨h.inside.1, by omega, by omega⟩, h.before, fun x y hx hy hyn => ?_⟩
  by_cases hyh : hi < y
  · exact h.behind x y (by omega) hyh hyn
  · by_cases hxl : x < lo
    · exact h.before x y hxl (by omega) hyn
    · exact (hpart.below x (by omega) (by omega)).trans (hpart.above y (by omega) (by omega))

theorem compareSwap_spec (a : ℕ → α) {i j : ℕ} (hi' : lo ≤ i ∧ i < hi) (hj : lo ≤ j ∧ j < hi)
    (b : ℕ → α) (hb : b = if cmp (a j) (a i) then swap a i j else a) :
    AtMost cmp (b i) (b j) ∧ AtMost cmp (b i) (a i) ∧ (b j = a j ∨ b j = a i) ∧
      (∀ k, k ≠ i → k ≠ j → b k = a k) ∧ Permutes lo hi a b := by
  subst hb
  split_ifs with hless
  · refine ⟨?_, ?_, .inr (swap_right a i j), fun k h1 h2 => swap_other a i j h1 h2,
      Permutes.of_swap a hi' hj⟩
    · rw [swap_left, swap_right]
      exact atMost_of_lt hless
    · rw [swap_left]
      exact atMost_of_lt hless
  · exact ⟨atMost_of_not hless, atMost_refl _, .inl rfl, fun _ _ _ => rfl, Permutes.refl _ _ _⟩

variable (cmp) in
theorem medianSecond_spec (hlo : lo + 16 ≤ hi) (a : ℕ → α) :
    Permutes lo (hi + 1) a (medianSecond cmp a lo hi) ∧
      AtMost cmp (medianSecond cmp a lo hi lo) (medianSecond cmp a lo hi (lo + 1)) := by
  obtain ⟨mid, hmid⟩ : ∃ mid, mid = lo + (hi - lo) / 2 := ⟨_, rfl⟩
  obtain ⟨b, c, d, hmedian, hb, hc, hd⟩ : ∃ b c d, medianSecond cmp a lo hi = swap d mid (lo + 1) ∧
      (b = if cmp (a mid) (a lo) then swap a lo mid else a) ∧
      (c = if cmp (b hi) (b lo) then swap b lo hi else b) ∧
      d = if cmp (c hi) (c mid) then swap c mid hi else c := by
    rw [hmid]
    exact ⟨_, _, _, rfl, rfl, rfl, rfl⟩
  obtain ⟨hab, -, -, -, hperm⟩ := compareSwap_spec a
    (show lo ≤ lo ∧ lo < hi + 1 by omega) (show lo ≤ mid ∧ mid < hi + 1 by omega) b hb
  obtain ⟨hlast, hless, -, hother, hperm'⟩ := compareSwap_spec b
    (show lo ≤ lo ∧ lo < hi + 1 by omega) (show lo ≤ hi ∧ hi < hi + 1 by omega) c hc
  obtain ⟨-, -, -, hother', hperm''⟩ := compareSwap_spec c
    (show lo ≤ mid ∧ mid < hi + 1 by omega) (show lo ≤ hi ∧ hi < hi + 1 by omega) d hd
  have hfirst : AtMost cmp (c lo) (c mid) := by
    rw [hother mid (by omega) (by omega)]
    exact hless.trans hab
  have hmin : AtMost cmp (d lo) (d mid) := by
    rw [hother' lo (by omega) (by omega), hd]
    split_ifs
    · rw [swap_left]
      exact hlast
    · exact hfirst
  rw [hmedian, swap_right, swap_other d _ _ (by omega) (by omega)]
  exact ⟨(hperm.trans hperm').trans (hperm''.trans (Permutes.of_swap d (by omega) (by omega))),
    hmin⟩

variable (cmp) in
theorem nthPartition_spec (hlo : lo + 16 ≤ hi) (a : ℕ → α) :
    ∃ b j, hoarePartition cmp (medianSecond cmp a lo hi) (lo + 1) hi = (b, j) ∧ lo < j ∧
      Partitioned cmp lo j hi b ∧ Permutes lo (hi + 1) a b := by
  obtain ⟨hmedian, hfirst⟩ := medianSecond_spec cmp hlo a
  obtain ⟨c, j, hrun, hj, hperm, hbelow, habove⟩ := hoareLoop_spec cmp (lo + 1) hi _
    (medianSecond cmp a lo hi) (lo + 1 + 1) hi rfl (by omega) (by omega) le_rfl
    (fun k hk hk' => by omega) fun k hk hk' => by omega
  have hpart := partitioned_swap hj hbelow habove
  have hpivot : swap c (lo + 1) j j = medianSecond cmp a lo hi (lo + 1) := by
    rw [swap_right, hperm.outside (.inl (by omega))]
  have hsame : swap c (lo + 1) j lo = medianSecond cmp a lo hi lo := by
    rw [swap_other c _ _ (by omega) (by omega), hperm.outside (.inl (by omega))]
  refine ⟨swap c (lo + 1) j, j, ?_, by omega, ⟨by omega, fun k hk hkj => ?_, hpart.above⟩, ?_⟩
  · rw [hoarePartition, hrun]
  · rcases Nat.eq_or_lt_of_le hk with rfl | hlt
    · rw [hsame, hpivot]
      exact hfirst
    · exact hpart.below k hlt hkj
  · exact (hmedian.trans (hperm.mono (by omega) le_rfl)).trans
      (Permutes.of_swap c (by omega) (by omega))

variable (cmp) in
theorem nthLoop_spec (wide : Bool) : ∀ (depth_limit lo hi : ℕ) (a : ℕ → α),
    Narrowed cmp nel n lo hi a →
    Selected cmp nel n (nthLoop cmp wide n depth_limit lo hi a) ∧
      Permutes lo (hi + 1) a (nthLoop cmp wide n depth_limit lo hi a) := by
  intro depth_limit
  induction depth_limit with
  | zero =>
    intro lo hi a h
    rw [nthLoop]
    split_ifs with hlt
    · obtain ⟨hord, hperm⟩ := heapsortHelper_spec cmp wide lo (hi - lo + 1) a
      rw [show lo + (hi - lo + 1) = hi + 1 by omega] at hord hperm
      exact ⟨(h.permute hperm).selected hord, hperm⟩
    · exact ⟨h.selected fun x y _ _ _ => by omega, Permutes.refl _ _ _⟩
  | succ depth_limit ih =>
    intro lo hi a h
    rw [nthLoop]
    split_ifs with hlt hshort
    · obtain ⟨hord, hperm⟩ := insertionTail_spec cmp lo (hi - lo) a
      rw [show lo + (hi - lo) = hi by omega] at hord hperm
      exact ⟨(h.permute hperm).selected hord, hperm⟩
    · obtain ⟨b, j, hrun, hlj, hpart, hperm⟩ := nthPartition_spec cmp (by omega : lo + 16 ≤ hi) a
      have hnarrow := h.permute hperm
      have hjhi := hpart.le.2
      rw [hrun]
      dsimp only
      split_ifs with hjn hless hpos
      · subst hjn
        exact ⟨hnarrow.selected_pivot hpart, hperm⟩
      · obtain ⟨hsel, hperm'⟩ := ih (j + 1) hi b (hnarrow.right hpart hless)
        exact ⟨hsel, hperm.trans (hperm'.mono (by omega) le_rfl)⟩
      · obtain ⟨hsel, hperm'⟩ := ih lo (j - 1) b (hnarrow.left hpart (by omega))
        exact ⟨hsel, hperm.trans (hperm'.mono le_rfl (by omega))⟩
      · omega
    · exact ⟨h.selected fun x y _ _ _ => by omega, Permutes.refl _ _ _⟩

end Nth

/-! ## The heap of the least -/

section Partial

variable {cmp} [IsStrictWeakOrder α (fun x y => cmp x y = true)] {nel n : ℕ}

variable (cmp) in
theorem scanRest_spec (wide : Bool) (hn : 0 < n) (hnel : n ≤ nel) : ∀ (left : ℕ) (a : ℕ → α),
    left ≤ nel - n → Heap cmp 0 n 0 a →
    (∀ i j, i < n → n ≤ j → j < nel - left → AtMost cmp (a i) (a j)) →
    Heap cmp 0 n 0 (scanRest cmp wide nel n left a) ∧
      (∀ i j, i < n → n ≤ j → j < nel →
        AtMost cmp (scanRest cmp wide nel n left a i) (scanRest cmp wide nel n left a j)) ∧
      Permutes 0 nel a (scanRest cmp wide nel n left a) := by
  intro left
  induction left with
  | zero => exact fun a _ hheap hbelow => ⟨hheap, hbelow, Permutes.refl _ _ _⟩
  | succ left ih =>
    intro a hleft hheap hbelow
    obtain ⟨i, hi⟩ : ∃ i, i = nel - (left + 1) := ⟨_, rfl⟩
    have hroot : ∀ k < n, AtMost cmp (a k) (a 0) := fun k hk => by
      have h := hheap.root k hk
      rwa [Nat.zero_add] at h
    rw [scanRest, ← hi]
    split_ifs with hless
    · have hb : ∀ k, k ≠ 0 → k ≠ i → swap a 0 i k = a k := fun k h1 h2 => swap_other a 0 i h1 h2
      have hbut : HeapBut cmp 0 n 0 0 (swap a 0 i) := by
        refine ⟨fun p c _ hp hchild hc => ?_, fun g c _ hg => by unfold Child at hg; omega⟩
        have hcs := hchild
        unfold Child at hcs
        rw [hb (0 + c) (by omega) (by omega), hb (0 + p) (by omega) (by omega)]
        exact hheap p c (Nat.zero_le _) hchild hc
      obtain ⟨hheap', hperm⟩ := siftDown_spec wide le_rfl hbut hn
      rw [Nat.zero_add] at hperm
      have hswap : Permutes 0 nel a (swap a 0 i) := Permutes.of_swap a (by omega) (by omega)
      -- none in the heap is above what it displaces, nor above what it displaced before
      have hdisplaced : ∀ k j, k < n → n ≤ j → j < nel - left →
          AtMost cmp (swap a 0 i k) (swap a 0 i j) := fun k j hk hj hjl => by
        have hnew : AtMost cmp (swap a 0 i k) (a 0) := by
          by_cases hk0 : k = 0
          · rw [hk0, swap_left]
            exact atMost_of_lt hless
          · rw [hb k hk0 (by omega)]
            exact hroot k hk
        by_cases hji : j = i
        · rwa [hji, swap_right]
        · rw [hb j (by omega) hji]
          exact hnew.trans (hbelow 0 j hn hj (by omega))
      obtain ⟨hheap'', hbelow'', hperm''⟩ := ih _ (by omega) hheap' fun k j hk hj hjl => by
        rw [hperm.outside (.inr hj)]
        exact hperm.all (P := fun x => AtMost cmp x (swap a 0 i j))
          (fun k' _ hk' => hdisplaced k' j hk' hj hjl) k (Nat.zero_le _) hk
      exact ⟨hheap'', hbelow'', (hswap.trans (hperm.mono le_rfl hnel)).trans hperm''⟩
    · refine ih a (by omega) hheap fun k j hk hj hjl => ?_
      by_cases hji : j = i
      · rw [hji]
        exact (hroot k hk).trans (atMost_of_not hless)
      · exact hbelow k j hk hj (by omega)

variable (cmp) in
theorem partialSort_spec (wide : Bool) (nel n : ℕ) (a : ℕ → α) :
    Ordered cmp (partialSort cmp wide nel n a) 0 (min n nel) ∧
      (∀ i j, i < min n nel → min n nel ≤ j → j < nel →
        AtMost cmp (partialSort cmp wide nel n a i) (partialSort cmp wide nel n a j)) ∧
      Permutes 0 nel a (partialSort cmp wide nel n a) := by
  have hmin : (if n > nel then nel else n) = min n nel := by
    split_ifs <;> omega
  have hm : min n nel ≤ nel := min_le_right _ _
  unfold partialSort
  rw [hmin]
  split_ifs with hnone
  · exact ⟨fun i j _ hij hj => by omega, fun i j hi hj hjn => by omega, Permutes.refl _ _ _⟩
  · have hpos : 0 < min n nel := by omega
    dsimp only
    generalize min n nel = m at hpos hm ⊢
    obtain ⟨hheap, hperm⟩ := makeHeap_spec cmp 0 wide (m / 2) (le_refl (m / 2)) a
      fun p c hp hchild hc => by
        unfold Child at hchild
        omega
    obtain ⟨hheap', hbelow, hperm'⟩ := scanRest_spec cmp wide hpos hm (nel - m) _ le_rfl hheap
      fun i j hi hj hjn => by omega
    obtain ⟨hord, hperm''⟩ := drainHeap_spec wide 0 m m _ le_rfl hheap'
      (fun i j hi hij hj => by omega) fun i j hi hj hjm => by omega
    rw [Nat.zero_add] at hord hperm hperm''
    refine ⟨hord, fun i j hi hj hjn => ?_, (hperm.mono le_rfl hm).trans
      (hperm'.trans (hperm''.mono le_rfl hm))⟩
    rw [hperm''.outside (.inr hj)]
    exact hperm''.all (P := fun x => AtMost cmp x _)
      (fun k _ hk => hbelow k j hk hj hjn) i (Nat.zero_le _) hi

end Partial

/-! ## What a full sort would put there -/

section Sorted

variable {cmp} [IsStrictWeakOrder α (fun x y => cmp x y = true)] {nel n : ℕ} {a b : ℕ → α}

theorem countP_range_le {p : ℕ → Bool} : ∀ nel, (∀ k < nel, p k = true → k < n) →
    (List.range nel).countP p ≤ n
  | 0, _ => Nat.zero_le _
  | nel + 1, h => by
    rw [List.range_succ, List.countP_append, List.countP_singleton]
    split_ifs with hp
    · have hlen : (List.range nel).countP p ≤ (List.range nel).length := List.countP_le_length
      have hlt := h nel (by omega) hp
      rw [List.length_range] at hlen
      omega
    · exact countP_range_le nel fun k hk => h k (by omega)

theorem le_countP_range {p : ℕ → Bool} (h : ∀ k < n, p k = true) : ∀ nel, n ≤ nel →
    n ≤ (List.range nel).countP p
  | 0, hn => hn.trans (Nat.zero_le _)
  | nel + 1, hn => by
    rw [List.range_succ, List.countP_append, List.countP_singleton]
    rcases Nat.eq_or_lt_of_le hn with rfl | hlt
    · rw [if_pos (h nel (by omega))]
      refine Nat.add_le_add_right ?_ 1
      rw [(List.countP_eq_length).mpr fun k hk => h k (by have := List.mem_range.mp hk; omega),
        List.length_range]
    · exact (le_countP_range h nel (by omega)).trans (Nat.le_add_right _ _)

theorem false_of_count {p : α → Bool} (hn : n < nel) (hpa : ∀ k < n + 1, p (a k) = true)
    (hpb : ∀ k < nel, p (b k) = true → k < n)
    (hperm : ((List.range nel).map a).Perm ((List.range nel).map b)) : False := by
  have h := hperm.countP_eq p
  rw [List.countP_map, List.countP_map] at h
  have hmany := le_countP_range (p := p ∘ a) hpa nel hn
  have hfew := countP_range_le (p := p ∘ b) nel hpb
  omega

theorem Selected.equivalent (h : Selected cmp nel n a) (hn : n < nel) (hord : Ordered cmp b 0 nel)
    (hperm : ((List.range nel).map a).Perm ((List.range nel).map b)) :
    AtMost cmp (a n) (b n) ∧ AtMost cmp (b n) (a n) := by
  have hupto : ∀ k < n + 1, AtMost cmp (a k) (a n) ∧ AtMost cmp (b k) (b n) := fun k hk => by
    rcases Nat.eq_or_lt_of_le (Nat.lt_succ_iff.mp hk) with rfl | hlt
    · exact ⟨atMost_refl _, atMost_refl _⟩
    · exact ⟨h.before k hlt, hord k n (Nat.zero_le _) hlt hn⟩
  have hfrom : ∀ k, n ≤ k → k < nel → AtMost cmp (a n) (a k) ∧ AtMost cmp (b n) (b k) :=
    fun k hk hkn => by
      rcases Nat.eq_or_lt_of_le hk with rfl | hlt
      · exact ⟨atMost_refl _, atMost_refl _⟩
      · exact ⟨h.behind k hlt hkn, hord n k (Nat.zero_le _) hlt hkn⟩
  refine ⟨atMost_of_not fun hlt => ?_, atMost_of_not fun hlt => ?_⟩
  · -- all up to `b n` are below `a n`, and only what is before `a n` is
    refine false_of_count (p := fun x => cmp x (a n)) hn
      (fun k hk => lt_of_atMost_of_lt (hupto k hk).2 hlt) (fun k hkn hk => ?_) hperm.symm
    by_contra hge
    rw [(hfrom k (by omega) hkn).1] at hk
    cases hk
  · -- all up to `a n` are not above it, and only what is before `b n` is not
    refine false_of_count (p := fun x => !cmp (a n) x) hn
      (fun k hk => by rw [(hupto k hk).1]; rfl) (fun k hkn hk => ?_) hperm
    by_contra hge
    rw [lt_of_lt_of_atMost hlt (hfrom k (by omega) hkn).2] at hk
    cases hk

variable (cmp) in
theorem nthElement_spec (wide : Bool) (hn : n < nel) (a : ℕ → α) :
    Selected cmp nel n (nthElement cmp wide nel n a) ∧
      Permutes 0 nel a (nthElement cmp wide nel n a) := by
  unfold nthElement
  split_ifs with hnone
  · exact ⟨⟨fun k hk => by omega, fun k hk hkn => by omega⟩, Permutes.refl _ _ _⟩
  · have hnarrowed : Narrowed cmp nel n 0 (nel - 1) a :=
      ⟨by omega, fun x y hx => by omega, fun x y hx hy hyn => by omega⟩
    obtain ⟨hsel, hperm⟩ := nthLoop_spec cmp wide (maxDepth nel) 0 (nel - 1) a hnarrowed
    rw [show nel - 1 + 1 = nel by omega] at hperm
    exact ⟨hsel, hperm⟩

variable (cmp) in
/-- **Selection is correct.**  `das_nth_element_r` puts at `n` what a full sort would, nothing
before it greater and nothing behind it less; `das_partial_sort_r` puts the least elements in front,
in order; both permute the array. -/
theorem selection_correct (wide : Bool) (nel n : ℕ) (a : ℕ → α) :
    (n < nel → Selected cmp nel n (nthElement cmp wide nel n a) ∧
      ((List.range nel).map (nthElement cmp wide nel n a)).Perm ((List.range nel).map a) ∧
      ∀ b, ((List.range nel).map b).Perm ((List.range nel).map a) → Ordered cmp b 0 nel →
        AtMost cmp (nthElement cmp wide nel n a n) (b n) ∧
          AtMost cmp (b n) (nthElement cmp wide nel n a n)) ∧
    Ordered cmp (partialSort cmp wide nel n a) 0 (min n nel) ∧
      (∀ i j, i < min n nel → min n nel ≤ j → j < nel →
        AtMost cmp (partialSort cmp wide nel n a i) (partialSort cmp wide nel n a j)) ∧
      ((List.range nel).map (partialSort cmp wide nel n a)).Perm ((List.range nel).map a) := by
  obtain ⟨hord, hleast, hperm⟩ := partialSort_spec cmp wide nel n a
  refine ⟨fun hn => ?_, hord, hleast, hperm.perm⟩
  obtain ⟨hsel, hnth⟩ := nthElement_spec cmp wide hn a
  exact ⟨hsel, hnth.perm, fun b hb hbord => hsel.equivalent hn hbord (hnth.perm.trans hb.symm)⟩

end Sorted

theorem selection_correct_down :
    Selected (fun x y => decide (x < y)) 100 10
        (nthElement (fun x y => decide (x < y)) false 100 10 (100 - ·)) ∧
      Ordered (fun x y => decide (x < y))
        (partialSort (fun x y => decide (x < y)) false 100 10 (100 - ·)) 0 10 :=
  have h := selection_correct (fun x y : ℕ => decide (x < y)) false 100 10 (100 - ·)
  ⟨(h.1 (by decide)).1, h.2.1⟩

end DaScript.Qsort
