import DaScript.Simulate.StableSortRuns

/-!
# Simulate/StableSortMerge — runs merged, and the whole sort

A merge under way: what has been written, followed by the merge of what is left of either side, is
the merge of the two runs (`Merging`).  One element at a time or a run of them, left or right, is a
step of that merge; ties are the left's.
-/

namespace DaScript.Stable

open Arrays StableSort

variable {α : Type} {cmp : α → α → Bool} {src : ℕ → α} {l m r : ℕ}

/-- What two ranges merge to. -/
def merged (cmp : α → α → Bool) (src : ℕ → α) (i m j r : ℕ) : List α :=
  List.merge (segment src i m) (segment src j r) (before cmp)

/-- **A merge under way.** -/
structure Merging (cmp : α → α → Bool) (src : ℕ → α) (l m r : ℕ) (dst : ℕ → α) (s : Merge α) :
    Prop where
  left : l ≤ s.i ∧ s.i ≤ m
  right : m ≤ s.j ∧ s.j ≤ r
  place : s.k + m = s.i + s.j
  written : segment s.dst l s.k ++ merged cmp src s.i m s.j r = merged cmp src l m m r
  outside : ∀ k, k < l → s.dst k = dst k

section Taking

variable {dst : ℕ → α} {s : Merge α}

theorem merged_left {i j n : ℕ} (hi : i + n ≤ m) (hj : j < r)
    (h : ∀ k, i ≤ k → k < i + n → cmp (src j) (src k) = false) :
    merged cmp src i m j r = segment src i (i + n) ++ merged cmp src (i + n) m j r := by
  induction n generalizing i with
  | zero => rw [Nat.add_zero, segment_self, List.nil_append]
  | succ n ih =>
    have hfirst := h i le_rfl (by omega)
    have hrest := ih (i := i + 1) (by omega) fun k hk hk' => h k (by omega) (by omega)
    rw [show i + 1 + n = i + (n + 1) by omega] at hrest
    rw [segment_cons src (show i < i + (n + 1) by omega), List.cons_append, ← hrest]
    unfold merged
    rw [segment_cons src (show i < m by omega), segment_cons src hj, List.cons_merge_cons,
      if_pos (by rw [before, hfirst]; rfl)]

theorem merged_right {i j n : ℕ} (hj : j + n ≤ r) (hi : i < m)
    (h : ∀ k, j ≤ k → k < j + n → cmp (src k) (src i) = true) :
    merged cmp src i m j r = segment src j (j + n) ++ merged cmp src i m (j + n) r := by
  induction n generalizing j with
  | zero => rw [Nat.add_zero, segment_self, List.nil_append]
  | succ n ih =>
    have hfirst := h j le_rfl (by omega)
    have hrest := ih (j := j + 1) (by omega) fun k hk hk' => h k (by omega) (by omega)
    rw [show j + 1 + n = j + (n + 1) by omega] at hrest
    rw [segment_cons src (show j < j + (n + 1) by omega), List.cons_append, ← hrest]
    unfold merged
    rw [segment_cons src hi, segment_cons src (show j < r by omega), List.cons_merge_cons,
      if_neg (by rw [before, hfirst]; exact Bool.false_ne_true)]

theorem Merging.takeLeft (h : Merging cmp src l m r dst s) {n : ℕ} (hi : s.i + n ≤ m)
    (hj : s.j < r) (hall : ∀ k, s.i ≤ k → k < s.i + n → cmp (src s.j) (src k) = false) :
    Merging cmp src l m r dst (Merge.takeLeft src n s) := by
  have hleft := h.left
  have hright := h.right
  have hplace := h.place
  unfold Merge.takeLeft
  refine ⟨by dsimp only; omega, by dsimp only; omega, by dsimp only; omega, ?_, fun k hk => ?_⟩
  · dsimp only
    rw [segment_copyRange (by omega), List.append_assoc, ← merged_left hi hj hall]
    exact h.written
  · dsimp only [copyRange]
    rw [if_neg (by omega)]
    exact h.outside k hk

theorem Merging.takeRight (h : Merging cmp src l m r dst s) {n : ℕ} (hj : s.j + n ≤ r)
    (hi : s.i < m) (hall : ∀ k, s.j ≤ k → k < s.j + n → cmp (src k) (src s.i) = true) :
    Merging cmp src l m r dst (Merge.takeRight src n s) := by
  have hleft := h.left
  have hright := h.right
  have hplace := h.place
  unfold Merge.takeRight
  refine ⟨by dsimp only; omega, by dsimp only; omega, by dsimp only; omega, ?_, fun k hk => ?_⟩
  · dsimp only
    rw [segment_copyRange (by omega), List.append_assoc, ← merged_right hj hi hall]
    exact h.written
  · dsimp only [copyRange]
    rw [if_neg (by omega)]
    exact h.outside k hk

theorem mergeStep_spec (mode : Mode) (h : Merging cmp src l m r dst s) (hi : s.i < m)
    (hj : s.j < r) :
    ∃ next t, mergeStep cmp src m r mode s = (next, t) ∧ Merging cmp src l m r dst t ∧
      (next = none → m ≤ t.i ∨ r ≤ t.j) := by
  cases mode with
  | one cl cr =>
    unfold mergeStep takeOne
    dsimp only
    by_cases hless : cmp (src s.j) (src s.i) = true
    · rw [if_pos hless]
      have ht := h.takeRight (n := 1) hj hi fun k hk hk' => by
        rwa [show k = s.j by omega]
      by_cases hend : (Merge.takeRight src 1 s).j ≥ r
      · rw [if_pos hend]
        exact ⟨_, _, rfl, ht, fun _ => .inr hend⟩
      · rw [if_neg hend]
        exact ⟨_, _, rfl, ht, nofun⟩
    · rw [if_neg hless]
      have ht := h.takeLeft (n := 1) hi hj fun k hk hk' => by
        rw [show k = s.i by omega]
        exact Bool.eq_false_iff.mpr hless
      by_cases hend : (Merge.takeLeft src 1 s).i ≥ m
      · rw [if_pos hend]
        exact ⟨_, _, rfl, ht, fun _ => .inl hend⟩
      · rw [if_neg hend]
        exact ⟨_, _, rfl, ht, nofun⟩
  | gallop =>
    obtain ⟨hle, hm, hall, hstop⟩ :=
      scanWhile_spec (fun i => !cmp (src s.j) (src i)) m s.i hi.le
    unfold mergeStep gallop
    dsimp only
    generalize scanWhile (fun i => !cmp (src s.j) (src i)) m s.i = i' at hle hm hall hstop ⊢
    have ht1 := h.takeLeft (n := i' - s.i) (by omega) hj fun k hk hk' =>
      (Bool.not_eq_true' _).mp (hall k hk (by omega))
    have hti : (Merge.takeLeft src (i' - s.i) s).i = i' := by
      unfold Merge.takeLeft
      dsimp only
      omega
    have htj : (Merge.takeLeft src (i' - s.i) s).j = s.j := rfl
    generalize Merge.takeLeft src (i' - s.i) s = t1 at ht1 hti htj ⊢
    by_cases hend1 : t1.i ≥ m
    · rw [if_pos hend1]
      exact ⟨_, _, rfl, ht1, fun _ => .inl hend1⟩
    rw [if_neg hend1]
    have hless : cmp (src t1.j) (src t1.i) = true := by
      rw [hti, htj]
      exact (Bool.not_eq_false' _).mp (hstop (by omega))
    have ht2 := ht1.takeRight (n := 1) (by omega) (by omega) fun k hk hk' => by
      rwa [show k = t1.j by omega]
    have hi2 : (Merge.takeRight src 1 t1).i = t1.i := rfl
    generalize Merge.takeRight src 1 t1 = t2 at ht2 hi2 ⊢
    by_cases hend2 : t2.j ≥ r
    · rw [if_pos hend2]
      exact ⟨_, _, rfl, ht2, fun _ => .inr hend2⟩
    rw [if_neg hend2]
    obtain ⟨hle', hr', hall', hstop'⟩ :=
      scanWhile_spec (fun j => cmp (src j) (src t2.i)) r t2.j (by omega)
    generalize scanWhile (fun j => cmp (src j) (src t2.i)) r t2.j = j' at hle' hr' hall' hstop' ⊢
    have ht3 := ht2.takeRight (n := j' - t2.j) (by omega) (by omega)
      fun k hk hk' => hall' k hk (by omega)
    have hj3 : (Merge.takeRight src (j' - t2.j) t2).j = j' := by
      unfold Merge.takeRight
      dsimp only
      omega
    have hi3 : (Merge.takeRight src (j' - t2.j) t2).i = t2.i := rfl
    generalize Merge.takeRight src (j' - t2.j) t2 = t3 at ht3 hj3 hi3 ⊢
    by_cases hend3 : t3.j ≥ r
    · rw [if_pos hend3]
      exact ⟨_, _, rfl, ht3, fun _ => .inr hend3⟩
    rw [if_neg hend3]
    have ht4 := ht3.takeLeft (n := 1) (by omega) (by omega) fun k hk hk' => by
      rw [show k = t3.i by omega, hj3, hi3]
      exact hstop' (by omega)
    generalize Merge.takeLeft src 1 t3 = t4 at ht4 ⊢
    by_cases hend4 : t4.i ≥ m
    · rw [if_pos hend4]
      exact ⟨_, _, rfl, ht4, fun _ => .inl hend4⟩
    · rw [if_neg hend4]
      exact ⟨_, _, rfl, ht4, nofun⟩

variable (cmp src) in
theorem mergeLoop_spec (n : ℕ) : ∀ (mode : Mode) (s : Merge α), s.left m r = n →
    Merging cmp src l m r dst s →
    Merging cmp src l m r dst (mergeLoop cmp src m r mode s) ∧
      (m ≤ (mergeLoop cmp src m r mode s).i ∨ r ≤ (mergeLoop cmp src m r mode s).j) := by
  induction n using Nat.strong_induction_on with
  | _ n ih =>
    intro mode s hn h
    rw [mergeLoop]
    split_ifs with hmore
    · obtain ⟨next, t, hstep, ht, hend⟩ := mergeStep_spec mode h hmore.1 hmore.2
      have hless := mergeStep_left cmp src m r mode hmore.1 hmore.2
      rw [hstep] at hless ⊢
      cases next with
      | none => exact ⟨ht, hend rfl⟩
      | some mode' => exact ih _ (by rw [← hn]; exact hless) mode' t rfl ht
    · exact ⟨h, by omega⟩

end Taking

variable (cmp src) in
theorem mergeRuns_spec (dst : ℕ → α) (hl : l ≤ m) (hr : m ≤ r) :
    segment (mergeRuns cmp src dst l m r) l r = merged cmp src l m m r ∧
      ∀ k, k < l → mergeRuns cmp src dst l m r k = dst k := by
  obtain ⟨h, hend⟩ := mergeLoop_spec cmp src (l := l) (m := m) (r := r)
    _ (.one 0 0) ⟨l, m, l, dst⟩ rfl
    ⟨⟨le_rfl, hl⟩, ⟨le_rfl, hr⟩, rfl, by rw [segment_self, List.nil_append], fun _ _ => rfl⟩
  unfold mergeRuns
  dsimp only
  generalize mergeLoop cmp src m r (.one 0 0) ⟨l, m, l, dst⟩ = s at h hend ⊢
  have hleft := h.left
  have hright := h.right
  have hplace := h.place
  have hwritten := h.written
  unfold merged at hwritten ⊢
  by_cases hi : s.i < m
  · rw [if_pos hi]
    dsimp only
    rw [if_neg (show ¬ s.j < r by omega)]
    rw [show s.j = r by omega, segment_self, List.merge_right] at hwritten
    refine ⟨?_, fun k hk => ?_⟩
    · have hcopy := segment_copyRange (a := s.dst) (b := src) (show l ≤ s.k by omega) s.i (m - s.i)
      rw [show s.k + (m - s.i) = r by omega, show s.i + (m - s.i) = m by omega] at hcopy
      rw [hcopy, hwritten]
    · unfold copyRange
      rw [if_neg (by omega)]
      exact h.outside k hk
  · rw [if_neg hi]
    rw [show s.i = m by omega, segment_self, List.nil_merge] at hwritten
    by_cases hj : s.j < r
    · rw [if_pos hj]
      refine ⟨?_, fun k hk => ?_⟩
      · have hcopy := segment_copyRange (a := s.dst) (b := src) (show l ≤ s.k by omega)
          s.j (r - s.j)
        rw [show s.k + (r - s.j) = r by omega, show s.j + (r - s.j) = r by omega] at hcopy
        rw [hcopy, hwritten]
      · unfold copyRange
        rw [if_neg (by omega)]
        exact h.outside k hk
    · rw [if_neg hj]
      rw [show s.j = r by omega, segment_self, List.append_nil, show s.k = r by omega] at hwritten
      exact ⟨hwritten, h.outside⟩

/-! ## Passes -/

section Passes

theorem segment_ordered {a : ℕ → α} {lo hi : ℕ} :
    (segment a lo hi).Pairwise (AtMost cmp) ↔ Ordered cmp a lo hi := pairwise_segment

variable [IsStrictWeakOrder α (fun x y => cmp x y = true)] {nel cap : ℕ}

theorem mergeRuns_made (dst : ℕ → α) (hl : l ≤ m) (hr : m ≤ r) (hord : Ordered cmp src l m)
    (hord' : Ordered cmp src m r) :
    Ordered cmp (mergeRuns cmp src dst l m r) l r ∧
      SameClasses cmp (segment (mergeRuns cmp src dst l m r) l r) (segment src l r) := by
  have hseg := (mergeRuns_spec cmp src dst hl hr).1
  constructor
  · rw [← segment_ordered, hseg]
    exact merge_sorted (segment_ordered.2 hord) (segment_ordered.2 hord')
  · rw [hseg, segment_append src hl hr]
    exact merge_classes _ _ (segment_ordered.2 hord)

variable (cap) in
theorem mergePass_spec : ∀ (bounds : List ℕ) (first : ℕ) (dst : ℕ → α) (nxt : List ℕ),
    Bounds cmp src first nel bounds → Bounds cmp dst 0 first nxt →
    nxt.length + bounds.length ≤ cap + 1 →
    ∃ dst' nxt', mergePass cmp cap src bounds dst nxt = some (dst', nxt') ∧
      Bounds cmp dst' 0 nel nxt' ∧ 2 * nxt'.length ≤ 2 * nxt.length + bounds.length ∧
      SameClasses cmp (segment dst' first nel) (segment src first nel) ∧
      (∀ k, k < first → dst' k = dst k)
  | [], _, _, _, h, _, _ => nomatch h.head
  | [b], first, dst, nxt, h, hnxt, _ => by
    obtain rfl : b = first := Option.some.inj h.head
    obtain rfl : b = nel := Option.some.inj h.last
    refine ⟨dst, nxt, rfl, hnxt, by omega, ?_, fun _ _ => rfl⟩
    rw [segment_self, segment_self]
    exact SameClasses.refl _
  | [l, m], first, dst, nxt, h, hnxt, hcap => by
    obtain rfl : l = first := Option.some.inj h.head
    obtain rfl : m = nel := Option.some.inj h.last
    obtain ⟨hlm, -, hord⟩ := List.isChain_pair.mp h.chain
    rw [List.length_cons, List.length_singleton] at hcap
    have hcopy := segment_copyRange (a := dst) (b := src) (le_refl l) l (m - l)
    rw [show l + (m - l) = m by omega, segment_self, List.nil_append] at hcopy
    have hout : ∀ k, k < l → copyRange dst l src l (m - l) k = dst k := fun k hk => by
      unfold copyRange
      rw [if_neg (by omega)]
    rw [mergePass, pushBound_eq (by omega)]
    refine ⟨_, _, rfl, hnxt.push hlm ?_ hout, ?_, ?_, hout⟩
    · rw [← segment_ordered, hcopy]
      exact segment_ordered.2 hord
    · rw [List.length_append, List.length_singleton, List.length_cons, List.length_singleton]
      omega
    · rw [hcopy]
      exact SameClasses.refl _
  | l :: m :: r :: bounds, first, dst, nxt, h, hnxt, hcap => by
    obtain rfl : l = first := Option.some.inj h.head
    obtain ⟨⟨hlm, -, hord⟩, hchain⟩ := List.isChain_cons_cons.mp h.chain
    obtain ⟨⟨hmr, hrn, hord'⟩, hchain'⟩ := List.isChain_cons_cons.mp hchain
    have hrest : Bounds cmp src r nel (r :: bounds) := ⟨hchain', rfl, by
      have hlast := h.last
      rwa [List.getLast?_cons_cons, List.getLast?_cons_cons] at hlast⟩
    rw [List.length_cons, List.length_cons, List.length_cons] at hcap
    obtain ⟨hmade, hclass⟩ := mergeRuns_made dst hlm hmr hord hord'
    have hout := (mergeRuns_spec cmp src dst hlm hmr).2
    rw [mergePass, pushBound_eq (by omega)]
    obtain ⟨dst', nxt', hrun, hbounds, hlen, hclass', hout'⟩ := mergePass_spec (r :: bounds) r
      (mergeRuns cmp src dst l m r) (nxt ++ [r]) hrest
      (hnxt.push (hlm.trans hmr) hmade hout)
      (by
        rw [List.length_append, List.length_singleton, List.length_cons]
        omega)
    refine ⟨dst', nxt', hrun, hbounds, ?_, ?_, fun k hk => ?_⟩
    · rw [List.length_append, List.length_singleton, List.length_cons] at hlen
      rw [List.length_cons, List.length_cons, List.length_cons]
      omega
    · have hlr := hlm.trans hmr
      rw [segment_append dst' hlr hrn, segment_append src hlr hrn]
      refine SameClasses.append ?_ hclass'
      rw [segment_congr fun k _ hk => hout' k hk]
      exact hclass
    · rw [hout' k (by omega), hout k hk]

variable (cmp nel cap) in
theorem mergeLevels_spec : ∀ (turns : ℕ) (src dst : ℕ → α) (inData : Bool) (bounds : List ℕ),
    bounds.length < turns → Bounds cmp src 0 nel bounds → 1 + bounds.length ≤ cap + 1 → 0 < nel →
    ∃ src' dst' inData', mergeLevels cmp cap turns src dst inData bounds
        = some (src', dst', inData') ∧ Ordered cmp src' 0 nel ∧
      SameClasses cmp (segment src' 0 nel) (segment src 0 nel) := by
  intro turns
  induction turns with
  | zero => exact fun _ _ _ bounds h => absurd h (Nat.not_lt_zero _)
  | succ turns ih =>
    intro src dst inData bounds hturns h hcap hnel
    rw [mergeLevels]
    split_ifs with hmore
    · obtain ⟨dst', nxt, hpass, hnxt, hlen, hclass, -⟩ := mergePass_spec cap bounds 0 dst
        [0] h ⟨List.isChain_singleton _, rfl, rfl⟩ (by rw [List.length_singleton]; omega)
      rw [List.length_singleton] at hlen
      obtain ⟨src', dst'', inData', hrun, hord, hclass'⟩ := ih dst' src (!inData) nxt (by omega)
        hnxt (by omega) hnel
      rw [hpass]
      exact ⟨src', dst'', inData', hrun, hord, hclass'.trans hclass⟩
    · refine ⟨src, dst, inData, rfl, ?_, SameClasses.refl _⟩
      match bounds, h, hmore with
      | [], h, _ => exact nomatch h.head
      | [b], h, _ =>
        have h0 : b = 0 := Option.some.inj h.head
        have hn : b = nel := Option.some.inj h.last
        omega
      | [l, m], h, _ =>
        obtain rfl : l = 0 := Option.some.inj h.head
        obtain rfl : m = nel := Option.some.inj h.last
        exact (List.isChain_pair.mp h.chain).2.2
      | _ :: _ :: _ :: _, _, hmore =>
        rw [List.length_cons, List.length_cons, List.length_cons] at hmore
        omega

end Passes

/-- **`das_stable_sort_r` is the stable sort**: it comes to its end, no boundary without room, and
leaves the one list that is a permutation, in order, with what is tied as it came. -/
theorem stableSort_sorts [IsStrictWeakOrder α (fun x y => cmp x y = true)] (nel : ℕ)
    (data buf : ℕ → α) :
    ∃ b, stableSort cmp nel data buf = some b ∧
      IsStableSort cmp (segment data 0 nel) (segment b 0 nel) ∧
      ∀ l, IsStableSort cmp (segment data 0 nel) l → l = segment b 0 nel := by
  suffices h : ∃ b, stableSort cmp nel data buf = some b ∧
      IsStableSort cmp (segment data 0 nel) (segment b 0 nel) by
    obtain ⟨b, hrun, hsort⟩ := h
    exact ⟨b, hrun, hsort, fun l hl => hl.unique hsort⟩
  unfold stableSort
  split_ifs with hone
  · exact ⟨data, rfl, isStableSort_of (segment_ordered.2 fun i j hi hij hj => by omega)
      (SameClasses.refl _)⟩
  · obtain ⟨a, bounds, hruns, hbounds, hlen, hclass⟩ := detectRuns_spec cmp
      (nel / minRun + 2 + 1) nel (by omega) (nel + 1) 0 [0] data (by omega)
      (Nat.zero_le _) ⟨List.isChain_singleton _, rfl, rfl⟩ (fun _ => by simp) (by simp)
    obtain ⟨src, dst, inData, hlevels, hord, hclass'⟩ := mergeLevels_spec cmp nel
      (nel / minRun + 2 + 1) (bounds.length + 1) a buf true bounds
      (Nat.lt_succ_self _) hbounds (by omega) (by omega)
    have hsort : IsStableSort cmp (segment data 0 nel) (segment src 0 nel) :=
      isStableSort_of (segment_ordered.2 hord) (hclass'.trans hclass)
    simp only [hruns, hlevels, Option.bind_eq_bind, Option.bind_some]
    cases inData with
    | true => exact ⟨src, rfl, hsort⟩
    | false =>
      refine ⟨copyRange dst 0 src 0 nel, rfl, ?_⟩
      have hcopy := segment_copyRange (a := dst) (b := src) (le_refl 0) 0 nel
      rw [Nat.zero_add, segment_self, List.nil_append] at hcopy
      rwa [hcopy]

theorem stableSort_sorts_pairs :
    ∃ b, stableSort (fun x y : ℕ × ℕ => decide (x.1 < y.1)) 1000 (fun k => (k % 7, k))
        (fun _ => (0, 0)) = some b ∧
      IsStableSort (fun x y => decide (x.1 < y.1)) (segment (fun k => (k % 7, k)) 0 1000)
        (segment b 0 1000) ∧
      ∀ l, IsStableSort (fun x y => decide (x.1 < y.1)) (segment (fun k => (k % 7, k)) 0 1000) l →
        l = segment b 0 1000 :=
  haveI : IsStrictWeakOrder (ℕ × ℕ) (fun x y => decide (x.1 < y.1) = true) :=
    { irrefl := fun x h => Nat.lt_irrefl x.1 (of_decide_eq_true h)
      trans := fun _ _ _ h h' =>
        decide_eq_true ((of_decide_eq_true h).trans (of_decide_eq_true h'))
      incomp_trans := fun x y z h h' => by
        simp only [decide_eq_true_eq] at h h' ⊢
        omega }
  stableSort_sorts 1000 _ _

end DaScript.Stable
