import DaScript.Simulate.QsortHeap
import DaScript.Simulate.StableSort

/-!
# Simulate/StableSortRuns — the runs of an array

What finding runs does to the array keeps classes: it turns round what goes down strictly, and
moves elements down past greater ones.  All runs but the last have `minRun` elements, so that the
boundaries have room.
-/

namespace DaScript.Stable

open Arrays StableSort

variable {α : Type} {cmp : α → α → Bool}

/-! ## Insertion -/

section Insertion

theorem hold_eq (lo : ℕ) (tmp : α) (j : ℕ) (a : ℕ → α) :
    hold cmp lo tmp (j + 1) a
      = Qsort.insert cmp lo j (swap (Function.update a (j + 1) tmp) (j + 1) j) := by
  have hswap : ∀ (j : ℕ) (a : ℕ → α), swap (Function.update a (j + 1) tmp) (j + 1) j
      = Function.update (Function.update a (j + 1) (a j)) j tmp := fun j a => by
    funext k
    unfold swap
    split_ifs with h1 h2
    · rw [h1, Function.update_of_ne (by omega), Function.update_of_ne (by omega),
        Function.update_self]
    · rw [h2, Function.update_self, Function.update_self]
    · rw [Function.update_of_ne h1, Function.update_of_ne h2, Function.update_of_ne h1]
  induction j generalizing a with
  | zero =>
    rw [hold, hswap]
    rw [if_neg (fun h => Nat.not_lt_zero _ h.1)]
    rfl
  | succ j ih =>
    have hbefore : Function.update (Function.update a (j + 1 + 1) (a (j + 1))) (j + 1) tmp j
        = a j := by
      rw [Function.update_of_ne (by omega), Function.update_of_ne (by omega)]
    rw [hold, hswap, Qsort.insert, Function.update_self, hbefore, Nat.add_sub_cancel,
      Function.update_of_ne (by omega)]
    split_ifs
    · exact ih _
    · rfl

theorem insertionRun_eq (lo n : ℕ) (a : ℕ → α) :
    insertionRun cmp lo n a = Qsort.insertionTail cmp lo n a := by
  induction n with
  | zero => rfl
  | succ n ih =>
    have hinsert : ∀ b : ℕ → α, Qsort.insert cmp lo (lo + (n + 1)) b
        = if cmp (b (lo + (n + 1))) (b (lo + n)) then
          Qsort.insert cmp lo (lo + n) (swap b (lo + (n + 1)) (lo + n)) else b := fun b => by
      rw [← Nat.add_assoc, Qsort.insert]
      simp only [show lo < lo + n + 1 by omega, true_and]
    rw [insertionRun, Qsort.insertionTail, ih, hinsert]
    split_ifs
    · rw [← Nat.add_assoc, hold_eq, Function.update_eq_self]
    · rfl

variable [IsStrictWeakOrder α (fun x y => cmp x y = true)]

theorem swap_classes {a : ℕ → α} {lo hi j : ℕ} (hlo : lo ≤ j) (hhi : j + 1 < hi)
    (hless : cmp (a (j + 1)) (a j) = true) :
    SameClasses cmp (segment (swap a (j + 1) j) lo hi) (segment a lo hi) := by
  have hsplit : ∀ b : ℕ → α,
      segment b lo hi = segment b lo j ++ ([b j, b (j + 1)] ++ segment b (j + 2) hi) := fun b => by
    rw [segment_append b hlo (show j ≤ hi by omega), segment_cons b (show j < hi by omega),
      segment_cons b hhi]
    rfl
  have hout : ∀ k, k ≠ j + 1 → k ≠ j → swap a (j + 1) j k = a k := fun k h1 h2 =>
    swap_other a _ _ h1 h2
  have hfalse : tied cmp (a (j + 1)) (a j) = false := by
    rw [tied, hless]
    rfl
  rw [hsplit, hsplit a, swap_left, swap_right,
    segment_congr (a := swap a (j + 1) j) (b := a) fun k _ hk => hout k (by omega) (by omega),
    segment_congr (a := swap a (j + 1) j) (b := a) fun k hk _ => hout k (by omega) (by omega)]
  exact (SameClasses.refl _).append ((sameClasses_pair hfalse).append (SameClasses.refl _))

theorem insert_classes {lo hi : ℕ} : ∀ (j : ℕ) (a : ℕ → α), j < hi →
    SameClasses cmp (segment (Qsort.insert cmp lo j a) lo hi) (segment a lo hi)
  | 0, a, _ => SameClasses.refl _
  | j + 1, a, hj => by
    rw [Qsort.insert]
    split_ifs with hless
    · exact (insert_classes j _ (by omega)).trans (swap_classes (by omega) hj hless.2)
    · exact SameClasses.refl _

variable (cmp) in
theorem insertionRun_classes (lo n : ℕ) (a : ℕ → α) :
    SameClasses cmp (segment (insertionRun cmp lo n a) lo (lo + n + 1))
      (segment a lo (lo + n + 1)) := by
  rw [insertionRun_eq]
  suffices h : ∀ hi, lo + n < hi →
      SameClasses cmp (segment (Qsort.insertionTail cmp lo n a) lo hi) (segment a lo hi) from
    h _ (Nat.lt_succ_self _)
  induction n with
  | zero => exact fun _ _ => SameClasses.refl _
  | succ n ih =>
    exact fun hi hn => (insert_classes _ _ hn).trans (ih hi (by omega))

end Insertion

/-! ## A run -/

section Run

theorem scanWhile_spec (p : ℕ → Bool) (nel j : ℕ) (hj : j ≤ nel) :
    j ≤ scanWhile p nel j ∧ scanWhile p nel j ≤ nel ∧
      (∀ k, j ≤ k → k < scanWhile p nel j → p k = true) ∧
      (scanWhile p nel j < nel → p (scanWhile p nel j) = false) := by
  fun_induction scanWhile p nel j with
  | case1 j h ih =>
    obtain ⟨hle, hnel, hall, hstop⟩ := ih (by omega)
    refine ⟨by omega, hnel, fun k hk hk' => ?_, hstop⟩
    rcases Nat.eq_or_lt_of_le hk with rfl | hlt
    · exact h.2
    · exact hall k hlt hk'
  | case2 j h =>
    exact ⟨le_rfl, hj, fun k hk hk' => by omega, fun hlt =>
      Bool.eq_false_iff.mpr fun hp => h ⟨hlt, hp⟩⟩

theorem reverseRun_apply (a : ℕ → α) (lo hi k : ℕ) :
    reverseRun a lo hi k = if lo ≤ k ∧ k ≤ hi then a (lo + hi - k) else a k := by
  fun_induction reverseRun a lo hi with
  | case1 a lo hi h ih =>
    rw [ih]
    by_cases hin : lo + 1 ≤ k ∧ k ≤ hi - 1
    · rw [if_pos hin, if_pos (by omega), swap_other a _ _ (by omega) (by omega)]
      congr 1
      omega
    · rw [if_neg hin]
      by_cases hlo : k = lo
      · rw [if_pos (by omega), hlo, swap_left]
        congr 1
        omega
      · by_cases hhi : k = hi
        · rw [if_pos (by omega), hhi, swap_right]
          congr 1
          omega
        · rw [if_neg (by omega), swap_other a _ _ hlo hhi]
  | case2 a lo hi h =>
    split_ifs with hin
    · congr 1
      omega
    · rfl

theorem segment_reverseRun (a : ℕ → α) {lo hi : ℕ} (h : lo ≤ hi) :
    segment (reverseRun a lo hi) lo (hi + 1) = (segment a lo (hi + 1)).reverse := by
  unfold Arrays.segment
  refine List.ext_getElem (by simp) fun k hk hk' => ?_
  rw [List.length_map, List.length_range'] at hk
  rw [List.getElem_map, List.getElem_range', List.getElem_reverse, List.getElem_map,
    List.getElem_range', reverseRun_apply, if_pos (by omega)]
  congr 1
  simp only [List.length_map, List.length_range']
  omega

theorem pairs_of_steps {R : α → α → Prop} (htrans : ∀ x y z, R x y → R y z → R x z) {a : ℕ → α}
    {lo hi : ℕ} (h : ∀ k, lo < k → k < hi → R (a (k - 1)) (a k)) :
    ∀ i j, lo ≤ i → i < j → j < hi → R (a i) (a j) := by
  intro i j hi' hij
  induction j with
  | zero => omega
  | succ j ih =>
    intro hj
    have hstep := h (j + 1) (by omega) hj
    rw [Nat.add_sub_cancel] at hstep
    rcases Nat.eq_or_lt_of_le (Nat.lt_succ_iff.mp hij) with rfl | hlt
    · exact hstep
    · exact htrans _ _ _ (ih hlt (by omega)) hstep

/-- **A run put in order in its place.** -/
structure RunMade (cmp : α → α → Bool) (a b : ℕ → α) (i j : ℕ) : Prop where
  ordered : Ordered cmp b i j
  classes : SameClasses cmp (segment b i j) (segment a i j)
  outside : ∀ k, k < i ∨ j ≤ k → b k = a k

variable [IsStrictWeakOrder α (fun x y => cmp x y = true)] {nel i : ℕ}

variable (cmp) in
theorem naturalRun_spec (a : ℕ → α) (hi : i < nel) :
    ∃ b j, naturalRun cmp nel a i = (b, j) ∧ i < j ∧ j ≤ nel ∧ RunMade cmp a b i j := by
  unfold naturalRun
  split_ifs with hmore hdown
  · obtain ⟨hle, hnel, hall, -⟩ :=
      scanWhile_spec (fun j => cmp (a j) (a (j - 1))) nel (i + 2) (by omega)
    dsimp only
    generalize scanWhile (fun j => cmp (a j) (a (j - 1))) nel (i + 2) = j at hle hnel hall ⊢
    have hstrict : ∀ x y, i ≤ x → x < y → y < j → cmp (a y) (a x) = true := by
      refine pairs_of_steps (R := fun u v => cmp v u = true)
        (fun x y z h h' => trans_of (fun x y => cmp x y = true) h' h) fun k hk hk' => ?_
      rcases Nat.eq_or_lt_of_le (show i + 1 ≤ k by omega) with rfl | hlt
      · exact hdown
      · exact hall k hlt hk'
    have hsegment : segment (reverseRun a i (j - 1)) i j = (segment a i j).reverse := by
      have h := segment_reverseRun a (show i ≤ j - 1 by omega)
      rwa [show j - 1 + 1 = j by omega] at h
    refine ⟨_, _, rfl, by omega, hnel, ⟨fun x y hx hxy hy => ?_, ?_, fun k hk => ?_⟩⟩
    · rw [reverseRun_apply, reverseRun_apply, if_pos (by omega), if_pos (by omega)]
      exact atMost_of_lt (hstrict _ _ (by omega) (by omega) (by omega))
    · rw [hsegment]
      exact sameClasses_reverse (pairwise_segment.mpr hstrict)
    · rw [reverseRun_apply, if_neg (by omega)]
  · obtain ⟨hle, hnel, hall, -⟩ :=
      scanWhile_spec (fun j => !cmp (a j) (a (j - 1))) nel (i + 2) (by omega)
    generalize scanWhile (fun j => !cmp (a j) (a (j - 1))) nel (i + 2) = j at hle hnel hall ⊢
    refine ⟨a, j, rfl, by omega, hnel, ⟨?_, SameClasses.refl _, fun _ _ => rfl⟩⟩
    refine pairs_of_steps (R := AtMost cmp) (fun x y z h h' => h.trans h') fun k hk hk' => ?_
    rcases Nat.eq_or_lt_of_le (show i + 1 ≤ k by omega) with rfl | hlt
    · exact atMost_of_not hdown
    · exact (Bool.not_eq_true' _).mp (hall k hlt hk')
  · exact ⟨a, i + 1, rfl, by omega, by omega,
      ⟨fun x y hx hxy hy => by omega, SameClasses.refl _, fun _ _ => rfl⟩⟩

variable (cmp) in
theorem nextRun_spec (a : ℕ → α) (hi : i < nel) :
    ∃ b j, nextRun cmp nel a i = (b, j) ∧ i < j ∧ j ≤ nel ∧ (j < nel → i + minRun ≤ j) ∧
      RunMade cmp a b i j := by
  obtain ⟨b, j, hrun, hij, hj, hmade⟩ := naturalRun_spec cmp a hi
  unfold nextRun
  rw [hrun]
  dsimp only
  have hmin : minRun = 32 := rfl
  have hextend : ∀ hi', j ≤ hi' → RunMade cmp a (insertionRun cmp i (hi' - i - 1) b) i hi' :=
    fun hi' hle => by
      obtain ⟨hord, hperm⟩ := Qsort.insertionTail_spec cmp i (hi' - i - 1) b
      have hclass := insertionRun_classes cmp i (hi' - i - 1) b
      rw [← insertionRun_eq] at hord hperm
      rw [show i + (hi' - i - 1) + 1 = hi' by omega] at hord hperm hclass
      refine ⟨hord, hclass.trans ?_, fun k hk => ?_⟩
      · rw [segment_append b hij.le hle, segment_append a hij.le hle]
        exact hmade.classes.append (by
          rw [segment_congr fun k hk _ => hmade.outside k (.inr hk)]
          exact SameClasses.refl _)
      · rw [hperm.outside hk, hmade.outside k (by omega)]
  split_ifs with hshort hroom
  · exact ⟨_, _, rfl, by omega, by omega, fun _ => le_rfl, hextend _ (by omega)⟩
  · exact ⟨_, _, rfl, by omega, le_rfl, fun h => absurd h (Nat.lt_irrefl _), hextend _ hj⟩
  · exact ⟨b, j, rfl, hij, hj, fun _ => by omega, hmade⟩

end Run

/-! ## All runs -/

/-- A range in order, up to some place. -/
def InOrder (cmp : α → α → Bool) (a : ℕ → α) (top l r : ℕ) : Prop :=
  l ≤ r ∧ r ≤ top ∧ Ordered cmp a l r

/-- **The boundaries of runs**, from the front to some place. -/
structure Bounds (cmp : α → α → Bool) (a : ℕ → α) (first top : ℕ) (bounds : List ℕ) : Prop where
  chain : bounds.IsChain (InOrder cmp a top)
  head : bounds.head? = some first
  last : bounds.getLast? = some top

theorem Bounds.push {a b : ℕ → α} {first i j : ℕ} {bounds : List ℕ}
    (h : Bounds cmp a first i bounds) (hij : i ≤ j) (hord : Ordered cmp b i j)
    (hsame : ∀ k, k < i → b k = a k) : Bounds cmp b first j (bounds ++ [j]) := by
  refine ⟨?_, ?_, List.getLast?_concat⟩
  · refine List.isChain_append.mpr ⟨h.chain.imp fun l r hlr => ?_, List.isChain_singleton _,
      fun x hx y hy => ?_⟩
    · refine ⟨hlr.1, hlr.2.1.trans hij, fun x y hx hxy hy => ?_⟩
      have hr := hlr.2.1
      rw [hsame x (by omega), hsame y (by omega)]
      exact hlr.2.2 x y hx hxy hy
    · rw [h.last, Option.mem_some_iff] at hx
      rw [List.head?_singleton, Option.mem_some_iff] at hy
      subst hx hy
      exact ⟨hij, le_rfl, hord⟩
  · rw [List.head?_append, h.head]
    rfl

theorem pushBound_eq {cap j : ℕ} {bounds : List ℕ} (h : bounds.length < cap) :
    pushBound cap bounds j = some (bounds ++ [j]) := if_pos h

variable (cmp) in
theorem detectRuns_spec [IsStrictWeakOrder α (fun x y => cmp x y = true)] (cap nel : ℕ)
    (hcap : nel / minRun + 2 ≤ cap) : ∀ (turns i : ℕ) (bounds : List ℕ) (a : ℕ → α),
    nel < turns + i → i ≤ nel → Bounds cmp a 0 i bounds →
    (i < nel → minRun * (bounds.length - 1) ≤ i) → bounds.length ≤ nel / minRun + 2 →
    ∃ b bounds', detectRuns cmp cap nel turns i bounds a = some (b, bounds') ∧
      Bounds cmp b 0 nel bounds' ∧ bounds'.length ≤ nel / minRun + 2 ∧
      SameClasses cmp (segment b 0 nel) (segment a 0 nel) := by
  intro turns
  have hmin : minRun = 32 := rfl
  induction turns with
  | zero => exact fun i bounds a h hi => by omega
  | succ turns ih =>
    intro i bounds a hturns hi hbounds hlong hlen
    rw [detectRuns]
    split_ifs with hmore
    · obtain ⟨b, j, hrun, hij, hj, hsize, hmade⟩ := nextRun_spec cmp a hmore
      have hroom : bounds.length ≤ nel / minRun + 1 := by
        have h := hlong hmore
        rw [hmin] at h ⊢
        omega
      rw [hrun]
      dsimp only
      rw [pushBound_eq (show bounds.length < cap by omega)]
      obtain ⟨c, bounds', hrun', hbounds', hlen', hclass⟩ := ih j (bounds ++ [j]) b (by omega) hj
        (hbounds.push hij.le hmade.ordered fun k hk => hmade.outside k (.inl hk))
        (fun h => by
          have h1 := hsize h
          have h2 := hlong hmore
          have hpos : bounds ≠ [] := by
            rintro rfl
            exact nomatch hbounds.head
          have h3 := List.length_pos_of_ne_nil hpos
          rw [List.length_append, List.length_singleton]
          rw [hmin] at h1 h2 ⊢
          omega)
        (by
          rw [List.length_append, List.length_singleton]
          omega)
      refine ⟨c, bounds', hrun', hbounds', hlen', hclass.trans ?_⟩
      have hsplit : ∀ d : ℕ → α,
          segment d 0 nel = segment d 0 i ++ (segment d i j ++ segment d j nel) := fun d => by
        rw [segment_append d (Nat.zero_le i) hi, segment_append d hij.le hj]
      rw [hsplit b, hsplit a, segment_congr fun k _ hk => hmade.outside k (.inl hk),
        segment_congr fun k hk _ => hmade.outside k (.inr hk)]
      exact (SameClasses.refl _).append (hmade.classes.append (SameClasses.refl _))
    · obtain rfl : i = nel := by omega
      exact ⟨a, bounds, rfl, hbounds, hlen, SameClasses.refl _⟩

end DaScript.Stable
