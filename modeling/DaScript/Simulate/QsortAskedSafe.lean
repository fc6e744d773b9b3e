import DaScript.Simulate.QsortAsked

/-!
# Simulate/QsortAskedSafe — whatever is answered

No answer leads out of the range at hand: every scan stops at a bound of its own, but for the two of
the guarded find, which stop at each other only if their answers fit.
-/

namespace DaScript.QsortAsked

open Checked Qsort Arrays

variable {σ α : Type} {cmp : σ → α → α → Bool × σ} {nel : ℕ} {a₀ : ℕ → α} {lo hi : ℕ}
  {K : (ℕ → α) → Prop}

theorem keeps_less {i j : ℕ} (hi' : i < nel) (hj : j < nel) :
    Keeps K (less cmp nel i j) fun _ => True :=
  (Keeps.read hi').bind fun _ _ => (Keeps.read hj).bind fun _ _ => .ask cmp

theorem keeps_isBelow {i : ℕ} {pivot : α} (hi' : i < nel) :
    Keeps K (isBelow cmp nel i pivot) fun _ => True :=
  (Keeps.read hi').bind fun _ _ => .ask cmp

theorem keeps_isAbove {i : ℕ} {pivot : α} (hi' : i < nel) :
    Keeps K (isAbove cmp nel pivot i) fun _ => True :=
  (Keeps.read hi').bind fun _ _ => .ask cmp

theorem keeps_swap {i j : ℕ} (hi' : lo ≤ i ∧ i < hi) (hj : lo ≤ j ∧ j < hi) (hnel : hi ≤ nel) :
    Keeps (Permutes lo hi a₀) (Checked.swap nel i j : Program σ α Unit) fun _ => True :=
  .swap ⟨by omega, by omega⟩ fun a ha => ha.trans (.of_swap a hi' hj)

/-! ## The heap -/

section Heap

variable {base m : ℕ}

theorem keeps_largestOf (hm : base + m ≤ nel) {parent : ℕ} (hparent : 2 * parent + 1 < m) :
    Keeps K (largestOf cmp nel base m parent) fun largest =>
      largest = parent ∨ parent < largest ∧ largest < m := by
  unfold largestOf
  refine (keeps_less (by omega) (by omega)).bind fun less₁ _ => ?_
  dsimp only
  split
  · have hlargest : (if less₁ then 2 * parent + 1 else parent) < m := by
      split <;> omega
    refine (keeps_less (by omega) (by omega)).bind fun less₂ _ => .pure ?_
    split_ifs <;> omega
  · refine .pure ?_
    split_ifs <;> omega

theorem keeps_largerOf (hm : base + m ≤ nel) {hole : ℕ} (hhole : 2 * hole + 1 < m) :
    Keeps K (largerOf cmp nel base m hole) fun larger => hole < larger ∧ larger < m := by
  unfold largerOf
  split
  · refine (keeps_less (by omega) (by omega)).bind fun less₁ _ => .pure ?_
    split_ifs <;> omega
  · exact .pure (by omega)

theorem keeps_siftSwaps (hm : base + m ≤ nel) {parent : ℕ} (hparent : parent < m) :
    Keeps (Permutes base (base + m) a₀) (siftSwaps cmp nel base m parent) fun _ => True := by
  refine Keeps.loop (fun parent => parent < m) (fun parent => m - parent)
    (fun parent hparent => ?_) hparent (by omega)
  split
  · exact .pure trivial
  · refine (keeps_largestOf hm (by omega)).bind fun largest hlargest => ?_
    split
    · exact .pure trivial
    · refine (keeps_swap (by omega) (by omega) hm).bind fun _ _ => .pure ?_
      dsimp only
      omega

theorem update_slide (a : ℕ → α) (tmp : α) {i j : ℕ} (hij : i ≠ j) :
    Function.update (Function.update a i (a j)) j tmp =
      Arrays.swap (Function.update a i tmp) i j := by
  funext k
  by_cases hkj : k = j
  · rw [hkj, swap_right, Function.update_self, Function.update_self]
  · by_cases hki : k = i
    · rw [hki, swap_left, Function.update_of_ne hij, Function.update_self,
        Function.update_of_ne hij.symm]
    · rw [swap_other _ _ _ hki hkj, Function.update_of_ne hkj, Function.update_of_ne hki,
        Function.update_of_ne hki]

theorem total_slide (hm : base + m ≤ nel) {hole : ℕ} (hhole : hole < m) (tmp : α) :
    Total (fun a => Permutes base (base + m) a₀ (Function.update a (base + hole) tmp))
      (slide cmp nel base m tmp hole) fun _ a => Permutes base (base + m) a₀ a ∧ True := by
  unfold slide
  refine Total.bind (Q := fun hole a =>
      Permutes base (base + m) a₀ (Function.update a (base + hole) tmp) ∧ hole < m) ?_
    fun hole => .of_fact fun hhole => .write (by omega) fun a ha => ⟨ha, trivial⟩
  refine (Total.loop (fun hole a =>
    Permutes base (base + m) a₀ (Function.update a (base + hole) tmp) ∧ hole < m)
    (fun hole => m - hole) (fun hole => .of_fact fun hhole => ?_) (m + 1) hole (by omega)).mono
    (fun a ha => ⟨ha, hhole⟩) fun _ _ h => h
  split
  · exact .pure fun a ha => ⟨ha, hhole⟩
  · refine Total.bind (keeps_largerOf hm (by omega)) fun larger => .of_fact fun hlarger => ?_
    refine Total.bind (keeps_isAbove (by omega)) fun above => .of_fact fun _ => ?_
    split
    · refine Total.of_each fun a ha => .read_at (by omega) <| .write_at (by omega) <| .pure ?_
      rintro b rfl
      refine ⟨⟨?_, hlarger.2⟩, by omega⟩
      rw [update_slide a tmp (by omega)]
      exact ha.trans (.of_swap _ (by omega) (by omega))
    · exact .pure fun a ha => ⟨ha, hhole⟩

theorem keeps_siftDown (wide : Bool) (hm : base + m ≤ nel) (parent : ℕ) :
    Keeps (Permutes base (base + m) a₀) (siftDown cmp nel wide base parent m) fun _ => True := by
  unfold siftDown
  split
  · exact .pure trivial
  · split
    · exact keeps_siftSwaps hm (by omega)
    · refine Total.of_each fun a ha => .read_at (by omega) ?_
      refine (total_slide hm (by omega) _).mono ?_ fun _ _ h => h
      rintro b rfl
      rw [Function.update_eq_self]
      exact ha

theorem keeps_makeHeap (wide : Bool) (hm : base + m ≤ nel) : ∀ i : ℕ,
    Keeps (Permutes base (base + m) a₀) (makeHeap cmp nel wide base m i) fun _ => True
  | 0 => .pure trivial
  | i + 1 => (keeps_siftDown wide hm i).bind fun _ _ => keeps_makeHeap wide hm i

theorem keeps_widen {β : Type} {m : Program σ α β} {Q : β → Prop} (l r : ℕ)
    (h : ∀ a, Keeps (Permutes l r a) m Q) (hlo : lo ≤ l) (hhi : r ≤ hi) :
    Keeps (Permutes lo hi a₀) m Q := by
  refine Total.of_each fun a ha => Total.mono (h a) ?_ fun x b hb =>
    ⟨ha.trans (hb.1.mono hlo hhi), hb.2⟩
  rintro b rfl
  exact .refl _ _ _

theorem keeps_drainHeap (wide : Bool) : ∀ (len : ℕ) (a : ℕ → α), base + len ≤ nel →
    Keeps (Permutes base (base + len) a) (drainHeap cmp nel wide base len) fun _ => True
  | 0, _, _ => .pure trivial
  | 1, _, _ => .pure trivial
  | len + 2, _, hlen => by
    refine (keeps_swap (by omega) (by omega) hlen).bind fun _ _ => ?_
    refine keeps_widen base (base + (len + 1)) (fun a => ?_) le_rfl (by omega)
    exact (keeps_siftDown wide (by omega) 0).bind fun _ _ =>
      keeps_drainHeap wide (len + 1) a (by omega)

theorem keeps_heapsortHelper (wide : Bool) (hm : base + m ≤ nel) :
    Keeps (Permutes base (base + m) a₀) (heapsortHelper cmp nel wide base m) fun _ => True := by
  unfold heapsortHelper
  split
  · exact .pure trivial
  · exact (keeps_makeHeap wide hm _).bind fun _ _ => keeps_drainHeap wide m a₀ hm

end Heap

/-! ## Insertion -/

theorem keeps_insert (hnel : hi ≤ nel) : ∀ j < hi,
    Keeps (Permutes lo hi a₀) (insert cmp nel lo j) fun _ => True
  | 0, _ => .pure trivial
  | j + 1, hj => by
    unfold insert
    split
    · refine (keeps_less (by omega) (by omega)).bind fun down _ => ?_
      split
      · exact (keeps_swap (by omega) (by omega) hnel).bind fun _ _ =>
          keeps_insert hnel j (by omega)
      · exact .pure trivial
    · exact .pure trivial

theorem keeps_insertionTail (hnel : hi ≤ nel) : ∀ n : ℕ, lo + n < hi →
    Keeps (Permutes lo hi a₀) (insertionTail cmp nel lo n) fun _ => True
  | 0, _ => .pure trivial
  | n + 1, hn => (keeps_insertionTail hnel n (by omega)).bind fun _ _ => keeps_insert hnel _ hn

/-! ## Hoare's partition -/

theorem keeps_scanUp {i j : ℕ} (hlo : lo < nel) (hj : j < nel) (hij : i ≤ j + 1) :
    Keeps K (scanUp cmp nel lo j i) fun i' => i ≤ i' ∧ i' ≤ j + 1 := by
  refine Keeps.loop (fun i' => i ≤ i' ∧ i' ≤ j + 1) (fun i' => j + 1 - i') (fun i' hi' => ?_)
    ⟨le_rfl, hij⟩ (by omega)
  split
  · refine (keeps_less (by omega) hlo).bind fun below _ => ?_
    cases below with
    | true => exact .pure ⟨by omega, by omega⟩
    | false => exact .pure hi'
  · exact .pure hi'

theorem keeps_scanDown {i j : ℕ} (hlo : lo < nel) (hj : j < nel) (hi' : 0 < i) (hij : i ≤ j + 1) :
    Keeps K (scanDown cmp nel lo i j) fun j' => i ≤ j' + 1 ∧ j' ≤ j := by
  refine Keeps.loop (fun j' => i ≤ j' + 1 ∧ j' ≤ j) (fun j' => j') (fun j' hj' => ?_)
    ⟨hij, le_rfl⟩ (by omega)
  split
  · refine (keeps_less hlo (by omega)).bind fun above _ => ?_
    split
    · refine (Keeps.sub (by omega)).bind fun k hk => .pure ?_
      dsimp only
      omega
    · exact .pure hj'
  · exact .pure hj'

theorem keeps_hoareLoop {i j : ℕ} (hlo : lo < i) (hij : i ≤ j + 1) (hj : j ≤ hi) (hnel : hi < nel) :
    Keeps (Permutes lo (hi + 1) a₀) (hoareLoop cmp nel lo i j) fun p => lo ≤ p ∧ p ≤ hi := by
  refine Keeps.loop (fun ij => lo < ij.1 ∧ ij.1 ≤ ij.2 + 1 ∧ ij.2 ≤ hi)
    (fun ij => ij.2 + 1 - ij.1) (fun ij h => ?_) ⟨hlo, hij, hj⟩ (by dsimp only; omega)
  refine (keeps_scanUp (by omega) (by omega) h.2.1).bind fun i' hi' => ?_
  refine (keeps_scanDown (by omega) (by omega) (by omega) hi'.2).bind fun j' hj' => ?_
  split
  · exact .pure ⟨by omega, by omega⟩
  · refine (keeps_swap (by omega) (by omega) (by omega)).bind fun _ _ => ?_
    refine (Keeps.sub (by omega)).bind fun k hk => .pure ?_
    dsimp only
    omega

theorem keeps_hoarePartition (hlo : lo < hi) (hnel : hi < nel) :
    Keeps (Permutes lo (hi + 1) a₀) (hoarePartition cmp nel lo hi) fun p => lo ≤ p ∧ p ≤ hi :=
  (keeps_hoareLoop (Nat.lt_succ_self lo) (by omega) le_rfl hnel).bind fun _ hp =>
    (keeps_swap (by omega) (by omega) (by omega)).bind fun _ _ => .pure hp

/-! ## Partition by blocks -/

theorem keeps_findFirst {pivot : α} {first : ℕ} (hnel : hi < nel) (hfirst : first ≤ hi + 1) :
    Keeps K (findFirst cmp nel pivot hi first) fun first' => first ≤ first' ∧ first' ≤ hi + 1 := by
  refine Keeps.loop (fun first' => first ≤ first' ∧ first' ≤ hi + 1) (fun first' => hi + 1 - first')
    (fun first' h => ?_) ⟨le_rfl, hfirst⟩ (by omega)
  split
  · refine (keeps_isAbove (by omega)).bind fun above _ => ?_
    cases above with
    | true => exact .pure h
    | false => exact .pure ⟨by omega, by omega⟩
  · exact .pure h

theorem keeps_findLast {pivot : α} {last : ℕ} (hnel : last < nel) (hlast : lo < last) :
    Keeps K (findLast cmp nel pivot lo last) fun last' => lo < last' ∧ last' ≤ last := by
  refine Keeps.loop (fun last' => lo < last' ∧ last' ≤ last) (fun last' => last')
    (fun last' h => ?_) ⟨hlast, le_rfl⟩ (by omega)
  refine (keeps_isAbove (by omega)).bind fun above _ => ?_
  split
  · split
    · exact .pure h
    · refine (Keeps.sub (by omega)).bind fun k hk => .pure ?_
      dsimp only
      omega
  · exact .pure h

theorem keeps_find {pivot : α} (hlo : lo < hi) (hnel : hi < nel) :
    Keeps K (find cmp nel pivot lo hi) fun fl =>
      (lo < fl.1 ∧ fl.1 ≤ hi + 1) ∧ lo < fl.2 ∧ fl.2 ≤ hi := by
  refine (keeps_findFirst hnel (by omega)).bind fun first hfirst => ?_
  dsimp only
  split
  · exact (keeps_findLast hnel hlo).bind fun last hlast => .pure ⟨hfirst, hlast⟩
  · exact .pure ⟨hfirst, hlo, le_rfl⟩

theorem keeps_populate {test : ℕ → Program σ α Bool} : ∀ (n j bitset : ℕ), bitset < 2 ^ j →
    (∀ k, j ≤ k → k < j + n → Keeps K (test k) fun _ => True) →
    Keeps K (populate test n j bitset) fun bits => bits < 2 ^ (j + n)
  | 0, _, _, hbits, _ => .pure hbits
  | n + 1, j, bitset, hbits, htest => by
    refine (htest j le_rfl (by omega)).bind fun bit _ => ?_
    have hnew : bitset ||| bit.toNat <<< j < 2 ^ (j + 1) := by
      refine Nat.or_lt_two_pow (hbits.trans (Nat.pow_lt_pow_right (by omega) (by omega))) ?_
      rw [Nat.shiftLeft_eq, pow_succ, Nat.mul_comm]
      have hbit : bit.toNat < 2 := bit.toNat_lt
      exact Nat.mul_lt_mul_of_pos_left hbit (Nat.two_pow_pos j)
    refine (keeps_populate n (j + 1) _ hnew fun k hk hk' => htest k (by omega) (by omega)).mono
      fun bits h => ?_
    rwa [show j + 1 + n = j + (n + 1) by omega] at h

theorem keeps_populateLeft {pivot : α} {l : ℕ} {s : Scan} (hleft : s.left < 2 ^ l)
    (hroom : s.first + l ≤ nel) :
    Keeps K (populateLeft cmp nel pivot l s) fun bits => bits < 2 ^ l := by
  unfold populateLeft
  split
  · refine (keeps_populate l 0 0 (by decide) fun k _ hk => ?_).mono fun bits h => ?_
    · exact (keeps_isBelow (by omega)).bind fun _ _ => .pure trivial
    · rwa [Nat.zero_add] at h
  · exact .pure hleft

theorem keeps_populateRight {pivot : α} {r : ℕ} {s : Scan} (hright : s.right < 2 ^ r)
    (hroom : r ≤ s.last + 1) (hlast : s.last < nel) :
    Keeps K (populateRight cmp nel pivot r s) fun bits => bits < 2 ^ r := by
  unfold populateRight
  split
  · refine (keeps_populate r 0 0 (by decide) fun k _ hk => ?_).mono fun bits h => ?_
    · refine (Keeps.sub (by omega)).bind fun i hi' => ?_
      exact (keeps_isAbove (by omega)).bind fun _ _ => .pure trivial
    · rwa [Nat.zero_add] at h
  · exact .pure hright

theorem ctz_lt {x l : ℕ} (hx : x ≠ 0) (hl : x < 2 ^ l) : BitScan.ctz x < l := by
  by_contra hge
  have hbit := BitScan.testBit_ctz hx
  have hsmall := hl.trans_le (Nat.pow_le_pow_right (by decide) (not_lt.mp hge))
  rw [Nat.testBit_lt_two_pow hsmall] at hbit
  cases hbit

theorem log2_lt {x l : ℕ} (hx : x ≠ 0) (hl : x < 2 ^ l) : x.log2 < l :=
  (Nat.log2_lt hx).mpr hl

/-- The bits of two blocks that do not meet. -/
structure Bits (l r : ℕ) (s : Scan) : Prop where
  left : s.left < 2 ^ l
  right : s.right < 2 ^ r
  room : s.first + l + r ≤ s.last + 1

theorem keeps_pairSwaps {l r : ℕ} {s : Scan} (h : Bits l r s) (hl : l ≤ 64)
    (hfirst : lo ≤ s.first) (hlast : s.last < hi) (hnel : hi ≤ nel) :
    Keeps (Permutes lo hi a₀) (pairSwaps nel s : Program σ α Scan) fun s' =>
      s'.first = s.first ∧ s'.last = s.last ∧ Bits l r s' ∧ (s'.left = 0 ∨ s'.right = 0) := by
  have hpow : 2 ^ l ≤ 2 ^ 64 := Nat.pow_le_pow_right (by omega) hl
  have hleft := h.left
  refine Keeps.loop (fun s' => s'.first = s.first ∧ s'.last = s.last ∧ Bits l r s')
    (fun s' => s'.left) (fun s' h' => ?_) ⟨rfl, rfl, h⟩ (by omega)
  obtain ⟨hf, hla, hbits⟩ := h'
  split
  next hboth =>
    have hroom := hbits.room
    have hctz := ctz_lt hboth.1 hbits.left
    have hctz' := ctz_lt hboth.2 hbits.right
    refine (Keeps.sub (by omega)).bind fun j hj => ?_
    refine (keeps_swap (by omega) (by omega) hnel).bind fun _ _ => .pure ?_
    refine ⟨⟨hf, hla, ?_, ?_, hroom⟩, BitScan.and_pred_lt hboth.1⟩
    · exact (BitScan.and_pred_lt hboth.1).trans hbits.left
    · exact (BitScan.and_pred_lt hboth.2).trans hbits.right
  next hboth => exact .pure ⟨hf, hla, hbits, by omega⟩

/-- What a turn leaves: an end whose bitset is empty is done with. -/
structure Turned (l r : ℕ) (s s' : Scan) : Prop where
  first : s'.first = if s'.left = 0 then s.first + l else s.first
  last : s'.last + (if s'.right = 0 then r else 0) = s.last
  left : s'.left < 2 ^ l
  right : s'.right < 2 ^ r
  empty : s'.left = 0 ∨ s'.right = 0

theorem keeps_turn {pivot : α} {l r : ℕ} {s : Scan} (h : Bits l r s) (hl : l ≤ 64)
    (hpos : 0 < s.first) (hfirst : lo ≤ s.first) (hlast : s.last < hi) (hnel : hi ≤ nel) :
    Keeps (Permutes lo hi a₀) (turn cmp nel pivot l r s) (Turned l r s) := by
  have hroom := h.room
  refine (keeps_populateLeft h.left (by omega)).bind fun left hleft => ?_
  refine (keeps_populateRight h.right (by omega) (by omega)).bind fun right hright => ?_
  refine (keeps_pairSwaps (s := { s with left := left, right := right }) ⟨hleft, hright, hroom⟩ hl
    hfirst hlast hnel).bind fun s' hs' => ?_
  obtain ⟨hf, hla, hbits, hempty⟩ := hs'
  dsimp only at hf hla ⊢
  by_cases hzero : s'.right = 0
  · rw [if_pos hzero]
    refine (Keeps.sub (by omega)).bind fun last hlast' => .pure ?_
    refine ⟨?_, ?_, hbits.left, hbits.right, hempty⟩
    · dsimp only
      rw [hf]
    · dsimp only
      rw [if_pos hzero]
      omega
  · rw [if_neg hzero]
    refine .pure ⟨?_, ?_, hbits.left, hbits.right, hempty⟩
    · dsimp only
      rw [hf]
    · dsimp only
      rw [if_neg hzero]
      omega

/-- **Between two turns**: a bitset that is not empty is of a whole block. -/
structure Between (lo hi : ℕ) (s : Scan) : Prop where
  first : lo < s.first ∧ s.first ≤ s.last + 1
  last : s.last ≤ hi
  left : s.left < 2 ^ 64
  right : s.right < 2 ^ 64
  empty : s.left = 0 ∨ s.right = 0
  block : s.left ≠ 0 ∨ s.right ≠ 0 → s.first + 63 ≤ s.last

theorem keeps_blocks {pivot : α} {s : Scan} (h : Between lo hi s) (hnel : hi < nel) :
    Keeps (Permutes (lo + 1) (hi + 1) a₀) (blocks cmp nel pivot s) fun s' =>
      Between lo hi s' ∧ s'.last < s'.first + 127 := by
  have hfirst := h.first
  have hlast := h.last
  refine Keeps.loop (Between lo hi) (fun s' => s'.last + 1 - s'.first) (fun s' h' => ?_) h
    (by omega)
  have hfirst' := h'.first
  have hlast' := h'.last
  unfold blockSize
  split
  · refine (keeps_turn (l := 64) (r := 64) ⟨h'.left, h'.right, by omega⟩ le_rfl (by omega)
      (by omega) (by omega) (by omega)).bind fun s'' ht => .pure ?_
    have htf := ht.first
    have htl := ht.last
    have hempty := ht.empty
    refine ⟨⟨?_, ?_, ht.left, ht.right, hempty, ?_⟩, ?_⟩
    · split_ifs at htf htl <;> omega
    · split_ifs at htf htl <;> omega
    · split_ifs at htf htl <;> omega
    · split_ifs at htf htl <;> omega
  · exact .pure ⟨h', by omega⟩

theorem sizeSub_of_le {x y : ℕ} (hle : y ≤ x) (hx : x < 2 ^ 64) : sizeSub x y = x - y := by
  unfold sizeSub
  omega

theorem sizes_spec {s : Scan} (h : Between lo hi s) (hfew : s.last < s.first + 127)
    (hhi : hi < 2 ^ 64) : Bits (sizes s).1 (sizes s).2 s ∧ (sizes s).1 ≤ 64 ∧
      (sizes s).2 ≤ 64 ∧ s.first + (sizes s).1 + (sizes s).2 = s.last + 1 := by
  obtain ⟨hfirst, hlast, hleft, hright, hempty, hblock⟩ := h
  have hremaining : (sizeSub s.last s.first + 1) % 2 ^ 64 = s.last + 1 - s.first := by
    unfold sizeSub
    omega
  unfold sizes
  rw [hremaining]
  generalize hn : s.last + 1 - s.first = n
  dsimp only
  unfold blockSize
  by_cases hl : s.left = 0
  · by_cases hr : s.right = 0
    · rw [if_pos ⟨hl, hr⟩]
      dsimp only
      rw [sizeSub_of_le (Nat.div_le_self n 2) (by omega)]
      refine ⟨⟨?_, ?_, by omega⟩, by omega, by omega, by omega⟩
      · rw [hl]
        exact Nat.two_pow_pos _
      · rw [hr]
        exact Nat.two_pow_pos _
    · rw [if_neg (fun h => hr h.2), if_pos hl]
      have hle := hblock (.inr hr)
      dsimp only
      rw [sizeSub_of_le (by omega) (by omega)]
      refine ⟨⟨?_, hright, by omega⟩, by omega, le_rfl, by omega⟩
      rw [hl]
      exact Nat.two_pow_pos _
  · rw [if_neg (fun h => hl h.1), if_neg hl]
    have hle := hblock (.inl hl)
    dsimp only
    rw [sizeSub_of_le (by omega) (by omega)]
    refine ⟨⟨hleft, ?_, by omega⟩, le_rfl, by omega, by omega⟩
    rw [hempty.resolve_left hl]
    exact Nat.two_pow_pos _

theorem and_mask_lt_two_pow {x : ℕ} : x &&& (1 <<< x.log2 - 1) < 2 ^ x.log2 := by
  refine lt_of_le_of_lt Nat.and_le_right ?_
  have hpos := Nat.two_pow_pos x.log2
  rw [Nat.one_shiftLeft]
  omega

theorem keeps_swapApart {i j : ℕ} (hi' : lo ≤ i ∧ i < hi) (hj : lo ≤ j ∧ j < hi)
    (hnel : hi ≤ nel) :
    Keeps (Permutes lo hi a₀) (swapApart nel i j : Program σ α Unit) fun _ => True := by
  unfold swapApart
  split
  · exact keeps_swap hi' hj hnel
  · exact .pure trivial

theorem keeps_drainLeft {s : Scan} (hleft : s.left < 2 ^ (s.last + 1 - s.first))
    (hsmall : s.left < 2 ^ 64) (hfirst : lo < s.first ∧ s.first ≤ s.last + 1) (hlast : s.last ≤ hi)
    (hnel : hi < nel) :
    Keeps (Permutes (lo + 1) (hi + 1) a₀) (drainLeft nel s : Program σ α Scan) fun s' =>
      lo ≤ s'.last ∧ s'.last ≤ hi := by
  refine Keeps.loop (fun s' => s'.left < 2 ^ (s'.last + 1 - s'.first) ∧
    (lo < s'.first ∧ s'.first ≤ s'.last + 1) ∧ s'.last ≤ hi) (fun s' => s'.left)
    (fun s' h => ?_) ⟨hleft, hfirst, hlast⟩ (by omega)
  split
  next hne =>
    have hlog := log2_lt hne h.1
    refine (keeps_swapApart (by omega) (by omega) (by omega)).bind fun _ _ => ?_
    refine (Keeps.sub (by omega)).bind fun last hlast' => .pure ?_
    refine ⟨⟨?_, ?_, ?_⟩, BitScan.and_mask_lt hne⟩
    · exact and_mask_lt_two_pow.trans_le (Nat.pow_le_pow_right (by omega) (by dsimp only; omega))
    · dsimp only
      omega
    · dsimp only
      omega
  next => exact .pure (by omega)

theorem keeps_drainRight {s : Scan} (hright : s.right < 2 ^ (s.last + 1 - s.first))
    (hsmall : s.right < 2 ^ 64) (hfirst : lo < s.first ∧ s.first ≤ s.last + 1)
    (hlast : s.last ≤ hi) (hnel : hi < nel) :
    Keeps (Permutes (lo + 1) (hi + 1) a₀) (drainRight nel s : Program σ α Scan) fun s' =>
      lo < s'.first ∧ s'.first ≤ hi + 1 := by
  refine Keeps.loop (fun s' => s'.right < 2 ^ (s'.last + 1 - s'.first) ∧
    (lo < s'.first ∧ s'.first ≤ s'.last + 1) ∧ s'.last ≤ hi) (fun s' => s'.right)
    (fun s' h => ?_) ⟨hright, hfirst, hlast⟩ (by omega)
  split
  next hne =>
    have hlog := log2_lt hne h.1
    refine (Keeps.sub (by omega)).bind fun pos hpos => ?_
    refine (keeps_swapApart (by omega) (by omega) (by omega)).bind fun _ _ => .pure ?_
    refine ⟨⟨?_, ?_, h.2.2⟩, BitScan.and_mask_lt hne⟩
    · exact and_mask_lt_two_pow.trans_le (Nat.pow_le_pow_right (by omega) (by dsimp only; omega))
    · dsimp only
      omega
  next => exact .pure (by omega)

theorem keeps_residual {l r : ℕ} {s s' : Scan} (h : Turned l r s s') (hl : l ≤ 64)
    (hsum : s.first + l + r = s.last + 1) (hright : s'.right < 2 ^ 64) (hfirst : lo < s.first)
    (hlast : s.last ≤ hi) (hnel : hi < nel) :
    Keeps (Permutes (lo + 1) (hi + 1) a₀) (residual nel s' : Program σ α Scan) fun s'' =>
      lo < s''.first ∧ s''.first ≤ hi + 1 := by
  obtain ⟨hf, hla, hleft, hright', hempty⟩ := h
  unfold residual
  split
  next hne =>
    have hzero := hempty.resolve_left hne
    rw [if_neg hne] at hf
    rw [if_pos hzero] at hla
    have hsmall := hleft.trans_le (Nat.pow_le_pow_right (by omega) hl)
    rw [show l = s'.last + 1 - s'.first by omega] at hleft
    refine (keeps_drainLeft hleft hsmall (show lo < s'.first ∧ _ by omega) (by omega) hnel).bind
      fun s'' h'' => .pure ?_
    dsimp only
    omega
  next hne =>
    rw [if_pos (not_not.mp hne)] at hf
    split
    next hne' =>
      rw [if_neg hne'] at hla
      refine keeps_drainRight ?_ hright (by omega) (by omega) hnel
      rwa [show s'.last + 1 - s'.first = r by omega]
    next hne' =>
      rw [if_pos (not_not.mp hne')] at hla
      exact .pure (by omega)

/-! ## The pivot -/

theorem total_placePivot {p : ℕ} (hp : lo ≤ p ∧ p ≤ hi) (hnel : hi < nel) :
    Total (Permutes (lo + 1) (hi + 1) a₀) (placePivot nel (a₀ lo) lo p : Program σ α Unit)
      fun _ a => Permutes lo (hi + 1) a₀ a := by
  refine Total.of_each fun a ha => ?_
  have hpivot : a₀ lo = a lo := (ha.outside (.inl (Nat.lt_succ_self lo))).symm
  have hperm : Permutes lo (hi + 1) a₀ a := ha.mono (Nat.le_succ lo) le_rfl
  unfold placePivot
  rw [hpivot]
  split
  next hne =>
    refine .read_at (by omega) <| .write_at (by omega) <| .write (by omega) ?_
    rintro b rfl
    rw [update_slide a (a lo) hne.symm, Function.update_eq_self]
    exact hperm.trans (.of_swap a (by omega) (by omega))
  next hne =>
    rw [not_not.mp hne]
    refine .write (by omega) ?_
    rintro b rfl
    rwa [Function.update_eq_self]

theorem total_partitionTail {first last : ℕ} (hfirst : lo < first ∧ first ≤ last + 1)
    (hlast : last ≤ hi) (hnel : hi < nel) (hwrap : nel ≤ 2 ^ 64) :
    Total (Permutes (lo + 1) (hi + 1) a₀) (partitionTail cmp nel (a₀ lo) lo first last)
      fun p a => Permutes lo (hi + 1) a₀ a ∧ lo ≤ p ∧ p ≤ hi := by
  have hbetween : Between lo hi ⟨first, last, 0, 0⟩ :=
    ⟨hfirst, hlast, Nat.two_pow_pos 64, Nat.two_pow_pos 64, .inl rfl, fun h => by simp at h⟩
  refine Total.bind (keeps_blocks hbetween hnel) fun s => .of_fact fun hs => ?_
  obtain ⟨hbits, hl, hr, hsum⟩ := sizes_spec hs.1 hs.2 (by omega)
  have hsf := hs.1.first
  have hsl := hs.1.last
  refine Total.bind (keeps_turn hbits hl (by omega) (by omega) (by omega) (by omega))
    fun s' => .of_fact fun ht => ?_
  have hright : s'.right < 2 ^ 64 :=
    ht.right.trans_le (Nat.pow_le_pow_right (by omega) hr)
  refine Total.bind (keeps_residual ht hl hsum hright (by omega) hsl hnel)
    fun s'' => .of_fact fun hs'' => ?_
  refine Total.bind (Keeps.sub (by omega)) fun p => .of_fact fun hp => ?_
  refine Total.bind (total_placePivot (by omega) hnel) fun _ => .pure fun a ha => ⟨ha, ?_⟩
  omega

/-! ## The scans that cross -/

theorem populate_fails {test : ℕ → Program σ α Bool} : ∀ (n j bitset : ℕ) (st : σ × (ℕ → α)),
    (∃ k, j ≤ k ∧ k < j + n ∧ ∀ st, test k st = none) → populate test n j bitset st = none
  | 0, _, _, _, ⟨_, _, _, _⟩ => by omega
  | n + 1, j, bitset, st, ⟨k, hjk, hk, hfails⟩ => by
    refine bind_fails fun bit st' hrun => populate_fails n (j + 1) _ st' ⟨k, ?_, by omega, hfails⟩
    refine Nat.lt_of_le_of_ne hjk ?_
    rintro rfl
    rw [hfails] at hrun
    cases hrun

theorem partitionTail_fails {pivot : α} {first last : ℕ} (hcross : last + 1 < first)
    (hfirst : first ≤ nel) (hnel : nel < 2 ^ 64) (st : σ × (ℕ → α)) :
    partitionTail cmp nel pivot lo first last st = none := by
  have hblocks : blocks cmp nel pivot ⟨first, last, 0, 0⟩ st = some (⟨first, last, 0, 0⟩, st) := by
    unfold blocks
    rw [loop]
    have hleave : (if first + 2 * blockSize - 1 ≤ last then do
          let s ← turn cmp nel pivot blockSize blockSize ⟨first, last, 0, 0⟩
          pure (.inl s)
        else pure (.inr ⟨first, last, 0, 0⟩) : Program σ α (Scan ⊕ Scan)) st =
          some (.inr ⟨first, last, 0, 0⟩, st) := by
      unfold blockSize
      rw [if_neg (by omega)]
      rfl
    exact (bind_of_some hleave).trans rfl
  have hsizes : first + (sizes ⟨first, last, 0, 0⟩).1 + (sizes ⟨first, last, 0, 0⟩).2 =
      2 ^ 64 + last + 1 := by
    have hremaining : (sizeSub last first + 1) % 2 ^ 64 = 2 ^ 64 + last + 1 - first := by
      unfold sizeSub
      omega
    unfold sizes
    dsimp only
    rw [hremaining, if_pos ⟨rfl, rfl⟩]
    unfold sizeSub
    dsimp only
    omega
  have hturn : turn cmp nel pivot (sizes ⟨first, last, 0, 0⟩).1 (sizes ⟨first, last, 0, 0⟩).2
      ⟨first, last, 0, 0⟩ st = none := by
    refine bind_fails fun left st' hleft => ?_
    refine bind_fails fun right st'' hright => ?_
    by_cases hbehind : nel < first + (sizes ⟨first, last, 0, 0⟩).1
    · -- the left block goes on to the end of the array
      rw [populateLeft, if_pos rfl, populate_fails] at hleft
      · cases hleft
      · refine ⟨nel - first, Nat.zero_le _, by omega, fun st => bind_fails fun b st' hbelow => ?_⟩
        rw [isBelow, bind_fails] at hbelow
        · cases hbelow
        · intro x st'' hread
          rw [Checked.read, if_neg (by dsimp only; omega)] at hread
          cases hread
    · -- the right one to the front
      rw [populateRight, if_pos rfl, populate_fails] at hright
      · cases hright
      · refine ⟨last + 1, Nat.zero_le _, by omega, fun st => bind_fails fun k st' hsub => ?_⟩
        rw [sub, if_neg (by dsimp only; omega)] at hsub
        cases hsub
  unfold partitionTail
  rw [bind_of_some hblocks]
  refine bind_fails fun s st' hrun => ?_
  rw [hturn] at hrun
  cases hrun

end DaScript.QsortAsked
