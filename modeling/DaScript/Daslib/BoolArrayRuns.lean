import DaScript.Daslib.BoolArray

/-!
# Daslib/BoolArrayRuns — an array of bits is a list of booleans

What each operation does to the bits (`bitAt`), and from it what it does to the list they are
(`Holds`).  Shifting goes word by word, each giving a bit to its neighbour.
-/

namespace DaScript

open Bitmap

/-! ## Words -/

theorem BoolArray.getLsbD_below {s : ℕ} (hs : s < 32) (j : ℕ) :
    (below s).getLsbD j = decide (j < s) := by
  have hflag : (flag s).toNat = 2 ^ s := by
    rw [flag, BitVec.toNat_shiftLeft, BitVec.toNat_ofNat, Nat.shiftLeft_eq, Nat.one_mod_two_pow,
      one_mul]
    · exact Nat.mod_eq_of_lt (Nat.pow_lt_pow_right (by decide) hs)
    · decide
  have hpos : 1 ≤ 2 ^ s := Nat.one_le_two_pow
  have hlt : 2 ^ s < 2 ^ 32 := Nat.pow_lt_pow_right (by decide) hs
  have hbelow : (below s).toNat = 2 ^ s - 1 := by
    rw [below, BitVec.toNat_sub, hflag, BitVec.toNat_ofNat]
    omega
  rw [BitVec.getLsbD, hbelow, Nat.testBit_two_pow_sub_one]

namespace BoolArray

variable {self : BoolArray} {l : List Bool}

/-- Element `k`. -/
def bitAt (self : BoolArray) (k : ℕ) : Bool := bit (fun i => self.bits.getD i 0#32) k

theorem bitAt_word (self : BoolArray) (offs : ℕ) {j : ℕ} (hj : j < 32) :
    (self.bits.getD offs 0#32).getLsbD j = self.bitAt (32 * offs + j) := by
  rw [bitAt, bit, show (32 * offs + j) / 32 = offs by omega,
    show (32 * offs + j) % 32 = j by omega]

theorem bitAt_of_bits {self self' : BoolArray}
    (h : ∀ i, self'.bits.getD i 0#32 = self.bits.getD i 0#32) (k : ℕ) :
    self'.bitAt k = self.bitAt k := by
  rw [bitAt, bitAt, bit, bit, h]

theorem bitAt_set {offs : ℕ} (hoffs : offs < self.bits.length) (w : BitVec 32) (n k : ℕ) :
    bitAt ⟨self.bits.set offs w, n⟩ k =
      if k / 32 = offs then w.getLsbD (k % 32) else self.bitAt k := by
  rw [bitAt, bit, List.getD_eq_getElem?_getD, List.getElem?_set]
  split_ifs with hsame hne hne
  · rfl
  · exact absurd hsame.symm hne
  · exact absurd hne.symm hsame
  · rw [← List.getD_eq_getElem?_getD]
    rfl

theorem word_ok {offs : ℕ} (hoffs : offs < self.bits.length) :
    word offs self = .ok (self.bits.getD offs 0#32) self := by
  rw [word, List.getElem?_eq_getElem hoffs, List.getD_eq_getElem _ _ hoffs]

theorem setWord_ok {offs : ℕ} (hoffs : offs < self.bits.length) (w : BitVec 32) :
    setWord offs w self = .ok () ⟨self.bits.set offs w, self.realSize⟩ := if_pos hoffs

theorem updateWord_ok {offs : ℕ} (hoffs : offs < self.bits.length) (f : BitVec 32 → BitVec 32) :
    updateWord offs f self =
      .ok () ⟨self.bits.set offs (f (self.bits.getD offs 0#32)), self.realSize⟩ := by
  rw [updateWord, word_ok hoffs, Outcome.bind_ok, setWord_ok hoffs]

/-! ## The list -/

/-- So many elements, and as many words as they need. -/
structure Shape (a : BoolArray) (n : ℕ) : Prop where
  realSize : a.realSize = n
  words : a.bits.length = (n + 31) / 32

/-- **The array holds the list.** -/
structure Holds (a : BoolArray) (l : List Bool) : Prop extends Shape a l.length where
  bits : ∀ k < l.length, l[k]? = some (a.bitAt k)

theorem Shape.offs_lt {n k : ℕ} (h : Shape self n) (hk : k < n) : k / 32 < self.bits.length := by
  rw [h.words]
  omega

theorem holds_empty : Holds empty [] := ⟨⟨rfl, rfl⟩, fun _ h => absurd h (Nat.not_lt_zero _)⟩

theorem bitAt_set_bit {k : ℕ} (hk : k / 32 < self.bits.length) {w : BitVec 32} {v : Bool} (n : ℕ)
    (hw : ∀ j < 32, w.getLsbD j =
      if j = k % 32 then v else (self.bits.getD (k / 32) 0#32).getLsbD j) (i : ℕ) :
    bitAt ⟨self.bits.set (k / 32) w, n⟩ i = if i = k then v else self.bitAt i := by
  have hlt := Nat.mod_lt i (show 32 > 0 by decide)
  rw [bitAt_set hk, hw _ hlt]
  by_cases hword : i / 32 = k / 32
  · rw [if_pos hword, bitAt_word _ _ hlt, ← hword, Nat.div_add_mod]
    exact if_congr (by omega) rfl rfl
  · rw [if_neg hword, if_neg]
    rintro rfl
    exact hword rfl

theorem Holds.set {k : ℕ} (h : Holds self l) (hk : k < l.length) {w : BitVec 32} {v : Bool}
    (hw : ∀ j < 32, w.getLsbD j =
      if j = k % 32 then v else (self.bits.getD (k / 32) 0#32).getLsbD j) :
    Holds ⟨self.bits.set (k / 32) w, self.realSize⟩ (l.set k v) := by
  have hlength : (l.set k v).length = l.length := List.length_set
  refine ⟨⟨?_, ?_⟩, fun i hi => ?_⟩
  · rw [hlength]
    exact h.realSize
  · rw [hlength]
    exact (List.length_set).trans h.words
  · rw [hlength] at hi
    rw [bitAt_set_bit (h.offs_lt hk) _ hw, List.getElem?_set]
    by_cases hik : i = k
    · rw [if_pos hik.symm, if_pos hk, if_pos hik]
    · rw [if_neg (Ne.symm hik), if_neg hik]
      exact h.bits i hi

theorem Holds.getD {k : ℕ} (h : Holds self l) (hk : k < l.length) :
    l.getD k false = self.bitAt k := by
  rw [List.getD_eq_getElem?_getD, h.bits k hk, Option.getD_some]

/-! ## Masks -/

theorem getLsbD_or_flag (w : BitVec 32) (b : ℕ) {j : ℕ} (hj : j < 32) :
    (w ||| flag b).getLsbD j = if j = b then true else w.getLsbD j := by
  rw [BitVec.getLsbD_or, getLsbD_flag hj]
  by_cases hjb : j = b <;> simp [hjb]

theorem getLsbD_and_not_flag (w : BitVec 32) (b : ℕ) {j : ℕ} (hj : j < 32) :
    (w &&& ~~~flag b).getLsbD j = if j = b then false else w.getLsbD j := by
  rw [BitVec.getLsbD_and, BitVec.getLsbD_not, getLsbD_flag hj]
  by_cases hjb : j = b <;> simp [hjb, hj]

theorem getLsbD_xor_flag (w : BitVec 32) (b : ℕ) {j : ℕ} (hj : j < 32) :
    (w ^^^ flag b).getLsbD j = if j = b then !w.getLsbD b else w.getLsbD j := by
  rw [BitVec.getLsbD_xor, getLsbD_flag hj]
  by_cases hjb : j = b <;> simp [hjb]

theorem getLsbD_put (w : BitVec 32) (b : ℕ) (v : Bool) {j : ℕ} (hj : j < 32) :
    (if v then w ||| flag b else w &&& ~~~flag b).getLsbD j =
      if j = b then v else w.getLsbD j := by
  cases v with
  | true => exact getLsbD_or_flag w b hj
  | false => exact getLsbD_and_not_flag w b hj

/-! ## Indices -/

/-- The place an index means in a list of `n`, if there is one. -/
def place (index : ℤ) (n : ℕ) : Option ℕ :=
  if 0 ≤ index ∧ index < n then some index.toNat else none

theorem uint_of_nonneg {index : ℤ} (h : index ∈ Set.Ico (-(2 : ℤ) ^ 31) (2 ^ 31))
    (hnonneg : 0 ≤ index) : uint index = index.toNat := by
  have := h.2
  rw [uint]
  omega

theorem uint_of_neg {index : ℤ} (h : index ∈ Set.Ico (-(2 : ℤ) ^ 31) (2 ^ 31))
    (hneg : index < 0) : 2 ^ 31 ≤ uint index := by
  have := h.1
  rw [uint]
  omega

theorem uint_lt_iff (index : Index) {n : ℕ} (hn : n < 2 ^ 31) :
    uint index < n ↔ 0 ≤ (index : ℤ) ∧ (index : ℤ) < n := by
  by_cases h : 0 ≤ (index : ℤ)
  · rw [uint_of_nonneg index.2 h]
    omega
  · have := uint_of_neg index.2 (not_le.mp h)
    omega

theorem place_eq_some {index : Index} {n k : ℕ} (h : place index n = some k) :
    k < n ∧ uint index = k ∧ (index : ℤ) = k := by
  rw [place] at h
  split_ifs at h with hin
  obtain rfl := Option.some.inj h
  exact ⟨by omega, uint_of_nonneg index.2 hin.1, (Int.toNat_of_nonneg hin.1).symm⟩

theorem place_eq_none {index : Index} {n : ℕ} (hn : n < 2 ^ 31) (h : place index n = none) :
    n ≤ uint index := by
  rw [place] at h
  split_ifs at h with hin
  exact not_lt.mp fun hlt => hin ((uint_lt_iff index hn).mp hlt)

theorem atIndex_ok {α : Type} {index : ℤ} {k : ℕ} (h : Holds self l) (hk : k < l.length)
    (huint : uint index = k) (f : ℕ → BitVec 32 → Call α) :
    atIndex index f self = f (k / 32) (flag (k % 32)) self := by
  dsimp only [atIndex]
  rw [huint, h.realSize, if_neg (not_le.mpr hk)]

theorem atIndex_outOfRange {α : Type} {index : ℤ} (h : Holds self l)
    (huint : l.length ≤ uint index) (f : ℕ → BitVec 32 → Call α) :
    atIndex index f self = outOfRange index self := by
  dsimp only [atIndex]
  rw [h.realSize, if_pos huint]

theorem get_ok {index : ℤ} {k : ℕ} (h : Holds self l) (hk : k < l.length)
    (huint : uint index = k) : get index self = .ok (l.getD k false) self := by
  rw [get, atIndex_ok h hk huint, word_ok (h.offs_lt hk), Outcome.bind_ok, h.getD hk]
  have hflag := and_flag_eq_zero (w := self.bits.getD (k / 32) 0#32)
    (Nat.mod_lt k (show 32 > 0 by decide))
  rw [bitAt_word _ _ (Nat.mod_lt k (by decide)), Nat.div_add_mod] at hflag
  cases hbit : self.bitAt k with
  | true =>
    have hne : ¬ self.bits.getD (k / 32) 0#32 &&& flag (k % 32) = 0#32 := by
      rw [hflag, hbit]
      exact Bool.noConfusion
    rw [(bne_iff_ne).mpr hne]
  | false => rw [hflag.mpr hbit, bne_self_eq_false]

theorem update_ok {index : ℤ} {k : ℕ} (h : Holds self l) (hk : k < l.length)
    (huint : uint index = k) {f : BitVec 32 → BitVec 32 → BitVec 32} {v : Bool}
    (hf : ∀ w : BitVec 32, w.getLsbD (k % 32) = l.getD k false → ∀ j < 32,
      (f (flag (k % 32)) w).getLsbD j = if j = k % 32 then v else w.getLsbD j) :
    ∃ self', atIndex index (fun offs mask => updateWord offs (f mask)) self = .ok () self' ∧
      Holds self' (l.set k v) := by
  refine ⟨_, (atIndex_ok h hk huint _).trans (updateWord_ok (h.offs_lt hk) _), h.set hk ?_⟩
  refine hf _ ?_
  rw [bitAt_word _ _ (Nat.mod_lt k (by decide)), Nat.div_add_mod, h.getD hk]

/-! ## Sizes -/

theorem Shape.bitAt_of_le {n k : ℕ} (h : Shape self n) (hk : 32 * ((n + 31) / 32) ≤ k) :
    self.bitAt k = false := by
  have hbits : self.bits.length ≤ k / 32 := by
    rw [h.words]
    omega
  rw [bitAt, bit, List.getD_eq_default _ _ hbits, BitVec.getLsbD_zero]

theorem getD_resizeWords (bits : List (BitVec 32)) (count i : ℕ) :
    (resizeWords count bits).getD i 0#32 = if i < count then bits.getD i 0#32 else 0#32 := by
  rw [resizeWords, List.getD_eq_getElem?_getD, List.getD_eq_getElem?_getD, List.getElem?_append,
    List.length_take, List.getElem?_take, List.getElem?_replicate]
  rcases lt_or_ge i bits.length with hi | hi
  · split_ifs <;> first | rfl | omega
  · rw [List.getElem?_eq_none hi]
    split_ifs <;> rfl

theorem length_resizeWords (bits : List (BitVec 32)) (count : ℕ) :
    (resizeWords count bits).length = count := by
  rw [resizeWords, List.length_append, List.length_take, List.length_replicate]
  omega

theorem maskTail_ok {n : ℕ} (h : Shape self n) (newRealSize : ℕ) :
    ∃ self', maskTail newRealSize self = .ok () self' ∧ Shape self' n ∧
      ∀ k, self'.bitAt k = if n < newRealSize ∧ n ≤ k then false else self.bitAt k := by
  by_cases hmask : n < newRealSize ∧ n % 32 ≠ 0
  · have hoffs : n / 32 < self.bits.length := by
      rw [h.words]
      omega
    refine ⟨⟨self.bits.set (n / 32) (self.bits.getD (n / 32) 0#32 &&& below (n % 32)), n⟩, ?_,
      ⟨rfl, (List.length_set).trans h.words⟩, fun k => ?_⟩
    · rw [maskTail, h.realSize, if_pos hmask, updateWord_ok hoffs, h.realSize]
    · have hlt := Nat.mod_lt k (show 32 > 0 by decide)
      rw [bitAt_set hoffs]
      by_cases hword : k / 32 = n / 32
      · rw [if_pos hword, BitVec.getLsbD_and, bitAt_word _ _ hlt,
          getLsbD_below (Nat.mod_lt n (by decide)), ← hword, Nat.div_add_mod]
        by_cases hk : n ≤ k
        · rw [if_pos ⟨hmask.1, hk⟩, decide_eq_false (by omega), Bool.and_false]
        · rw [if_neg fun hand => hk hand.2, decide_eq_true (by omega), Bool.and_true]
      · rw [if_neg hword]
        split_ifs with hk
        · exact h.bitAt_of_le (by omega)
        · rfl
  · refine ⟨self, ?_, h, fun k => ?_⟩
    · rw [maskTail, h.realSize, if_neg hmask]
    · split_ifs with hk
      · exact h.bitAt_of_le (by omega)
      · rfl

theorem resize_ok {n : ℕ} (h : Shape self n) {newSize : ℤ} (hnonneg : 0 ≤ newSize) :
    ∃ self', resize newSize self = .ok () self' ∧ Shape self' newSize.toNat ∧
      (∀ k < newSize.toNat, self'.bitAt k = (decide (k < n) && self.bitAt k)) ∧
      (n < newSize.toNat → ∀ k, n ≤ k → self'.bitAt k = false) := by
  obtain ⟨masked, hmasked, hshape, hbits⟩ := maskTail_ok h newSize.toNat
  have hbitAt : ∀ k, bitAt ⟨resizeWords ((newSize.toNat + 31) / 32) masked.bits, newSize.toNat⟩ k =
      if k / 32 < (newSize.toNat + 31) / 32 then masked.bitAt k else false := by
    intro k
    rw [bitAt, bit, getD_resizeWords]
    split_ifs
    · rfl
    · exact BitVec.getLsbD_zero
  refine ⟨⟨resizeWords ((newSize.toNat + 31) / 32) masked.bits, newSize.toNat⟩, ?_,
    ⟨rfl, length_resizeWords _ _⟩, fun k hk => ?_, fun hgrow k hk => ?_⟩
  · dsimp only [resize]
    rw [if_neg (not_lt.mpr hnonneg), hmasked, Outcome.bind_ok]
  · rw [hbitAt, if_pos (by omega), hbits]
    by_cases hkn : k < n
    · rw [if_neg fun hand => absurd hand.2 (not_le.mpr hkn), decide_eq_true hkn, Bool.true_and]
    · rw [if_pos ⟨lt_of_le_of_lt (not_lt.mp hkn) hk, not_lt.mp hkn⟩, decide_eq_false hkn,
        Bool.false_and]
  · rw [hbitAt, hbits k, if_pos (show n < newSize.toNat ∧ n ≤ k from ⟨hgrow, hk⟩), ite_self]

/-- `resize` of a list. -/
def resized (n : ℕ) (l : List Bool) : List Bool := l.take n ++ List.replicate (n - l.length) false

theorem length_resized (n : ℕ) (l : List Bool) : (resized n l).length = n := by
  rw [resized, List.length_append, List.length_take, List.length_replicate]
  omega

theorem Holds.resize {newSize : ℤ} (h : Holds self l) (hnonneg : 0 ≤ newSize) :
    ∃ self', BoolArray.resize newSize self = .ok () self' ∧
      Holds self' (resized newSize.toNat l) := by
  obtain ⟨self', hresize, hshape, hbits, -⟩ := resize_ok h.toShape hnonneg
  rw [← length_resized newSize.toNat l] at hshape
  refine ⟨self', hresize, hshape, fun k hk => ?_⟩
  rw [length_resized] at hk
  rw [hbits k hk, resized, List.getElem?_append, List.length_take, List.getElem?_take,
    List.getElem?_replicate]
  by_cases hkl : k < l.length
  · rw [if_pos (by omega), if_pos hk, h.bits k hkl, decide_eq_true hkl, Bool.true_and]
  · rw [if_neg (by omega), if_pos (by omega), decide_eq_false hkl, Bool.false_and]

theorem push_ok {n : ℕ} (h : Shape self n) (v : Bool) :
    ∃ self', push v self = .ok () self' ∧ Shape self' (n + 1) ∧
      ∀ k, self'.bitAt k = if k = n then v else self.bitAt k := by
  obtain rfl := h.realSize
  let grown : BoolArray :=
    if self.realSize % 32 = 0 then { self with bits := self.bits ++ [0#32] } else self
  have hgrown : grown.bits.length = (self.realSize + 1 + 31) / 32 ∧
      grown.realSize = self.realSize ∧
      ∀ i, grown.bits.getD i 0#32 = self.bits.getD i 0#32 := by
    dsimp only [grown]
    split_ifs with hfull
    · refine ⟨?_, rfl, fun i => ?_⟩
      · rw [List.length_append, List.length_singleton, h.words]
        omega
      · rw [List.getD_eq_getElem?_getD, List.getD_eq_getElem?_getD, List.getElem?_append]
        rcases lt_trichotomy i self.bits.length with hi | rfl | hi
        · rw [if_pos hi]
        · rw [if_neg (lt_irrefl _), Nat.sub_self, List.getElem?_eq_none le_rfl]
          rfl
        · rw [if_neg (not_lt.mpr hi.le), List.getElem?_eq_none hi.le, List.getElem?_eq_none]
          rw [List.length_singleton]
          omega
    · refine ⟨?_, rfl, fun i => rfl⟩
      rw [h.words]
      omega
  obtain ⟨hwords, hsize, hsame⟩ := hgrown
  have hoffs : self.realSize / 32 < grown.bits.length := by
    rw [hwords]
    omega
  have hpush : push v self = (updateWord (self.realSize / 32) (fun w =>
      if v then w ||| flag (self.realSize % 32) else w &&& ~~~flag (self.realSize % 32))
      grown).bind fun _ self => .ok () { self with realSize := self.realSize + 1 } := rfl
  rw [hpush, updateWord_ok hoffs, Outcome.bind_ok]
  refine ⟨_, rfl, ⟨congrArg (· + 1) hsize, (List.length_set).trans hwords⟩, fun k => ?_⟩
  rw [bitAt_set_bit hoffs _ fun j hj => getLsbD_put _ _ v hj, bitAt_of_bits hsame]

theorem Holds.push (h : Holds self l) (v : Bool) :
    ∃ self', BoolArray.push v self = .ok () self' ∧ Holds self' (l ++ [v]) := by
  obtain ⟨self', hpush, hshape, hbits⟩ := push_ok h.toShape v
  have hlength : (l ++ [v]).length = l.length + 1 := List.length_append
  rw [← hlength] at hshape
  refine ⟨self', hpush, hshape, fun k hk => ?_⟩
  rw [hbits, List.getElem?_append]
  by_cases hkl : k < l.length
  · rw [if_pos hkl, if_neg hkl.ne, h.bits k hkl]
  · obtain rfl : k = l.length := by omega
    rw [if_neg hkl, if_pos rfl, Nat.sub_self]
    rfl

theorem Holds.pop (h : Holds self l) (hne : l ≠ []) (hlt : l.length < 2 ^ 31) :
    ∃ self', BoolArray.pop self = .ok (l.getLast hne) self' ∧ Holds self' l.dropLast := by
  have hpos := List.length_pos_iff.mpr hne
  have hindex : ((l.length : ℤ) - 1) = (l.length - 1 : ℕ) := by omega
  have huint : uint ((l.length : ℤ) - 1) = l.length - 1 := by
    rw [uint]
    omega
  have hget := get_ok h (by omega) huint
  rw [List.getD_eq_getElem _ _ (by omega), ← List.getLast_eq_getElem hne] at hget
  have hnonneg : 0 ≤ (l.length : ℤ) - 1 := by omega
  obtain ⟨self', hresize, hholds⟩ := h.resize hnonneg
  refine ⟨self', ?_, ?_⟩
  · rw [BoolArray.pop, h.realSize, if_neg hpos.ne', hget, Outcome.bind_ok, h.realSize, hresize,
      Outcome.bind_ok]
  · rw [hindex, Int.toNat_natCast, resized, show l.length - 1 - l.length = 0 by omega,
      List.replicate_zero, List.append_nil, ← List.dropLast_eq_take] at hholds
    exact hholds

/-! ## Erasing -/

/-- The bits with the one at `u` taken out. -/
def erased (b : ℕ → Bool) (u k : ℕ) : Bool := if k < u then b k else b (k + 1)

theorem getLsbD_shiftDown (self : BoolArray) (o : ℕ) {j : ℕ} (hj : j < 32) :
    (self.bits.getD o 0#32 >>> 1).getLsbD j =
      if j < 31 then self.bitAt (32 * o + (1 + j)) else false := by
  rw [BitVec.getLsbD_ushiftRight]
  split_ifs with htop
  · exact bitAt_word _ _ (by omega)
  · exact BitVec.getLsbD_of_ge _ _ (by omega)

theorem getLsbD_topped (self : BoolArray) (o : ℕ) (newW : BitVec 32) {j : ℕ} (hj : j < 32) :
    (newW ||| ((self.bits.getD o 0#32 &&& 1#32) <<< 31)).getLsbD j =
      (newW.getLsbD j || !decide (j < 31) && self.bitAt (32 * o)) := by
  rw [BitVec.getLsbD_or, BitVec.getLsbD_shiftLeft, BitVec.getLsbD_and, BitVec.getLsbD_one,
    decide_eq_true hj, Bool.true_and]
  by_cases htop : j < 31
  · rw [decide_eq_true htop]
    rfl
  · rw [show j - 31 = 0 by omega, bitAt_word _ _ (by decide)]
    simp

theorem eraseWords_ok {b : ℕ → Bool} {u : ℕ} (n : ℕ) : ∀ (o : ℕ) (newW : BitVec 32)
    (self : BoolArray), 1 ≤ o → u < 32 * o → o + n = self.bits.length →
    (∀ k < 32 * (o - 1), self.bitAt k = erased b u k) →
    (∀ j < 32, newW.getLsbD j = if j < 31 then erased b u (32 * (o - 1) + j) else false) →
    (∀ k, 32 * o ≤ k → self.bitAt k = b k) →
    ∃ (w' : BitVec 32) (self' : BoolArray),
      eraseWords (List.range' o n) newW self = .ok w' self' ∧
      self'.realSize = self.realSize ∧ self'.bits.length = self.bits.length ∧
      (∀ k < 32 * (self.bits.length - 1), self'.bitAt k = erased b u k) ∧
      ∀ j < 32, w'.getLsbD j =
        if j < 31 then erased b u (32 * (self.bits.length - 1) + j) else false := by
  induction n with
  | zero =>
    intro o newW self _ _ ho hlow hnew _
    rw [Nat.add_zero] at ho
    subst ho
    exact ⟨newW, self, rfl, rfl, rfl, hlow, hnew⟩
  | succ n ih =>
    intro o newW self hone hu ho hlow hnew hhigh
    have hoffs : o < self.bits.length := by omega
    have hoffs' : o - 1 < self.bits.length := by omega
    let stored : BoolArray :=
      ⟨self.bits.set (o - 1) (newW ||| ((self.bits.getD o 0#32 &&& 1#32) <<< 31)), self.realSize⟩
    have hstored : ∀ k, stored.bitAt k = if k / 32 = o - 1 then
        (newW ||| ((self.bits.getD o 0#32 &&& 1#32) <<< 31)).getLsbD (k % 32)
        else self.bitAt k := bitAt_set hoffs' _ _
    have hlength : stored.bits.length = self.bits.length := List.length_set
    have hlow' : ∀ k < 32 * (o + 1 - 1), stored.bitAt k = erased b u k := by
      intro k hk
      have hlt := Nat.mod_lt k (show 32 > 0 by decide)
      rw [hstored]
      by_cases hword : k / 32 = o - 1
      · rw [if_pos hword, getLsbD_topped _ _ _ hlt, hnew _ hlt, hhigh _ le_rfl]
        by_cases htop : k % 32 < 31
        · rw [if_pos htop, decide_eq_true htop, Bool.not_true, Bool.false_and, Bool.or_false]
          exact congrArg _ (by omega)
        · rw [if_neg htop, decide_eq_false htop, erased, if_neg (by omega)]
          exact congrArg b (by omega)
      · rw [if_neg hword]
        exact hlow k (by omega)
    have hnew' : ∀ j < 32, (self.bits.getD o 0#32 >>> 1).getLsbD j =
        if j < 31 then erased b u (32 * (o + 1 - 1) + j) else false := by
      intro j hj
      have hshifted : erased b u (32 * (o + 1 - 1) + j) = b (32 * o + (1 + j)) := by
        rw [erased, if_neg (by omega)]
        exact congrArg b (by omega)
      rw [getLsbD_shiftDown _ _ hj, hhigh _ (by omega), hshifted]
    have hhigh' : ∀ k, 32 * (o + 1) ≤ k → stored.bitAt k = b k := by
      intro k hk
      rw [hstored, if_neg (by omega)]
      exact hhigh k (by omega)
    obtain ⟨w', self', hrun, hsize, hwords, hbits, hw'⟩ := ih (o + 1) _ stored (by omega)
      (by omega) (by omega) hlow' hnew' hhigh'
    rw [hlength] at hwords hbits hw'
    refine ⟨w', self', ?_, hsize, hwords, hbits, hw'⟩
    rw [List.range'_succ, eraseWords, word_ok hoffs, Outcome.bind_ok, setWord_ok hoffs',
      Outcome.bind_ok, hrun]

theorem getLsbD_erase (w : BitVec 32) {s : ℕ} (hs : s < 32) {j : ℕ} (hj : j < 32) :
    ((w &&& below s) ||| ((if s < 31 then w >>> (s + 1) else 0#32) <<< s)).getLsbD j =
      if j < s then w.getLsbD j else w.getLsbD (j + 1) := by
  rw [BitVec.getLsbD_or, BitVec.getLsbD_and, getLsbD_below hs, BitVec.getLsbD_shiftLeft]
  by_cases hjs : j < s
  · simp [hjs]
  · by_cases htop : s < 31
    · simp [hjs, hj, htop, BitVec.getLsbD_ushiftRight, show s + 1 + (j - s) = j + 1 by omega]
    · have hend : w.getLsbD (j + 1) = false := BitVec.getLsbD_of_ge _ _ (by omega)
      simp [hjs, htop, hend]

theorem getLsbD_eraseWord (self : BoolArray) (u : ℕ) {j : ℕ} (hj : j < 32) :
    ((self.bits.getD (u / 32) 0#32 &&& below (u % 32)) |||
      ((if u % 32 < 31 then self.bits.getD (u / 32) 0#32 >>> (u % 32 + 1) else 0#32) <<<
        (u % 32))).getLsbD j =
      if j < 31 then erased self.bitAt u (32 * (u / 32 + 1 - 1) + j) else false := by
  have hmod := Nat.mod_lt u (show 32 > 0 by decide)
  rw [getLsbD_erase _ hmod hj, erased, Nat.add_sub_cancel]
  by_cases hju : j < u % 32
  · rw [if_pos hju, if_pos (by omega), if_pos (by omega), bitAt_word _ _ hj]
  · rw [if_neg hju]
    by_cases htop : j < 31
    · rw [if_pos htop, if_neg (by omega), bitAt_word _ _ (by omega)]
      rfl
    · rw [if_neg htop]
      exact BitVec.getLsbD_of_ge _ _ (by omega)

theorem Holds.erase {index : ℤ} {u : ℕ} (h : Holds self l) (hu : u < l.length)
    (huint : uint index = u) :
    ∃ self', BoolArray.erase index self = .ok () self' ∧ Holds self' (l.eraseIdx u) := by
  have hwords := h.words
  have hoffs := h.offs_lt hu
  obtain ⟨w', self', hrun, hsize, hlength, hlow, hw'⟩ :=
    eraseWords_ok ((l.length + 31) / 32 - (u / 32 + 1)) (u / 32 + 1) _ self (by omega) (by omega)
      (by omega) (fun k hk => by rw [erased, if_pos (by omega)])
      (fun _ hj => getLsbD_eraseWord self u hj)
      fun k hk => rfl
  have hlast : (l.length + 31) / 32 - 1 < self'.bits.length := by omega
  have hshape : Shape ⟨self'.bits.set ((l.length + 31) / 32 - 1) w', self'.realSize⟩ l.length :=
    ⟨hsize.trans h.realSize, (List.length_set).trans (hlength.trans hwords)⟩
  have hnonneg : 0 ≤ (self'.realSize : ℤ) - 1 := by
    rw [hsize, h.realSize]
    omega
  have hsub : ((self'.realSize : ℤ) - 1).toNat = l.length - 1 := by
    rw [hsize, h.realSize]
    omega
  obtain ⟨self'', hresize, hshape'', hbits, -⟩ := resize_ok hshape hnonneg
  rw [hsub] at hshape'' hbits
  have hlength' : (l.eraseIdx u).length = l.length - 1 := List.length_eraseIdx_of_lt hu
  refine ⟨self'', ?_, hlength'.symm ▸ hshape'', fun k hk => ?_⟩
  · dsimp only [BoolArray.erase]
    rw [huint, h.realSize, if_neg (not_le.mpr hu), word_ok hoffs, Outcome.bind_ok,
      h.realSize, hrun, Outcome.bind_ok, setWord_ok hlast, Outcome.bind_ok]
    exact hresize
  · rw [hlength'] at hk
    have hlt := Nat.mod_lt k (show 32 > 0 by decide)
    have hkbit : bitAt ⟨self'.bits.set ((l.length + 31) / 32 - 1) w', self'.realSize⟩ k =
        erased self.bitAt u k := by
      rw [bitAt_set hlast]
      by_cases hword : k / 32 = (l.length + 31) / 32 - 1
      · rw [if_pos hword, hw' _ hlt, if_pos (by omega)]
        exact congrArg _ (by omega)
      · rw [if_neg hword]
        exact hlow k (by omega)
    rw [hbits k hk, hkbit, decide_eq_true (by omega), Bool.true_and, List.getElem?_eraseIdx, erased]
    split_ifs
    · exact h.bits k (by omega)
    · exact h.bits (k + 1) (by omega)

/-! ## Inserting -/

/-- The bits with `v` put in at `u`. -/
def inserted (b : ℕ → Bool) (u : ℕ) (v : Bool) (k : ℕ) : Bool :=
  if k < u then b k else if k = u then v else b (k - 1)

theorem getLsbD_topBit (self : BoolArray) (offs j : ℕ) :
    (self.bits.getD offs 0#32 >>> 31).getLsbD j =
      (decide (j = 0) && self.bitAt (32 * (offs + 1) - 1)) := by
  rw [BitVec.getLsbD_ushiftRight]
  by_cases hzero : j = 0
  · rw [hzero, decide_eq_true rfl, Bool.true_and, bitAt_word _ _ (by decide)]
    exact congrArg _ (by omega)
  · rw [decide_eq_false hzero, Bool.false_and]
    exact BitVec.getLsbD_of_ge _ _ (by omega)

theorem getLsbD_carried (self : BoolArray) (o : ℕ) {carryBit : BitVec 32} {c : Bool}
    (hcarry : ∀ j < 32, carryBit.getLsbD j = (decide (j = 0) && c)) {j : ℕ} (hj : j < 32) :
    (((self.bits.getD o 0#32 &&& below 31) <<< 1) ||| carryBit).getLsbD j =
      if j = 0 then c else self.bitAt (32 * o + (j - 1)) := by
  rw [BitVec.getLsbD_or, hcarry j hj, BitVec.getLsbD_shiftLeft, BitVec.getLsbD_and,
    getLsbD_below (by decide), bitAt_word _ _ (by omega), decide_eq_true hj]
  by_cases hzero : j = 0
  · simp [hzero]
  · rw [if_neg hzero, decide_eq_false hzero, decide_eq_false (show ¬ j < 1 by omega),
      decide_eq_true (show j - 1 < 31 by omega)]
    simp

theorem insertWords_ok {b : ℕ → Bool} {u : ℕ} {v : Bool} (n : ℕ) : ∀ (o : ℕ)
    (carryBit : BitVec 32) (self : BoolArray), 1 ≤ o → u < 32 * o → o + n = self.bits.length →
    (∀ k < 32 * o, self.bitAt k = inserted b u v k) →
    (∀ j < 32, carryBit.getLsbD j = (decide (j = 0) && b (32 * o - 1))) →
    (∀ k, 32 * o ≤ k → self.bitAt k = b k) →
    ∃ (carryBit' : BitVec 32) (self' : BoolArray),
      insertWords (List.range' o n) carryBit self = .ok carryBit' self' ∧
      self'.realSize = self.realSize ∧ self'.bits.length = self.bits.length ∧
      (∀ k < 32 * self.bits.length, self'.bitAt k = inserted b u v k) ∧
      ∀ j < 32, carryBit'.getLsbD j =
        (decide (j = 0) && b (32 * self.bits.length - 1)) := by
  induction n with
  | zero =>
    intro o carryBit self _ _ ho hlow hcarry _
    rw [Nat.add_zero] at ho
    subst ho
    exact ⟨carryBit, self, rfl, rfl, rfl, hlow, hcarry⟩
  | succ n ih =>
    intro o carryBit self hone hu ho hlow hcarry hhigh
    have hoffs : o < self.bits.length := by omega
    let stored : BoolArray :=
      ⟨self.bits.set o (((self.bits.getD o 0#32 &&& below 31) <<< 1) ||| carryBit), self.realSize⟩
    have hstored : ∀ k, stored.bitAt k = if k / 32 = o then
        (((self.bits.getD o 0#32 &&& below 31) <<< 1) ||| carryBit).getLsbD (k % 32)
        else self.bitAt k := bitAt_set hoffs _ _
    have hlength : stored.bits.length = self.bits.length := List.length_set
    have hlow' : ∀ k < 32 * (o + 1), stored.bitAt k = inserted b u v k := by
      intro k hk
      have hlt := Nat.mod_lt k (show 32 > 0 by decide)
      rw [hstored]
      by_cases hword : k / 32 = o
      · have hshifted : inserted b u v k = b (k - 1) := by
          rw [inserted, if_neg (by omega), if_neg (by omega)]
        rw [if_pos hword, getLsbD_carried _ _ hcarry hlt, hhigh _ (by omega), hshifted]
        split_ifs <;> exact congrArg b (by omega)
      · rw [if_neg hword]
        exact hlow k (by omega)
    have hcarry' : ∀ j < 32, (self.bits.getD o 0#32 >>> 31).getLsbD j =
        (decide (j = 0) && b (32 * (o + 1) - 1)) := by
      intro j _
      rw [getLsbD_topBit, hhigh _ (by omega)]
    have hhigh' : ∀ k, 32 * (o + 1) ≤ k → stored.bitAt k = b k := by
      intro k hk
      rw [hstored, if_neg (by omega)]
      exact hhigh k (by omega)
    obtain ⟨carryBit', self', hrun, hsize, hwords, hbits, hlast⟩ := ih (o + 1) _ stored (by omega)
      (by omega) (by omega) hlow' hcarry' hhigh'
    rw [hlength] at hwords hbits hlast
    refine ⟨carryBit', self', ?_, hsize, hwords, hbits, hlast⟩
    rw [List.range'_succ, insertWords, word_ok hoffs, Outcome.bind_ok, setWord_ok hoffs,
      Outcome.bind_ok, hrun]

theorem getLsbD_insert (w : BitVec 32) {s : ℕ} (hs : s < 32) (v : Bool) {j : ℕ} (hj : j < 32) :
    ((w &&& below s) ||| (if v then flag s else 0#32) ||| ((w &&& ~~~below s) <<< 1)).getLsbD j =
      if j < s then w.getLsbD j else if j = s then v else w.getLsbD (j - 1) := by
  have hset : (if v then flag s else 0#32).getLsbD j = (v && decide (j = s)) := by
    cases v with
    | true => exact (getLsbD_flag hj).trans (Bool.true_and _).symm
    | false => exact BitVec.getLsbD_zero
  rw [BitVec.getLsbD_or, BitVec.getLsbD_or, hset, BitVec.getLsbD_and, getLsbD_below hs,
    BitVec.getLsbD_shiftLeft, BitVec.getLsbD_and, BitVec.getLsbD_not, getLsbD_below hs]
  rcases lt_trichotomy j s with hjs | rfl | hjs
  · have hprev : j - 1 < s := by omega
    simp [hjs, hjs.ne, hprev]
  · rcases Nat.eq_zero_or_pos j with rfl | hpos
    · simp
    · have hprev : j - 1 < j := by omega
      simp [hprev]
  · have hprev : ¬ j - 1 < s := by omega
    have hone : ¬ j < 1 := by omega
    have hlt : j - 1 < 32 := by omega
    simp [hjs.not_gt, hjs.ne', hprev, hj, hone, hlt]

theorem bitAt_insertWord {u : ℕ} (hoffs : u / 32 < self.bits.length) (v : Bool) (k : ℕ) :
    bitAt ⟨self.bits.set (u / 32) ((self.bits.getD (u / 32) 0#32 &&& below (u % 32)) |||
      (if v then flag (u % 32) else 0#32) |||
      ((self.bits.getD (u / 32) 0#32 &&& ~~~below (u % 32)) <<< 1)), self.realSize⟩ k =
      if k / 32 = u / 32 then inserted self.bitAt u v k else self.bitAt k := by
  have hmod := Nat.mod_lt u (show 32 > 0 by decide)
  have hlt := Nat.mod_lt k (show 32 > 0 by decide)
  rw [bitAt_set hoffs, getLsbD_insert _ hmod v hlt, inserted]
  by_cases hword : k / 32 = u / 32
  · rw [if_pos hword, if_pos hword]
    rcases lt_trichotomy k u with hku | rfl | hku
    · rw [if_pos (by omega), if_pos hku, bitAt_word _ _ hlt]
      exact congrArg _ (by omega)
    · rw [if_neg (lt_irrefl _), if_pos rfl, if_neg (lt_irrefl _), if_pos rfl]
    · rw [if_neg (by omega), if_neg (by omega), if_neg (by omega), if_neg (by omega),
        bitAt_word _ _ (by omega)]
      exact congrArg _ (by omega)
  · rw [if_neg hword, if_neg hword]

theorem Holds.insert {index : ℤ} {u : ℕ} (h : Holds self l) (hu : u < l.length)
    (huint : uint index = u) (v : Bool) :
    ∃ self', BoolArray.insert index v self = .ok () self' ∧ Holds self' (l.insertIdx u v) := by
  have hnonneg : 0 ≤ (self.realSize : ℤ) + 1 := by omega
  have hsucc : ((self.realSize : ℤ) + 1).toNat = l.length + 1 := by
    rw [h.realSize]
    omega
  obtain ⟨grown, hresize, hshape, hbits, htail⟩ := resize_ok h.toShape hnonneg
  rw [hsucc] at hshape hbits htail
  rw [h.realSize] at hresize
  have hwords := hshape.words
  have hoffs : u / 32 < grown.bits.length := hshape.offs_lt (by omega)
  let w := grown.bits.getD (u / 32) 0#32
  let started : BoolArray :=
    ⟨grown.bits.set (u / 32) ((w &&& below (u % 32)) ||| (if v then flag (u % 32) else 0#32) |||
      ((w &&& ~~~below (u % 32)) <<< 1)), grown.realSize⟩
  have hstarted := bitAt_insertWord hoffs v
  have hlength : started.bits.length = grown.bits.length := List.length_set
  have hlow : ∀ k < 32 * (u / 32 + 1), started.bitAt k = inserted grown.bitAt u v k := by
    intro k hk
    refine (hstarted k).trans ?_
    split_ifs with hword
    · rfl
    · rw [inserted, if_pos (by omega)]
  have hhigh : ∀ k, 32 * (u / 32 + 1) ≤ k → started.bitAt k = grown.bitAt k :=
    fun k hk => (hstarted k).trans (if_neg (by omega))
  obtain ⟨carryBit, self', hrun, hsize, hlength', hinserted, hcarryBit⟩ :=
    insertWords_ok ((l.length + 1 + 31) / 32 - (u / 32 + 1)) (u / 32 + 1) _ started (by omega)
      (by omega) (by omega) hlow (fun j _ => getLsbD_topBit grown (u / 32) j) hhigh
  -- behind the last element there is nothing left over, so that nothing is given up at the end
  have hzero : carryBit = 0#32 := by
    refine BitVec.eq_of_getLsbD_eq fun j hj => ?_
    rw [hcarryBit j hj, htail (by omega) _ (by omega), Bool.and_false, BitVec.getLsbD_zero]
  have hlast : (l.length + 1 + 31) / 32 - 1 < self'.bits.length := by omega
  have hinsertIdx : (l.insertIdx u v).length = l.length + 1 :=
    List.length_insertIdx_of_le_length hu.le v
  refine ⟨⟨self'.bits.set ((l.length + 1 + 31) / 32 - 1)
    (self'.bits.getD ((l.length + 1 + 31) / 32 - 1) 0#32 ||| carryBit), self'.realSize⟩, ?_,
    ⟨?_, ?_⟩, fun k hk => ?_⟩
  · have hnotall : ¬ u = l.length := hu.ne
    have hstep : setWord (u / 32) ((w &&& below (u % 32)) |||
        (if v then flag (u % 32) else 0#32) ||| ((w &&& ~~~below (u % 32)) <<< 1)) grown =
        .ok () started := setWord_ok hoffs _
    dsimp only [BoolArray.insert]
    rw [huint, h.realSize, if_neg (not_lt.mpr hu.le), if_neg hnotall, hresize,
      Outcome.bind_ok, word_ok hoffs, Outcome.bind_ok, hstep, Outcome.bind_ok]
    change (insertWords (List.range' (u / 32 + 1) ((grown.realSize + 31) / 32 - (u / 32 + 1)))
      (w >>> 31) started).bind (fun carryBit =>
        updateWord ((grown.realSize + 31) / 32 - 1) (· ||| carryBit)) = _
    rw [hshape.realSize, hrun, Outcome.bind_ok, updateWord_ok hlast]
  · rw [hinsertIdx]
    exact hsize.trans hshape.realSize
  · rw [hinsertIdx]
    exact (List.length_set).trans (by omega)
  · rw [hinsertIdx] at hk
    have hlt := Nat.mod_lt k (show 32 > 0 by decide)
    have hkbit : bitAt ⟨self'.bits.set ((l.length + 1 + 31) / 32 - 1)
        (self'.bits.getD ((l.length + 1 + 31) / 32 - 1) 0#32 ||| carryBit), self'.realSize⟩ k =
        inserted grown.bitAt u v k := by
      rw [bitAt_set hlast, hzero, BitVec.or_zero, ← hinserted k (by omega)]
      split_ifs with hword
      · rw [bitAt_word _ _ hlt]
        exact congrArg _ (by omega)
      · rfl
    rw [hkbit, List.getElem?_insertIdx, inserted]
    split_ifs with hku hku' hle
    · rw [hbits k hk, decide_eq_true (by omega), Bool.true_and]
      exact h.bits k (by omega)
    · rfl
    · exact absurd hu.le (by omega)
    · rw [hbits (k - 1) (by omega), decide_eq_true (by omega), Bool.true_and]
      exact h.bits (k - 1) (by omega)

/-! ## Reports -/

/-- A list as `to_string` writes it. -/
def report : List Bool → String
  | [] => "[]"
  | value :: l =>
    "[" ++ nameOf value ++ String.join (l.map fun value => ", " ++ nameOf value) ++ "]"

theorem length_ok (h : Holds self l) : length self = l.length := congrArg Nat.cast h.realSize

theorem writeBits_ok (h : Holds self l) (hl : l.length < 2 ^ 31) (n : ℕ) : ∀ (bit : ℕ)
    (written : String), bit ≠ 0 → bit + n = l.length →
    writeBits n bit written self =
      .ok (written ++ String.join ((l.drop bit).map fun value => ", " ++ nameOf value)) self := by
  induction n with
  | zero =>
    intro bit written _ hbit
    rw [List.drop_eq_nil_of_le (by omega), writeBits, List.map_nil, String.join_nil,
      String.append_empty]
  | succ n ih =>
    intro bit written hbit hn
    have hlt : bit < l.length := by omega
    have huint : uint (bit : ℤ) = bit := by
      rw [uint]
      omega
    rw [writeBits, get_ok h hlt huint, Outcome.bind_ok, if_pos hbit,
      ih (bit + 1) _ (Nat.succ_ne_zero _) (by omega), List.drop_eq_getElem_cons hlt, List.map_cons,
      String.join_cons, List.getD_eq_getElem _ _ hlt]
    simp only [String.append_assoc]

theorem toString_ok (h : Holds self l) (hl : l.length < 2 ^ 31) :
    toString self = .ok (report l) self := by
  rw [toString, h.realSize]
  cases l with
  | nil => rfl
  | cons value l =>
    have huint : uint ((0 : ℕ) : ℤ) = 0 := rfl
    rw [List.length_cons, writeBits, get_ok h (Nat.succ_pos _) huint, Outcome.bind_ok,
      writeBits_ok h hl l.length 1 _ one_ne_zero (Nat.add_comm _ _), Outcome.bind_ok]
    rfl

/-! ## Runs -/

/-- **The same call of a list of booleans**: the list it leaves and what it returns, unless it is
out of range. -/
def listCall : Op → List Bool → Option (List Bool × Option Bool)
  | .push value, l => some (l ++ [value], none)
  | .pushAt value at', l => (place at' (l.length + 1)).map fun k => (l.insertIdx k value, none)
  | .pop, l => l.getLast?.map fun value => (l.dropLast, some value)
  | .insert index value, l => (place index (l.length + 1)).map fun k => (l.insertIdx k value, none)
  | .erase index, l => (place index l.length).map fun k => (l.eraseIdx k, none)
  | .resize newSize, l => if (newSize : ℤ) < 0 then none else
      some (resized (newSize : ℤ).toNat l, none)
  | .clear, _ => some ([], none)
  | .reserve capacity, l => if (capacity : ℤ) < 0 then none else some (l, none)
  | .get index, l => (place index l.length).map fun k => (l, some (l.getD k false))
  | .assign index value, l => (place index l.length).map fun k => (l.set k value, none)
  | .xorAssign index value, l =>
    (place index l.length).map fun k => (l.set k (l.getD k false ^^ value), none)
  | .andAssign index value, l =>
    (place index l.length).map fun k => (l.set k (l.getD k false && value), none)
  | .orAssign index value, l =>
    (place index l.length).map fun k => (l.set k (l.getD k false || value), none)

/-- **The call does what it does to the list** — it panics and leaves everything as it was where
the call of the list is out of range. -/
def Same (op : Op) (self : BoolArray) (l : List Bool) : Prop :=
  match listCall op l with
  | some (l', r) => ∃ self', call op self = .ok r self' ∧ Holds self' l'
  | none => ∃ message, call op self = .error (.throw message) self

/-- An assignment that combines, of a value that changes nothing, is in range. -/
def Checked (op : Op) (n : ℕ) : Prop :=
  match op with
  | .xorAssign index value => value = true ∨ (place index n).isSome
  | .andAssign index value => value = false ∨ (place index n).isSome
  | .orAssign index value => value = true ∨ (place index n).isSome
  | _ => True

/-- The list after a call. -/
def after (op : Op) (l : List Bool) : List Bool := ((listCall op l).map Prod.fst).getD l

/-- **A run** from an empty array, and from an empty list: a panic is recovered from, and lengths
stay below 2³¹. -/
inductive Runs : BoolArray → List Bool → Prop
  | empty : Runs BoolArray.empty []
  | call {self : BoolArray} {l : List Bool} (op : Op) (hruns : Runs self l)
      (hchecked : Checked op l.length) (hlength : (after op l).length < 2 ^ 31) :
      Runs (BoolArray.call op self).state (after op l)

theorem same_update {index : Index} (h : Holds self l) (hl : l.length < 2 ^ 31)
    {f : BitVec 32 → BitVec 32 → BitVec 32} {v : Bool → Bool}
    (hf : ∀ (b : ℕ) (w : BitVec 32), b < 32 → ∀ j < 32,
      (f (flag b) w).getLsbD j = if j = b then v (w.getLsbD b) else w.getLsbD j) :
    match (place index l.length).map fun k => (l.set k (v (l.getD k false)), none) with
    | some (l', r) => ∃ self', void (atIndex index fun offs mask => updateWord offs (f mask)) self =
        .ok r self' ∧ Holds self' l'
    | none => ∃ message, void (atIndex index fun offs mask => updateWord offs (f mask)) self =
        .error (.throw message) self := by
  cases hplace : place index l.length with
  | none =>
    rw [Option.map_none]
    refine ⟨s!"index out of range, {(index : ℤ)}", ?_⟩
    rw [void, atIndex_outOfRange h (place_eq_none hl hplace)]
    rfl
  | some k =>
    obtain ⟨hk, huint, -⟩ := place_eq_some hplace
    obtain ⟨self', hcall, hholds⟩ := update_ok h hk huint (f := f) (v := v (l.getD k false))
      fun w hw j hj => by rw [hf _ _ (Nat.mod_lt k (by decide)) j hj, hw]
    rw [Option.map_some]
    exact ⟨self', by rw [void, hcall, Outcome.bind_ok], hholds⟩

theorem same_nothing {index : ℤ} {v : Bool → Bool} (h : Holds self l) (hv : ∀ b, v b = b)
    (hplace : (place index l.length).isSome) :
    match (place index l.length).map fun k => (l.set k (v (l.getD k false)), none) with
    | some (l', r) => ∃ self', void (Outcome.ok ()) self = .ok r self' ∧ Holds self' l'
    | none => ∃ message, void (Outcome.ok ()) self = .error (.throw message) self := by
  obtain ⟨k, hk⟩ := Option.isSome_iff_exists.mp hplace
  have hlt : k < l.length := by
    rw [place] at hk
    split_ifs at hk with hin
    obtain rfl := Option.some.inj hk
    omega
  rw [hk, Option.map_some]
  refine ⟨self, rfl, ?_⟩
  rw [hv, List.getD_eq_getElem _ _ hlt, List.set_getElem_self]
  exact h

theorem same_insert (h : Holds self l) (hl : l.length < 2 ^ 31) (index : Index) (value : Bool) :
    match (place index (l.length + 1)).map
      fun k => (l.insertIdx k value, (none : Option Bool)) with
    | some (l', r) => ∃ self', void (BoolArray.insert index value) self = .ok r self' ∧
        Holds self' l'
    | none => ∃ message, void (BoolArray.insert index value) self =
        .error (.throw message) self := by
  cases hplace : place index (l.length + 1) with
  | none =>
    have huint : l.length < uint index := by
      by_contra hle
      have hnonneg : 0 ≤ (index : ℤ) := by
        by_contra hneg
        have := uint_of_neg index.2 (not_le.mp hneg)
        omega
      have heq := uint_of_nonneg index.2 hnonneg
      rw [place, if_pos ⟨hnonneg, by omega⟩] at hplace
      cases hplace
    refine ⟨s!"index out of range, {(index : ℤ)}", ?_⟩
    dsimp only [void, BoolArray.insert]
    rw [h.realSize, if_pos huint]
    rfl
  | some k =>
    obtain ⟨hk, huint, -⟩ := place_eq_some hplace
    rw [Option.map_some]
    by_cases hend : k = l.length
    · obtain ⟨self', hpush, hholds⟩ := h.push value
      refine ⟨self', ?_, ?_⟩
      · dsimp only [void, BoolArray.insert]
        rw [h.realSize, huint, if_neg (by omega), if_pos hend, hpush, Outcome.bind_ok]
      · rw [hend, List.insertIdx_length_self]
        exact hholds
    · obtain ⟨self', hrun, hholds⟩ := h.insert (by omega) huint value
      exact ⟨self', by rw [void, hrun, Outcome.bind_ok], hholds⟩

theorem Holds.same (h : Holds self l) (hl : l.length < 2 ^ 31) {op : Op}
    (hchecked : Checked op l.length) : Same op self l := by
  cases op with
  | push value =>
    obtain ⟨self', hpush, hholds⟩ := h.push value
    exact ⟨self', by rw [call, void, hpush, Outcome.bind_ok], hholds⟩
  | pushAt value at' =>
    by_cases hend : (at' : ℤ) = l.length
    · obtain ⟨self', hpush, hholds⟩ := h.push value
      have hplace : place at' (l.length + 1) = some l.length := by
        rw [place, if_pos (by omega), hend, Int.toNat_natCast]
      rw [Same, listCall, hplace, Option.map_some, List.insertIdx_length_self]
      refine ⟨self', ?_, hholds⟩
      dsimp only [call, void, pushAt]
      rw [h.realSize, if_neg (not_not.mpr hend), hpush, Outcome.bind_ok]
    · have hcall : call (.pushAt value at') self = void (BoolArray.insert at' value) self := by
        dsimp only [call, void, pushAt]
        rw [h.realSize, if_pos hend]
      rw [Same, hcall]
      exact same_insert h hl at' value
  | pop =>
    by_cases hne : l = []
    · subst hne
      refine ⟨"pop from empty BoolArray", ?_⟩
      rw [call, returning, BoolArray.pop, h.realSize]
      rfl
    · obtain ⟨self', hpop, hholds⟩ := h.pop hne hl
      rw [Same, listCall, List.getLast?_eq_some_getLast hne, Option.map_some]
      exact ⟨self', by rw [call, returning, hpop, Outcome.bind_ok], hholds⟩
  | insert index value => exact same_insert h hl index value
  | erase index =>
    rw [Same, listCall]
    cases hplace : place index l.length with
    | none =>
      refine ⟨s!"index out of range, {(index : ℤ)}", ?_⟩
      dsimp only [call, void, BoolArray.erase]
      rw [h.realSize, if_pos (place_eq_none hl hplace)]
      rfl
    | some k =>
      obtain ⟨hk, huint, -⟩ := place_eq_some hplace
      obtain ⟨self', hrun, hholds⟩ := h.erase hk huint
      exact ⟨self', by rw [call, void, hrun, Outcome.bind_ok], hholds⟩
  | resize newSize =>
    rw [Same, listCall]
    by_cases hneg : (newSize : ℤ) < 0
    · rw [if_pos hneg]
      refine ⟨"assert failed", ?_⟩
      rw [call, void, BoolArray.resize, if_pos hneg]
      rfl
    · obtain ⟨self', hrun, hholds⟩ := h.resize (not_lt.mp hneg)
      rw [if_neg hneg]
      exact ⟨self', by rw [call, void, hrun, Outcome.bind_ok], hholds⟩
  | clear => exact ⟨BoolArray.empty, rfl, holds_empty⟩
  | reserve capacity =>
    rw [Same, listCall]
    by_cases hneg : (capacity : ℤ) < 0
    · rw [if_pos hneg]
      refine ⟨"assert failed", ?_⟩
      rw [call, void, reserve, if_pos hneg]
      rfl
    · rw [if_neg hneg]
      refine ⟨self, ?_, h⟩
      rw [call, void, reserve, if_neg hneg, Outcome.bind_ok]
  | get index =>
    rw [Same, listCall]
    cases hplace : place index l.length with
    | none =>
      refine ⟨s!"index out of range, {(index : ℤ)}", ?_⟩
      rw [call, returning, get, atIndex_outOfRange h (place_eq_none hl hplace)]
      rfl
    | some k =>
      obtain ⟨hk, huint, -⟩ := place_eq_some hplace
      rw [Option.map_some]
      exact ⟨self, by rw [call, returning, get_ok h hk huint, Outcome.bind_ok], h⟩
  | assign index value =>
    exact same_update (v := fun _ => value) h hl fun b w _ j hj => getLsbD_put w b value hj
  | xorAssign index value =>
    cases value with
    | true =>
      refine same_update (f := fun mask w => w ^^^ mask) (v := (· ^^ true)) h hl
        fun b w _ j hj => ?_
      rw [getLsbD_xor_flag w b hj, Bool.xor_true]
    | false =>
      exact same_nothing (v := (· ^^ false)) h Bool.xor_false
        (hchecked.resolve_left Bool.false_ne_true)
  | andAssign index value =>
    cases value with
    | true =>
      exact same_nothing (v := (· && true)) h Bool.and_true
        (hchecked.resolve_left Bool.true_eq_false_eq_False)
    | false =>
      refine same_update (f := fun mask w => w &&& ~~~mask) (v := (· && false)) h hl
        fun b w _ j hj => ?_
      rw [getLsbD_and_not_flag w b hj, Bool.and_false]
  | orAssign index value =>
    cases value with
    | true =>
      refine same_update (f := fun mask w => w ||| mask) (v := (· || true)) h hl
        fun b w _ j hj => ?_
      rw [getLsbD_or_flag w b hj, Bool.or_true]
    | false =>
      exact same_nothing (v := (· || false)) h Bool.or_false
        (hchecked.resolve_left Bool.false_ne_true)

theorem not_same {op : Op} (hchecked : ¬ Checked op l.length) :
    call op self = .ok none self ∧ listCall op l = none := by
  cases op with
  | xorAssign index value =>
    obtain ⟨hvalue, hplace⟩ := not_or.mp hchecked
    obtain rfl := Bool.eq_false_of_not_eq_true hvalue
    exact ⟨rfl, by rw [listCall, Option.not_isSome_iff_eq_none.mp hplace, Option.map_none]⟩
  | andAssign index value =>
    obtain ⟨hvalue, hplace⟩ := not_or.mp hchecked
    obtain rfl := Bool.eq_true_of_not_eq_false hvalue
    exact ⟨rfl, by rw [listCall, Option.not_isSome_iff_eq_none.mp hplace, Option.map_none]⟩
  | orAssign index value =>
    obtain ⟨hvalue, hplace⟩ := not_or.mp hchecked
    obtain rfl := Bool.eq_false_of_not_eq_true hvalue
    exact ⟨rfl, by rw [listCall, Option.not_isSome_iff_eq_none.mp hplace, Option.map_none]⟩
  | _ => exact absurd trivial hchecked

theorem same_iff (h : Holds self l) (hl : l.length < 2 ^ 31) (op : Op) :
    Same op self l ↔ Checked op l.length := by
  refine ⟨fun hsame => ?_, h.same hl⟩
  by_contra hchecked
  have hskip : call op self = .ok none self ∧ listCall op l = none := not_same hchecked
  obtain ⟨hcall, hlist⟩ := hskip
  rw [Same, hlist] at hsame
  obtain ⟨message, herror⟩ := hsame
  rw [hcall] at herror
  cases herror

theorem Runs.holds (h : Runs self l) : Holds self l ∧ l.length < 2 ^ 31 := by
  induction h with
  | empty => exact ⟨holds_empty, by decide⟩
  | @call self l op _ hchecked hlength ih =>
    have hsame := ih.1.same ih.2 hchecked
    refine ⟨?_, hlength⟩
    rw [Same] at hsame
    rw [after] at hlength ⊢
    cases hlist : listCall op l with
    | none =>
      rw [hlist] at hsame
      obtain ⟨message, hcall⟩ := hsame
      rw [hcall]
      exact ih.1
    | some p =>
      obtain ⟨l', r⟩ := p
      rw [hlist] at hsame
      obtain ⟨self', hcall, hholds⟩ := hsame
      rw [hcall]
      exact hholds

end BoolArray

end DaScript
