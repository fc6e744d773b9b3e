import DaScript.Daslib.Algorithm
import DaScript.Foundations.Machine
import DaScript.Machinery.Arrays

/-!
# Daslib/BinarySearch — bounds in a range that is sorted

`lower_bound`, `upper_bound`, `equal_range` and `binary_search` of `daslib/algorithm.das`, with the
elements they look at.  All go through one loop (`bound`), which looks for where a test ends to
hold.

`less` is a block or, for the functions without one, the operator `<` of the type.
-/

namespace DaScript.BinarySearch

open Algorithm Arrays

variable {α : Type}

/-- What a call returns; its state is the indices it has looked at, the last first. -/
abbrev Call (ρ : Type) : Type := List ℤ → Outcome (List ℤ) ρ

/-- `length`, which is an `int`. -/
def length (a : List α) : Call ℤ := fun looked =>
  if 2 ^ 31 - 1 < a.length then .error (.verify "array size exceeds INT_MAX") looked
  else .ok a.length looked

def assert (cond : Bool) (message : String) : Call Unit := fun looked =>
  if cond then .ok () looked else .error (.throw s!"assert failed, {message}") looked

/-- `a[i]` -/
def fetch (a : List α) (i : ℤ) : Call α := fun looked =>
  match if 0 ≤ i then a[i.toNat]? else none with
  | some x => .ok x (i :: looked)
  | none => .error (.throw "array index out of range") (i :: looked)

/-- `while (count > 0)`, with `test` of `a[it]`.  It is halved, so `fuel` of it is enough. -/
def boundFrom (test : α → Bool) (a : List α) : ℕ → ℤ → ℤ → Call ℤ
  | 0, first, count, looked =>
    if 0 < count then .error (.hang "while (count > 0)") looked else .ok first looked
  | fuel + 1, first, count, looked =>
    if 0 < count then
      let step := count.tdiv 2
      let it := first + step
      (fetch a it looked).bind fun x looked =>
        if test x then boundFrom test a fuel (first + (step + 1)) (count - (step + 1)) looked
        else boundFrom test a fuel first step looked
    else .ok first looked

/-- The two bounds of a range, but for the test and the messages. -/
def bound (name : String) (test : α → Bool) (a : List α) (f l : ℤ) : Call ℤ := fun looked =>
  (assert (decide (f ≥ 0 ∧ f ≤ l)) s!"{name} bound first out of range" looked).bind fun _ looked =>
    (length a looked).bind fun n looked =>
      (assert (decide (l ≥ f ∧ l ≤ n)) s!"{name} bound last out of range" looked).bind
        fun _ looked => boundFrom test a (l - f).toNat f (l - f) looked

/-- On the whole array. -/
def whole {ρ : Type} (a : List α) (call : ℤ → ℤ → Call ρ) : Call ρ := fun looked =>
  (length a looked).bind fun n looked => call 0 n looked

section Functions

variable (less : α → α → Bool) (a : List α) (f l : ℤ) (val : α)

/-- `lower_bound(a, f, l, val)` -/
def lowerBound : Call ℤ := bound "lower" (fun x => less x val) a f l

/-- `lower_bound(a, val)` -/
def lowerBoundAll : Call ℤ := whole a fun f l => lowerBound less a f l val

/-- `lower_bound(a, f, l, value, less)`; the value need not be of the type of the elements. -/
def lowerBoundBy {β : Type} (less : α → β → Bool) (a : List α) (f l : ℤ) (value : β) : Call ℤ :=
  bound "lower" (fun x => less x value) a f l

/-- `lower_bound(a, value, less)` -/
def lowerBoundAllBy {β : Type} (less : α → β → Bool) (a : List α) (value : β) : Call ℤ :=
  whole a fun f l => lowerBoundBy less a f l value

/-- `upper_bound(a, f, l, val)` -/
def upperBound : Call ℤ := bound "upper" (fun x => !less val x) a f l

/-- `upper_bound(a, val)` -/
def upperBoundAll : Call ℤ := whole a fun f l => upperBound less a f l val

/-- `upper_bound(a, f, l, value, less)` -/
def upperBoundBy : Call ℤ := bound "upper" (fun x => !less val x) a f l

/-- `upper_bound(a, value, less)` -/
def upperBoundAllBy : Call ℤ := whole a fun f l => upperBoundBy less a f l val

/-- `equal_range(a, f, l, val)` -/
def equalRange : Call (ℤ × ℤ) := fun looked =>
  (lowerBound less a f l val looked).bind fun lo looked =>
    (upperBound less a f l val looked).bind fun hi looked => .ok (lo, hi) looked

/-- `equal_range(a, val)` -/
def equalRangeAll : Call (ℤ × ℤ) := fun looked =>
  (lowerBoundAll less a val looked).bind fun lo looked =>
    (upperBoundAll less a val looked).bind fun hi looked => .ok (lo, hi) looked

/-- `(first != last) && (!(val < a[first]))` -/
def notBelow (last first : ℤ) : Call Bool := fun looked =>
  if first ≠ last then (fetch a first looked).bind fun x looked => .ok (!less val x) looked
  else .ok false looked

/-- `binary_search(a, f, last, val)` -/
def binarySearch : Call Bool := fun looked =>
  (lowerBound less a f l val looked).bind fun first looked => notBelow less a val l first looked

/-- `binary_search(a, val)` -/
def binarySearchAll : Call Bool := fun looked =>
  (lowerBoundAll less a val looked).bind fun first looked =>
    (length a looked).bind fun last looked => notBelow less a val last first looked

/-- `binary_search(a, f, last, val, less)` -/
def binarySearchBy : Call Bool := fun looked =>
  (lowerBoundBy less a f l val looked).bind fun first looked => notBelow less a val l first looked

/-- `binary_search(a, val, less)` -/
def binarySearchAllBy : Call Bool := fun looked =>
  (lowerBoundAllBy less a val looked).bind fun first looked =>
    (length a looked).bind fun last looked => notBelow less a val last first looked

end Functions

/-! ## The loop -/

/-- **A call finds something** and looks at elements of the range only. -/
def Finds {ρ : Type} (call : Call ρ) (f l : ℤ) (r : ρ) : Prop :=
  ∀ looked, ∃ more, call looked = .ok r (more ++ looked) ∧ ∀ i ∈ more, f ≤ i ∧ i < l

section Finds

variable {ρ σ : Type} {f l : ℤ} {r : ρ} {s : σ} {a : List α}

theorem finds_pure (r : ρ) : Finds (.ok r) f l r := fun _ =>
  ⟨[], rfl, fun _ h => absurd h List.not_mem_nil⟩

theorem Finds.bind {call : Call ρ} {next : ρ → Call σ} (h : Finds call f l r)
    (hnext : Finds (next r) f l s) : Finds (fun looked => (call looked).bind next) f l s := by
  intro looked
  obtain ⟨more, hcall, hmore⟩ := h looked
  obtain ⟨more', hcall', hmore'⟩ := hnext (more ++ looked)
  refine ⟨more' ++ more, ?_, fun i hi => (List.mem_append.mp hi).elim (hmore' i) (hmore i)⟩
  dsimp only
  rw [hcall, Outcome.bind_ok, hcall', List.append_assoc]

theorem finds_length (h : a.length < 2 ^ 31) : Finds (length a) f l (a.length : ℤ) := fun looked =>
  ⟨[], if_neg (by omega), fun _ h => absurd h List.not_mem_nil⟩

theorem finds_assert {cond : Bool} (h : cond = true) (message : String) :
    Finds (assert cond message) f l () := fun _ =>
  ⟨[], if_pos h, fun _ h => absurd h List.not_mem_nil⟩

theorem finds_fetch {i : ℕ} {x : α} (hx : a[i]? = some x) (hf : f ≤ i) (hl : (i : ℤ) < l) :
    Finds (fetch a i) f l x := fun looked =>
  ⟨[(i : ℤ)], by rw [fetch, if_pos (Int.natCast_nonneg i), Int.toNat_natCast, hx]; rfl,
    fun _ h => List.mem_singleton.mp h ▸ ⟨hf, hl⟩⟩

end Finds

variable {a : List α} {f l : ℕ}

theorem finds_boundFrom (test : α → Bool) {fuel first count : ℕ} (hfuel : count ≤ fuel)
    (hf : f ≤ first) (hl : first + count ≤ l) (hlength : l ≤ a.length) :
    Finds (boundFrom test a fuel first count) f l (lowerBoundFrom test a fuel first count : ℤ) := by
  induction fuel generalizing first count with
  | zero =>
    obtain rfl : count = 0 := by omega
    exact finds_pure _
  | succ fuel ih =>
    intro looked
    rw [boundFrom, lowerBoundFrom]
    by_cases hcount : 0 < count
    · have hit : first + count / 2 < a.length := by omega
      have hx := List.getElem?_eq_getElem hit
      have hstep : (count : ℤ).tdiv 2 = (count / 2 : ℕ) := rfl
      rw [if_pos (by omega), if_pos hcount]
      dsimp only
      rw [hstep, ← Nat.cast_add, hx, Option.any_some]
      refine Finds.bind (finds_fetch hx (by omega) (by omega)) ?_ looked
      by_cases htest : test a[first + count / 2] = true
      · have hrest : Finds (boundFrom test a fuel (first + (count / 2 + 1) : ℕ)
            (count - (count / 2 + 1) : ℕ)) f l _ := ih (by omega) (by omega) (by omega)
        simp only [if_pos htest]
        rw [show (first : ℤ) + ((count / 2 : ℕ) + 1) = (first + (count / 2 + 1) : ℕ) by omega,
          show (count : ℤ) - ((count / 2 : ℕ) + 1) = (count - (count / 2 + 1) : ℕ) by omega]
        exact hrest
      · simp only [if_neg htest]
        exact ih (by omega) hf (by omega)
    · rw [if_neg (by omega), if_neg hcount]
      exact finds_pure _ looked

theorem finds_bound {test : α → Bool} {k : ℕ} (name : String) (hlong : a.length < 2 ^ 31)
    (hfk : f ≤ k) (hkl : k ≤ l) (hl : l ≤ a.length)
    (hk : ∀ i x, f ≤ i → i < l → a[i]? = some x → (test x = true ↔ i < k)) :
    Finds (bound name test a f l) f l (k : ℤ) := by
  refine Finds.bind (finds_assert (decide_eq_true (by omega)) _) (Finds.bind (finds_length hlong)
    (Finds.bind (finds_assert (decide_eq_true (by omega)) _) ?_))
  have hcount : (l : ℤ) - f = (l - f : ℕ) := by omega
  have hloop := finds_boundFrom (a := a) test (le_refl (l - f)) (le_refl f)
    (by omega : f + (l - f) ≤ l) hl
  rw [lowerBoundFrom_eq (fun i x hi hi' => hk i x hi (by omega)) le_rfl hfk (by omega) (by omega)]
    at hloop
  rw [hcount, Int.toNat_natCast]
  exact hloop

theorem Finds.whole {ρ : Type} {call : ℤ → ℤ → Call ρ} {r : ρ} (hlong : a.length < 2 ^ 31)
    (h : Finds (call 0 a.length) 0 a.length r) : Finds (whole a call) 0 a.length r :=
  Finds.bind (finds_length hlong) h

/-! ## What is sorted -/

/-- The range is sorted. -/
def SortedIn (less : α → α → Bool) (a : List α) (f l : ℕ) : Prop :=
  ∀ i j x y, f ≤ i → i < j → j < l → a[i]? = some x → a[j]? = some y → AtMost less x y

/-- What holds of every element between two indices. -/
def AllIn (a : List α) (f l : ℕ) (p : α → Prop) : Prop :=
  ∀ i x, f ≤ i → i < l → a[i]? = some x → p x

theorem exists_end (test : α → Bool) (hfl : f ≤ l)
    (hdown : ∀ i j x y, f ≤ i → i < j → j < l → a[i]? = some x → a[j]? = some y →
      test y = true → test x = true) :
    ∃ k, f ≤ k ∧ k ≤ l ∧ ∀ i x, f ≤ i → i < l → a[i]? = some x → (test x = true ↔ i < k) := by
  induction l, hfl using Nat.le_induction with
  | base => exact ⟨f, le_rfl, le_rfl, fun i x hi hi' => absurd hi' (not_lt.mpr hi)⟩
  | succ l hfl ih =>
    obtain ⟨k, hfk, hkl, hk⟩ := ih fun i j x y hi hij hj => hdown i j x y hi hij (by omega)
    by_cases hlast : ∃ y, a[l]? = some y ∧ test y = true
    · obtain ⟨y, hy, htest⟩ := hlast
      refine ⟨l + 1, by omega, le_rfl, fun i x hi hi' hx => iff_of_true ?_ hi'⟩
      rcases (Nat.lt_succ_iff.mp hi').eq_or_lt with rfl | hlt
      · rw [hy] at hx
        exact Option.some.inj hx ▸ htest
      · exact hdown i l x y hi hlt (Nat.lt_succ_self l) hx hy htest
    · refine ⟨k, hfk, by omega, fun i x hi hi' hx => ?_⟩
      rcases (Nat.lt_succ_iff.mp hi').eq_or_lt with rfl | hlt
      · exact iff_of_false (fun htest => hlast ⟨x, hx, htest⟩) (by omega)
      · exact hk i x hi hlt hx

theorem end_unique {p : α → Prop} {k : ℕ} (hl : l ≤ a.length) (hfk : f ≤ k) (hkl : k ≤ l)
    (hk : ∀ i x, f ≤ i → i < l → a[i]? = some x → (p x ↔ i < k)) (k' : ℕ) :
    (f ≤ k' ∧ k' ≤ l ∧ AllIn a f k' p ∧ AllIn a k' l fun x => ¬ p x) ↔ k' = k := by
  constructor
  · rintro ⟨hfk', hkl', hbelow, habove⟩
    rcases lt_trichotomy k' k with hlt | heq | hlt
    · have hx := List.getElem?_eq_getElem (show k' < a.length by omega)
      exact absurd ((hk k' _ hfk' (by omega) hx).mpr hlt) (habove k' _ le_rfl (by omega) hx)
    · exact heq
    · have hx := List.getElem?_eq_getElem (show k < a.length by omega)
      exact absurd ((hk k _ hfk (by omega) hx).mp (hbelow k _ hfk hlt hx)) (lt_irrefl k)
  · rintro rfl
    exact ⟨hfk, hkl, fun i x hi hi' hx => (hk i x hi (by omega) hx).mpr hi',
      fun i x hi hi' hx => (hk i x (by omega) hi' hx).not.mpr (not_lt.mpr hi)⟩

/-! ## The family -/

section Family

variable (less : α → α → Bool) (val : α)

/-- Neither is less. -/
def Equivalent (x y : α) : Prop := less x y = false ∧ less y x = false

/-- The end of the elements that are less than the value. -/
def IsLowerBound (a : List α) (f l i : ℕ) : Prop :=
  f ≤ i ∧ i ≤ l ∧ AllIn a f i (fun x => less x val = true) ∧
    AllIn a i l fun x => ¬ less x val = true

/-- The end of the elements that are not greater than the value. -/
def IsUpperBound (a : List α) (f l i : ℕ) : Prop :=
  f ≤ i ∧ i ≤ l ∧ AllIn a f i (fun x => (!less val x) = true) ∧
    AllIn a i l fun x => ¬ (!less val x) = true

/-- **What the functions on a range find.** -/
structure Searches (a : List α) (f l lo hi : ℕ) : Prop where
  lowerBound : Finds (BinarySearch.lowerBound less a f l val) f l (lo : ℤ)
  lowerBoundBy : Finds (BinarySearch.lowerBoundBy less a f l val) f l (lo : ℤ)
  upperBound : Finds (BinarySearch.upperBound less a f l val) f l (hi : ℤ)
  upperBoundBy : Finds (BinarySearch.upperBoundBy less a f l val) f l (hi : ℤ)
  equalRange : Finds (BinarySearch.equalRange less a f l val) f l ((lo : ℤ), (hi : ℤ))
  binarySearch : Finds (BinarySearch.binarySearch less a f l val) f l (decide (lo < hi))
  binarySearchBy : Finds (BinarySearch.binarySearchBy less a f l val) f l (decide (lo < hi))

/-- **What the functions on an array find.** -/
structure SearchesAll (a : List α) (lo hi : ℕ) : Prop where
  lowerBound : Finds (lowerBoundAll less a val) 0 a.length (lo : ℤ)
  lowerBoundBy : Finds (lowerBoundAllBy less a val) 0 a.length (lo : ℤ)
  upperBound : Finds (upperBoundAll less a val) 0 a.length (hi : ℤ)
  upperBoundBy : Finds (upperBoundAllBy less a val) 0 a.length (hi : ℤ)
  equalRange : Finds (equalRangeAll less a val) 0 a.length ((lo : ℤ), (hi : ℤ))
  binarySearch : Finds (binarySearchAll less a val) 0 a.length (decide (lo < hi))
  binarySearchBy : Finds (binarySearchAllBy less a val) 0 a.length (decide (lo < hi))

variable {less val} {lo hi : ℕ}

theorem finds_notBelow (hl : l ≤ a.length) (hflo : f ≤ lo) (hlol : lo ≤ l) (hhil : hi ≤ l)
    (hhi : ∀ i x, f ≤ i → i < l → a[i]? = some x → ((!less val x) = true ↔ i < hi)) :
    Finds (notBelow less a val l lo) f l (decide (lo < hi)) := by
  intro looked
  rw [notBelow]
  rcases hlol.eq_or_lt with rfl | hlt
  · rw [if_neg (not_not.mpr rfl), decide_eq_false (not_lt.mpr hhil)]
    exact finds_pure false looked
  · have hx := List.getElem?_eq_getElem (show lo < a.length by omega)
    rw [if_pos (by omega), ← Bool.eq_iff_iff.mpr ((hhi lo _ hflo hlt hx).trans
      decide_eq_true_iff.symm)]
    have hfetch := finds_fetch (f := f) (l := l) hx (by omega) (by omega)
    exact hfetch.bind (finds_pure (!less val a[lo])) looked

theorem searches_of_bounds (hlong : a.length < 2 ^ 31) (hl : l ≤ a.length) (hflo : f ≤ lo)
    (hlol : lo ≤ l) (hfhi : f ≤ hi) (hhil : hi ≤ l)
    (hlo : ∀ i x, f ≤ i → i < l → a[i]? = some x → (less x val = true ↔ i < lo))
    (hhi : ∀ i x, f ≤ i → i < l → a[i]? = some x → ((!less val x) = true ↔ i < hi)) :
    Searches less val a f l lo hi := by
  have hlower := finds_bound "lower" hlong hflo hlol hl hlo
  have hupper := finds_bound "upper" hlong hfhi hhil hl hhi
  have hlast := finds_notBelow hl hflo hlol hhil hhi
  exact ⟨hlower, hlower, hupper, hupper, hlower.bind (hupper.bind (finds_pure _)),
    hlower.bind hlast, hlower.bind hlast⟩

theorem Searches.all (hlong : a.length < 2 ^ 31) (hhi : hi ≤ a.length) (hlo : lo ≤ a.length)
    (hend : ∀ i x, 0 ≤ i → i < a.length → a[i]? = some x → ((!less val x) = true ↔ i < hi))
    (h : Searches less val a 0 a.length lo hi) : SearchesAll less val a lo hi := by
  have hlower := Finds.whole hlong h.lowerBound
  have hupper := Finds.whole hlong h.upperBound
  have hlast : Finds (fun looked => (length a looked).bind fun last looked =>
      notBelow less a val last lo looked) 0 a.length (decide (lo < hi)) :=
    Finds.bind (finds_length hlong) (finds_notBelow le_rfl (Nat.zero_le lo) hlo hhi hend)
  exact ⟨hlower, Finds.whole hlong h.lowerBoundBy, hupper, Finds.whole hlong h.upperBoundBy,
    hlower.bind (hupper.bind (finds_pure _)), hlower.bind hlast, hlower.bind hlast⟩

/-- **The binary searches are correct** on every range that is sorted: they find its lower bound,
its upper bound, the range of what is equivalent to the value and whether there is anything in it,
and look at elements of the range only; on the whole array where that is the range. -/
theorem binarySearch_correct [IsStrictWeakOrder α (fun x y => less x y = true)]
    (hlong : a.length < 2 ^ 31) (hfl : f ≤ l) (hl : l ≤ a.length) (hsorted : SortedIn less a f l) :
    ∃ lo hi, (∀ i, IsLowerBound less val a f l i ↔ i = lo) ∧
      (∀ i, IsUpperBound less val a f l i ↔ i = hi) ∧
      (∀ i x, f ≤ i → i < l → a[i]? = some x → (Equivalent less x val ↔ lo ≤ i ∧ i < hi)) ∧
      Searches less val a f l lo hi ∧
      (f = 0 → l = a.length → SearchesAll less val a lo hi) := by
  obtain ⟨lo, hflo, hlol, hlo⟩ := exists_end (a := a) (fun x => less x val) hfl
    fun i j x y hi hij hj hx hy => lt_of_atMost_of_lt (hsorted i j x y hi hij hj hx hy)
  obtain ⟨hi, hfhi, hhil, hhi⟩ := exists_end (a := a) (fun x => !less val x) hfl
    fun i j x y hi hij hj hx hy hnot => by
      have hyval : AtMost less y val := (Bool.not_eq_true' _).mp hnot
      exact (Bool.not_eq_true' _).mpr ((hsorted i j x y hi hij hj hx hy).trans hyval)
  have hsearches := searches_of_bounds hlong hl hflo hlol hfhi hhil hlo hhi
  refine ⟨lo, hi, end_unique hl hflo hlol hlo, end_unique hl hfhi hhil hhi, ?_, hsearches, ?_⟩
  · intro i x hfi hil hx
    rw [Equivalent, ← Bool.not_eq_true, hlo i x hfi hil hx, ← Bool.not_eq_true', hhi i x hfi hil hx,
      not_lt]
  · rintro rfl rfl
    exact hsearches.all hlong hhil hlol hhi

end Family

theorem binarySearch_correct_twos : ∃ lo hi,
    Searches (fun x y : ℕ => decide (x < y)) 2 [9, 2, 2, 5] 1 4 lo hi := by
  have hweak : IsStrictWeakOrder ℕ fun x y => (decide (x < y)) = true :=
    { irrefl := fun x h => by simp at h
      trans := fun x y z hxy hyz => by simp at hxy hyz ⊢; omega
      incomp_trans := fun x y z hxy hyz => by simp at hxy hyz ⊢; omega }
  have hsorted : SortedIn (fun x y : ℕ => decide (x < y)) [9, 2, 2, 5] 1 4 := by
    intro i j x y hi hij hj hx hy
    obtain ⟨rfl, rfl⟩ | ⟨rfl, rfl⟩ | ⟨rfl, rfl⟩ :
        (i = 1 ∧ j = 2) ∨ (i = 1 ∧ j = 3) ∨ (i = 2 ∧ j = 3) := by omega
    all_goals
      obtain rfl := Option.some.inj hx
      obtain rfl := Option.some.inj hy
      rfl
  obtain ⟨lo, hi, -, -, -, hsearches, -⟩ := @binarySearch_correct ℕ [9, 2, 2, 5] 1 4
    (fun x y => decide (x < y)) 2 hweak (by decide) (by decide) (by decide) hsorted
  exact ⟨lo, hi, hsearches⟩

end DaScript.BinarySearch
