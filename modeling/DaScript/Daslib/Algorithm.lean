import Mathlib.Tactic

/-!
# Daslib/Algorithm — searching in what is sorted

`lower_bound`, `binary_search` and `sort_unique` of `daslib/algorithm.das`.  The search halves what
is left; on an array that is not sorted it still arrives somewhere.
-/

namespace DaScript.Algorithm

variable {α : Type}

/-- The loop of `lower_bound`: `count` is halved, so `fuel` of it is enough. -/
def lowerBoundFrom (less : α → Bool) (a : List α) : ℕ → ℕ → ℕ → ℕ
  | 0, first, _ => first
  | fuel + 1, first, count =>
    if 0 < count then
      let step := count / 2
      let it := first + step
      if a[it]?.any less then lowerBoundFrom less a fuel (first + (step + 1)) (count - (step + 1))
      else lowerBoundFrom less a fuel first step
    else first

/-- `lower_bound(a, value, less)`; `less` has the value. -/
def lowerBound (a : List α) (less : α → Bool) : ℕ := lowerBoundFrom less a a.length 0 a.length

/-- `binary_search(a, val, less)`; `less` is of an element and the value, `more` of the value and an
element. -/
def binarySearch (a : List α) (less more : α → Bool) : Bool :=
  match a[lowerBound a less]? with
  | some found => !more found
  | none => false

def unique [DecidableEq α] : List α → List α
  | [] => []
  | [x] => [x]
  | x :: y :: rest => if x = y then unique (y :: rest) else x :: unique (y :: rest)

def sortUnique [LinearOrder α] (a : List α) : List α := unique (a.mergeSort (· ≤ ·))

/-! ## What is found -/

theorem lowerBoundFrom_eq {less : α → Bool} {a : List α} {k fuel first count : ℕ}
    (hk : ∀ i x, first ≤ i → i < first + count → a[i]? = some x → (less x = true ↔ i < k))
    (hfuel : count ≤ fuel) (hfirst : first ≤ k) (hlast : k ≤ first + count)
    (hlength : first + count ≤ a.length) : lowerBoundFrom less a fuel first count = k := by
  induction fuel generalizing first count with
  | zero =>
    rw [lowerBoundFrom]
    omega
  | succ fuel ih =>
    rw [lowerBoundFrom]
    by_cases hcount : 0 < count
    · have hit : first + count / 2 < a.length := by omega
      have hx := List.getElem?_eq_getElem hit
      rw [if_pos hcount]
      dsimp only
      rw [hx, Option.any_some]
      by_cases hless : less a[first + count / 2] = true
      · rw [if_pos hless]
        have := (hk _ _ (by omega) (by omega) hx).mp hless
        exact ih (fun i x hi hi' => hk i x (by omega) (by omega)) (by omega) (by omega) (by omega)
          (by omega)
      · rw [if_neg hless]
        have := (hk _ _ (by omega) (by omega) hx).not.mp hless
        exact ih (fun i x hi hi' => hk i x hi (by omega)) (by omega) (by omega) (by omega)
          (by omega)
    · rw [if_neg hcount]
      omega

theorem lowerBound_eq {less : α → Bool} {a : List α} {k : ℕ}
    (hk : ∀ i x, a[i]? = some x → (less x = true ↔ i < k)) (hlength : k ≤ a.length) :
    lowerBound a less = k :=
  lowerBoundFrom_eq (fun i x _ _ => hk i x) le_rfl (Nat.zero_le k) (by omega) (by omega)

theorem lowerBoundFrom_map {β : Type} (f : α → β) (less : β → Bool) (a : List α)
    (fuel first count : ℕ) : lowerBoundFrom less (a.map f) fuel first count =
      lowerBoundFrom (fun x => less (f x)) a fuel first count := by
  induction fuel generalizing first count with
  | zero => rfl
  | succ fuel ih =>
    rw [lowerBoundFrom, lowerBoundFrom]
    simp only [List.getElem?_map, Option.any_map, ih]

theorem binarySearch_map {β : Type} (f : α → β) (a : List α) (less more : β → Bool) :
    binarySearch (a.map f) less more =
      binarySearch a (fun x => less (f x)) fun x => more (f x) := by
  rw [binarySearch, binarySearch, lowerBound, lowerBound, List.length_map, lowerBoundFrom_map,
    List.getElem?_map]
  cases a[lowerBoundFrom (fun x => less (f x)) a a.length 0 a.length]? <;> rfl

section Key

variable {κ : Type} [LinearOrder κ] (key : α → κ)

theorem exists_bound {a : List α} (ha : (a.map key).Pairwise (· < ·)) (c : κ) :
    ∃ k ≤ a.length, ∀ i x, a[i]? = some x → (decide (key x < c) = true ↔ i < k) := by
  induction a with
  | nil => exact ⟨0, le_rfl, fun i x h => by simp at h⟩
  | cons y a ih =>
    obtain ⟨hy, ha⟩ := List.pairwise_cons.mp ha
    by_cases hless : key y < c
    · obtain ⟨k, hle, hk⟩ := ih ha
      refine ⟨k + 1, Nat.succ_le_succ hle, fun i x h => ?_⟩
      cases i with
      | zero =>
        obtain rfl : y = x := Option.some.inj h
        simp [hless]
      | succ i =>
        rw [hk i x h]
        omega
    · refine ⟨0, Nat.zero_le _, fun i x h => ?_⟩
      have hge : c ≤ key x := by
        cases i with
        | zero =>
          obtain rfl : y = x := Option.some.inj h
          exact not_lt.mp hless
        | succ i =>
          have hx : x ∈ a := List.mem_of_getElem? h
          exact (not_lt.mp hless).trans (hy _ (List.mem_map_of_mem hx)).le
      simp [hge]

theorem binarySearch_iff {a : List α} (ha : (a.map key).Pairwise (· < ·)) (c : κ) :
    binarySearch a (fun x => key x < c) (fun x => c < key x) = true ↔ c ∈ a.map key := by
  obtain ⟨k, hle, hk⟩ := exists_bound key ha c
  rw [binarySearch, lowerBound_eq hk hle]
  constructor
  · intro h
    cases hfound : a[k]? with
    | none =>
      rw [hfound] at h
      cases h
    | some found =>
      rw [hfound] at h
      have hnot := (hk k found hfound).not.mpr (Nat.lt_irrefl k)
      have heq : key found = c := by
        simp only [decide_eq_true_eq] at hnot
        simp only [Bool.not_eq_true', decide_eq_false_iff_not] at h
        exact le_antisymm (not_lt.mp h) (not_lt.mp hnot)
      exact List.mem_map.mpr ⟨found, List.mem_of_getElem? hfound, heq⟩
  · intro h
    obtain ⟨x, hx, rfl⟩ := List.mem_map.mp h
    obtain ⟨i, hi, rfl⟩ := List.getElem_of_mem hx
    have hxi := List.getElem?_eq_getElem hi
    have hki : k ≤ i := by
      have := (hk i _ hxi).not.mp (by simp)
      omega
    have hik : i ≤ k := by
      by_contra hlt
      have hkx := List.getElem?_eq_getElem (show k < a.length by omega)
      have hnot := (hk k _ hkx).not.mpr (Nat.lt_irrefl k)
      have hlt' : key a[k] < key a[i] := by
        have := List.pairwise_iff_getElem.mp ha k i (by simp; omega) (by simpa using hi) (by omega)
        simpa using this
      simp [hlt'] at hnot
    obtain rfl : k = i := le_antisymm hki hik
    rw [hxi]
    simp

end Key

/-! ## What is sorted once -/

section Unique

variable [LinearOrder α]

theorem mem_unique {x : α} (a : List α) : x ∈ unique a ↔ x ∈ a := by
  induction a using unique.induct with
  | case1 => rfl
  | case2 y => rfl
  | case3 y rest ih =>
    rw [unique, if_pos rfl, ih]
    simp
  | case4 y z rest hne ih =>
    rw [unique, if_neg hne, List.mem_cons, ih]
    simp

theorem unique_sorted {a : List α} (ha : a.Pairwise (· ≤ ·)) : (unique a).Pairwise (· < ·) := by
  induction a using unique.induct with
  | case1 => exact List.Pairwise.nil
  | case2 y => exact List.pairwise_singleton _ y
  | case3 y rest ih =>
    rw [unique, if_pos rfl]
    exact ih (List.pairwise_cons.mp ha).2
  | case4 y z rest hne ih =>
    obtain ⟨hy, hz⟩ := List.pairwise_cons.mp ha
    rw [unique, if_neg hne]
    refine List.pairwise_cons.mpr ⟨fun x hx => ?_, ih hz⟩
    rw [mem_unique] at hx
    have hyz := lt_of_le_of_ne (hy z List.mem_cons_self) hne
    obtain rfl | hx := List.mem_cons.mp hx
    · exact hyz
    · exact hyz.trans_le ((List.pairwise_cons.mp hz).1 x hx)

theorem mem_sortUnique {x : α} (a : List α) : x ∈ sortUnique a ↔ x ∈ a := by
  rw [sortUnique, mem_unique]
  exact (List.mergeSort_perm a _).mem_iff

theorem sortUnique_sorted (a : List α) : (sortUnique a).Pairwise (· < ·) := by
  refine unique_sorted ?_
  have htrans : ∀ x y z : α, decide (x ≤ y) = true → decide (y ≤ z) = true →
      decide (x ≤ z) = true := fun x y z hxy hyz =>
    decide_eq_true ((of_decide_eq_true hxy).trans (of_decide_eq_true hyz))
  have htotal : ∀ x y : α, (decide (x ≤ y) || decide (y ≤ x)) = true := fun x y => by
    simp [le_total]
  exact (List.pairwise_mergeSort htrans htotal a).imp fun h => of_decide_eq_true h

end Unique

end DaScript.Algorithm
