import DaScript.Machinery.Searching

/-!
# Machinery/SearchOrder — from which end a loop tries

A loop whose body never stays where it is comes to the same places whether it tries what is next
from the first on or from the last back.

What they find is the first try that does not fail, from either end.  Where the body has no end,
that is a try as well, and one that is not survived.
-/

namespace DaScript.Searching

/-- The first of some tries that does not fail. -/
def firstOf : List Found → Found
  | [] => .null
  | r :: rs => r.orElse (firstOf rs)

/-- **What is next, tried at each place reached.** -/
def tries (body next : ℕ → Found) : ℕ → ℕ → List Found
  | 0, _ => [.hang]
  | fuel + 1, ofs =>
    next ofs ::
      match body ofs with
      | .null => []
      | .hang => [.hang]
      | .pos osym => tries body next fuel osym

/-- **The first try that does not fail is as good as the last.** -/
def FirstIsLast (rs : List Found) : Prop :=
  (rs.filter (· ≠ .null)).head? = (rs.filter (· ≠ .null)).getLast?

theorem firstOf_eq (rs : List Found) :
    firstOf rs = (rs.filter (· ≠ .null)).head?.getD .null := by
  induction rs with
  | nil => rfl
  | cons r rs ih =>
    rw [firstOf, ih]
    cases r <;> rfl

theorem firstOf_reverse (rs : List Found) :
    firstOf rs.reverse = (rs.filter (· ≠ .null)).getLast?.getD .null := by
  rw [firstOf_eq, List.filter_reverse, List.head?_reverse]

theorem firstOf_eq_reverse_iff (rs : List Found) :
    firstOf rs = firstOf rs.reverse ↔ FirstIsLast rs := by
  rw [firstOf_eq, firstOf_reverse, FirstIsLast]
  generalize hl : rs.filter (· ≠ .null) = l
  refine ⟨fun h => ?_, fun h => by rw [h]⟩
  cases l with
  | nil => rfl
  | cons r l =>
    rw [List.getLast?_eq_some_getLast (List.cons_ne_nil r l)] at h ⊢
    exact congrArg some h

theorem firstOf_map (next : ℕ → Found) (l : List ℕ) : firstOf (l.map next) = tryEach next l := by
  induction l with
  | nil => rfl
  | cons q l ih => rw [List.map_cons, firstOf, tryEach, ih]

section

variable {W : Set ℕ} {body next : ℕ → Found}

theorem fewestFirst_eq (body next : ℕ → Found) (fuel ofs : ℕ) :
    fewestFirst body next fuel ofs = firstOf (tries body next fuel ofs) := by
  induction fuel generalizing ofs with
  | zero => rfl
  | succ fuel ih =>
    rw [fewestFirst, tries, firstOf]
    cases body ofs with
    | pos osym => exact congrArg _ (ih osym)
    | null => rfl
    | hang => rfl

variable (hmoves : ∀ p ∈ W, ∀ j, body p = .pos j → j ≠ p ∧ j ∈ W)
include hmoves

theorem positions_eq {fuel ofs : ℕ} (hofs : ofs ∈ W) (reached : List ℕ) :
    (match positions body false fuel ofs (ofs :: reached) with
      | some l => tryEach next l
      | none => .hang)
      = firstOf ((tries body next fuel ofs).reverse ++ reached.map next) := by
  induction fuel generalizing ofs reached with
  | zero => rfl
  | succ fuel ih =>
    rw [positions, tries]
    cases hosym : body ofs with
    | pos osym =>
      obtain ⟨hne, hW⟩ := hmoves ofs hofs osym hosym
      dsimp only
      rw [if_neg hne, ih hW, List.reverse_cons, List.append_assoc, List.singleton_append,
        List.map_cons]
    | null => exact (firstOf_map next (ofs :: reached)).symm
    | hang => rfl

theorem nearest_eq_fewestFirst {fuel ofs : ℕ} (hofs : ofs ∈ W) :
    nearest body next false fuel ofs = fewestFirst body next fuel ofs := by
  induction fuel generalizing ofs with
  | zero => rfl
  | succ fuel ih =>
    rw [nearest, fewestFirst]
    refine congrArg _ ?_
    cases hosym : body ofs with
    | pos osym =>
      obtain ⟨hne, hW⟩ := hmoves ofs hofs osym hosym
      exact (if_neg hne).trans (ih hW)
    | null => rfl
    | hang => rfl

theorem furthest_eq_takeAll {fuel ofs : ℕ} (hofs : ofs ∈ W) :
    furthest body false fuel ofs = takeAll body fuel ofs := by
  induction fuel generalizing ofs with
  | zero => rfl
  | succ fuel ih =>
    rw [furthest, takeAll]
    cases hosym : body ofs with
    | pos osym =>
      obtain ⟨hne, hW⟩ := hmoves ofs hofs osym hosym
      exact (if_neg hne).trans (ih hW)
    | null => rfl
    | hang => rfl

end

end DaScript.Searching
