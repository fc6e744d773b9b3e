import DaScript.Machinery.StableSort
import DaScript.Simulate.Qsort

/-!
# Simulate/StableSort — natural runs, merged pairwise

`das_stable_sort_r` of `das_qsort_r.h`, its buffers allocated.  Runs that are in order already, or
go down strictly and are turned round, are brought to `DAS_STABLE_MINRUN` by insertion; then the
array and its buffer take turns at holding what the other's runs merge to.
-/

namespace DaScript.Stable

open Arrays (swap copyRange)

variable {α : Type} (cmp : α → α → Bool)

/-- `DAS_STABLE_MINRUN` -/
def minRun : ℕ := 32

/-- `DAS_STABLE_MIN_GALLOP` -/
def minGallop : ℕ := 7

/-! ## Runs -/

/-- `while (j < nel && …) j++` -/
def scanWhile (p : ℕ → Bool) (nel j : ℕ) : ℕ :=
  if j < nel ∧ p j then scanWhile p nel (j + 1) else j
termination_by nel - j

/-- "Reverse → ascending", both ends in the range. -/
def reverseRun (a : ℕ → α) (lo hi : ℕ) : ℕ → α :=
  if lo < hi then reverseRun (swap a lo hi) (lo + 1) (hi - 1) else a
termination_by hi - lo

/-- The `do` loop: the element before moves up, while what is held is less than the next. -/
def hold (lo : ℕ) (tmp : α) : ℕ → (ℕ → α) → ℕ → α
  | 0, a => Function.update a 0 tmp
  | j + 1, a =>
    let a := Function.update a (j + 1) (a j)
    if lo < j ∧ cmp tmp (a (j - 1)) then hold lo tmp j a else Function.update a j tmp

/-- So many turns of `das_stable_insertion_run_r`. -/
def insertionRun (lo : ℕ) : ℕ → (ℕ → α) → ℕ → α
  | 0, a => a
  | n + 1, a =>
    let a := insertionRun lo n a
    if cmp (a (lo + (n + 1))) (a (lo + n)) then hold cmp lo (a (lo + (n + 1))) (lo + (n + 1)) a
    else a

/-- The run from `i` on, as it is found: the array, and where the run ends. -/
def naturalRun (nel : ℕ) (a : ℕ → α) (i : ℕ) : (ℕ → α) × ℕ :=
  if i + 1 < nel then
    if cmp (a (i + 1)) (a i) then
      let j := scanWhile (fun j => cmp (a j) (a (j - 1))) nel (i + 2)
      (reverseRun a i (j - 1), j)
    else (a, scanWhile (fun j => !cmp (a j) (a (j - 1))) nel (i + 2))
  else (a, i + 1)

/-- The run from `i` on, brought to `minRun`. -/
def nextRun (nel : ℕ) (a : ℕ → α) (i : ℕ) : (ℕ → α) × ℕ :=
  match naturalRun cmp nel a i with
  | (a, j) =>
    if j - i < minRun then
      let hi := if i + minRun < nel then i + minRun else nel
      (insertionRun cmp i (hi - i - 1) a, hi)
    else (a, j)

/-- `cur[nb++] = …`, where there is room. -/
def pushBound (cap : ℕ) (bounds : List ℕ) (j : ℕ) : Option (List ℕ) :=
  if bounds.length < cap then some (bounds ++ [j]) else none

/-- "Detect natural runs", so many turns; nothing, where a boundary has no room. -/
def detectRuns (cap nel : ℕ) : ℕ → ℕ → List ℕ → (ℕ → α) → Option ((ℕ → α) × List ℕ)
  | 0, _, _, _ => none
  | turns + 1, i, bounds, a =>
    if i < nel then
      match nextRun cmp nel a i with
      | (a, j) =>
        match pushBound cap bounds j with
        | none => none
        | some bounds => detectRuns cap nel turns j bounds a
    else some (a, bounds)

/-! ## Merging -/

/-- The places of a merge: what comes next on the left, on the right, and where it goes. -/
structure Merge (α : Type) where
  i : ℕ
  j : ℕ
  k : ℕ
  dst : ℕ → α

namespace Merge

variable (src : ℕ → α)

/-- So many elements from the left. -/
def takeLeft (n : ℕ) (s : Merge α) : Merge α :=
  { s with i := s.i + n, k := s.k + n, dst := copyRange s.dst s.k src s.i n }

/-- So many elements from the right. -/
def takeRight (n : ℕ) (s : Merge α) : Merge α :=
  { s with j := s.j + n, k := s.k + n, dst := copyRange s.dst s.k src s.j n }

end Merge

/-- "One-at-a-time", with the streaks `cl` and `cr`, or "galloping". -/
inductive Mode
  | one (cl cr : ℕ)
  | gallop
  deriving DecidableEq, Repr

open Merge

/-- "One-at-a-time". -/
def takeOne (src : ℕ → α) (m r cl cr : ℕ) (s : Merge α) : Option Mode × Merge α :=
  if cmp (src s.j) (src s.i) then
    let s := takeRight src 1 s
    if s.j ≥ r then (none, s)
    else (some (if cr + 1 ≥ minGallop then .gallop else .one 0 (cr + 1)), s)
  else
    let s := takeLeft src 1 s
    if s.i ≥ m then (none, s)
    else (some (if cl + 1 ≥ minGallop then .gallop else .one (cl + 1) 0), s)

/-- "Galloping": a run of the left, one of the right, a run of the right, one of the left. -/
def gallop (src : ℕ → α) (m r : ℕ) (s : Merge α) : Option Mode × Merge α :=
  let lenL := scanWhile (fun i => !cmp (src s.j) (src i)) m s.i - s.i
  let s := takeLeft src lenL s
  if s.i ≥ m then (none, s)
  else
    let s := takeRight src 1 s
    if s.j ≥ r then (none, s)
    else
      let lenR := scanWhile (fun j => cmp (src j) (src s.i)) r s.j - s.j
      let s := takeRight src lenR s
      if s.j ≥ r then (none, s)
      else
        let s := takeLeft src 1 s
        if s.i ≥ m then (none, s)
        else
          (some (if lenL < minGallop ∧ lenR < minGallop then .one 0 0 else .gallop), s)

/-- One step of either mode; nothing comes next once a side is used up. -/
def mergeStep (src : ℕ → α) (m r : ℕ) : Mode → Merge α → Option Mode × Merge α
  | .one cl cr, s => takeOne cmp src m r cl cr s
  | .gallop, s => gallop cmp src m r s

/-- The elements a merge has still to take. -/
def Merge.left (m r : ℕ) (s : Merge α) : ℕ := (m - s.i) + (r - s.j)

theorem mergeStep_left (src : ℕ → α) (m r : ℕ) (mode : Mode) {s : Merge α} (hi : s.i < m)
    (hj : s.j < r) : (mergeStep cmp src m r mode s).2.left m r < s.left m r := by
  unfold Merge.left
  cases mode with
  | one cl cr =>
    unfold mergeStep takeOne takeLeft takeRight
    dsimp only
    split_ifs <;> dsimp only <;> omega
  | gallop =>
    unfold mergeStep gallop takeLeft takeRight
    dsimp only
    split_ifs <;> dsimp only at * <;> omega

/-- The loops of `das_stable_merge_runs_r`. -/
def mergeLoop (src : ℕ → α) (m r : ℕ) (mode : Mode) (s : Merge α) : Merge α :=
  if _h : s.i < m ∧ s.j < r then
    match (mergeStep cmp src m r mode s).1 with
    | none => (mergeStep cmp src m r mode s).2
    | some mode' => mergeLoop src m r mode' (mergeStep cmp src m r mode s).2
  else s
termination_by s.left m r
decreasing_by exact mergeStep_left cmp src m r mode _h.1 _h.2

/-- `das_stable_merge_runs_r`: what is left of either side is taken over. -/
def mergeRuns (src dst : ℕ → α) (l m r : ℕ) : ℕ → α :=
  let s := mergeLoop cmp src m r (.one 0 0) ⟨l, m, l, dst⟩
  let s := if s.i < m then { s with dst := copyRange s.dst s.k src s.i (m - s.i) } else s
  if s.j < r then copyRange s.dst s.k src s.j (r - s.j) else s.dst

/-- One pass over the runs, two at a time, "lone last run" included; `nxt` is what has been put
there so far. -/
def mergePass (cap : ℕ) (src : ℕ → α) : List ℕ → (ℕ → α) → List ℕ → Option ((ℕ → α) × List ℕ)
  | l :: m :: r :: bounds, dst, nxt =>
    match pushBound cap nxt r with
    | none => none
    | some nxt => mergePass cap src (r :: bounds) (mergeRuns cmp src dst l m r) nxt
  | [l, m], dst, nxt =>
    match pushBound cap nxt m with
    | none => none
    | some nxt => some (copyRange dst l src l (m - l), nxt)
  | _, dst, nxt => some (dst, nxt)

/-- "Bottom-up pairwise merge over the run list": the array that holds the runs, the other, whether
the first is the data, so many turns. -/
def mergeLevels (cap : ℕ) : ℕ → (ℕ → α) → (ℕ → α) → Bool → List ℕ →
    Option ((ℕ → α) × (ℕ → α) × Bool)
  | 0, _, _, _, _ => none
  | turns + 1, src, dst, inData, bounds =>
    if bounds.length - 1 > 1 then
      match mergePass cmp cap src bounds dst [0] with
      | none => none
      | some (dst, nxt) => mergeLevels cap turns dst src (!inData) nxt
    else some (src, dst, inData)

/-- **`das_stable_sort_r`**, into a buffer of any contents; nothing, where a boundary has no room or
the turns do not do. -/
def stableSort (nel : ℕ) (data buf : ℕ → α) : Option (ℕ → α) :=
  if nel ≤ 1 then some data
  else do
    let maxRuns := nel / minRun + 2
    let (data, bounds) ← detectRuns cmp (maxRuns + 1) nel (nel + 1) 0 [0] data
    let (src, dst, inData) ← mergeLevels cmp (maxRuns + 1) (bounds.length + 1) data buf true bounds
    some (if inData then src else copyRange dst 0 src 0 nel)

end DaScript.Stable
