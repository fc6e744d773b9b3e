import DaScript.Machinery.Arrays
import DaScript.Machinery.BitScan

/-!
# Simulate/Qsort — sorting bytes whose width is known at run time

`das_qsort_r` of `das_qsort_r.h`, on an array of elements: an index stands for the address
`data + i * width`, and `byte_swap` for two elements changing places.  `wide` is
`width > sizeof(tmp)`, above 256 bytes, where nothing is kept in a buffer.

An array in memory has fewer elements than indices wrap at: indices are natural numbers.
-/

namespace DaScript.Qsort

open Arrays (swap)

variable {α : Type} (cmp : α → α → Bool)

/-! ## The heap -/

/-- `largest`: of a parent and its children, the first that no later one is above. -/
def largestOf (base nel : ℕ) (a : ℕ → α) (parent : ℕ) : ℕ :=
  let largest :=
    if cmp (a (base + parent)) (a (base + (2 * parent + 1))) then 2 * parent + 1 else parent
  if 2 * parent + 2 < nel ∧ cmp (a (base + largest)) (a (base + (2 * parent + 2))) then
    2 * parent + 2
  else largest

/-- `larger`: of the children. -/
def largerOf (base nel : ℕ) (a : ℕ → α) (hole : ℕ) : ℕ :=
  if 2 * hole + 2 < nel ∧ cmp (a (base + (2 * hole + 1))) (a (base + (2 * hole + 2))) then
    2 * hole + 2
  else 2 * hole + 1

theorem largestOf_cases (base nel : ℕ) (a : ℕ → α) (parent : ℕ) :
    largestOf cmp base nel a parent = parent ∨ largestOf cmp base nel a parent = 2 * parent + 1 ∨
      largestOf cmp base nel a parent = 2 * parent + 2 ∧ 2 * parent + 2 < nel := by
  unfold largestOf
  dsimp only
  split_ifs with h1 h2 h3
  · exact .inr (.inr ⟨rfl, h2.1⟩)
  · exact .inr (.inl rfl)
  · exact .inr (.inr ⟨rfl, h3.1⟩)
  · exact .inl rfl

theorem largerOf_cases (base nel : ℕ) (a : ℕ → α) (hole : ℕ) :
    largerOf cmp base nel a hole = 2 * hole + 1 ∨
      largerOf cmp base nel a hole = 2 * hole + 2 ∧ 2 * hole + 2 < nel := by
  unfold largerOf
  split_ifs with h
  · exact .inr ⟨rfl, h.1⟩
  · exact .inl rfl

/-- "Swap-based fallback for very wide elements." -/
def siftSwaps (base nel : ℕ) (a : ℕ → α) (parent : ℕ) : ℕ → α :=
  if 2 * parent + 1 ≥ nel then a
  else if largestOf cmp base nel a parent = parent then a
  else
    siftSwaps base nel (swap a (base + parent) (base + largestOf cmp base nel a parent))
      (largestOf cmp base nel a parent)
termination_by nel - parent
decreasing_by
  rcases largestOf_cases cmp base nel a parent with h | h | h <;> omega

/-- "Slides larger children up into the hole": `tmp` waits for the last hole. -/
def slide (base nel : ℕ) (tmp : α) (a : ℕ → α) (hole : ℕ) : ℕ → α :=
  if 2 * hole + 1 ≥ nel then Function.update a (base + hole) tmp
  else if !cmp tmp (a (base + largerOf cmp base nel a hole)) then
    Function.update a (base + hole) tmp
  else
    slide base nel tmp
      (Function.update a (base + hole) (a (base + largerOf cmp base nel a hole)))
      (largerOf cmp base nel a hole)
termination_by nel - hole
decreasing_by
  rcases largerOf_cases cmp base nel a hole with h | h <;> omega

/-- `das_sift_down_r` -/
def siftDown (wide : Bool) (base parent nel : ℕ) (a : ℕ → α) : ℕ → α :=
  if 2 * parent + 1 ≥ nel then a
  else if wide then siftSwaps cmp base nel a parent
  else slide cmp base nel (a (base + parent)) a parent

/-- `das_make_heap_r`, what is left of its loop. -/
def makeHeap (wide : Bool) (base nel : ℕ) : ℕ → (ℕ → α) → ℕ → α
  | 0, a => a
  | i + 1, a => makeHeap wide base nel i (siftDown cmp wide base i nel a)

/-- The second loop of `das_heapsort_helper_r`. -/
def drainHeap (wide : Bool) (base : ℕ) : ℕ → (ℕ → α) → ℕ → α
  | len + 2, a =>
    drainHeap wide base (len + 1)
      (siftDown cmp wide base 0 (len + 1) (swap a base (base + (len + 1))))
  | _, a => a

/-- `das_heapsort_helper_r`, on `nel` elements from `base` on. -/
def heapsortHelper (wide : Bool) (base nel : ℕ) (a : ℕ → α) : ℕ → α :=
  if nel ≤ 1 then a
  else drainHeap cmp wide base nel (makeHeap cmp wide base nel (nel / 2) a)

/-! ## Insertion -/

/-- The inner loop: an element goes down while it is less than the one before. -/
def insert (lo : ℕ) : ℕ → (ℕ → α) → ℕ → α
  | 0, a => a
  | j + 1, a =>
    if lo < j + 1 ∧ cmp (a (j + 1)) (a j) then insert lo j (swap a (j + 1) j) else a

/-- So many turns of the outer loop. -/
def insertionTail (lo : ℕ) : ℕ → (ℕ → α) → ℕ → α
  | 0, a => a
  | n + 1, a => insert cmp lo (lo + (n + 1)) (insertionTail lo n a)

/-! ## Hoare's partition -/

/-- `while (i <= j && cmp(data + i * width, piv)) i++` -/
def scanUp (a : ℕ → α) (piv : α) (j i : ℕ) : ℕ :=
  if i ≤ j ∧ cmp (a i) piv then scanUp a piv j (i + 1) else i
termination_by j + 1 - i

/-- `while (i <= j && cmp(piv, data + j * width)) j--` -/
def scanDown (a : ℕ → α) (piv : α) (i : ℕ) : ℕ → ℕ
  | 0 => 0
  | j + 1 => if i ≤ j + 1 ∧ cmp piv (a (j + 1)) then scanDown a piv i j else j + 1

theorem le_scanUp (a : ℕ → α) (piv : α) (j i : ℕ) : i ≤ scanUp cmp a piv j i := by
  fun_induction scanUp cmp a piv j i with
  | case1 i _ ih => omega
  | case2 i _ => exact le_rfl

theorem scanDown_le (a : ℕ → α) (piv : α) (i j : ℕ) : scanDown cmp a piv i j ≤ j := by
  induction j with
  | zero => exact le_rfl
  | succ j ih =>
    rw [scanDown]
    split_ifs
    · omega
    · exact le_rfl

/-- The loop, with the pivot at `lo`. -/
def hoareLoop (lo : ℕ) (a : ℕ → α) (i j : ℕ) : (ℕ → α) × ℕ :=
  let i' := scanUp cmp a (a lo) j i
  let j' := scanDown cmp a (a lo) i' j
  if i' ≥ j' then (a, j') else hoareLoop lo (swap a i' j') (i' + 1) (j' - 1)
termination_by j - i
decreasing_by
  have hi' : i ≤ i' := le_scanUp cmp a (a lo) j i
  have hj' : j' ≤ j := scanDown_le cmp a (a lo) i' j
  simp only [i', j'] at *
  omega

/-- `das_hoare_partition_r` -/
def hoarePartition (a : ℕ → α) (lo hi : ℕ) : (ℕ → α) × ℕ :=
  match hoareLoop cmp lo a (lo + 1) hi with
  | (a, j) => (swap a lo j, j)

/-! ## Partition by blocks -/

/-- `DAS_BLOCK_SIZE` -/
def blockSize : ℕ := 64

/-- The first element above the pivot. -/
def findFirst (a : ℕ → α) (pivot : α) (hi first : ℕ) : ℕ :=
  if first ≤ hi ∧ !cmp pivot (a first) then findFirst a pivot hi (first + 1) else first
termination_by hi + 1 - first

/-- From above, the first element that is not above the pivot, or the one behind it. -/
def findLast (a : ℕ → α) (pivot : α) (lo : ℕ) : ℕ → ℕ
  | 0 => 0
  | last + 1 =>
    if cmp pivot (a (last + 1)) then
      if last + 1 = lo + 1 then last + 1 else findLast a pivot lo last
    else last + 1

/-- What is between `first` and `last` is still to be looked at, but for the blocks of the
bitsets: on the left the elements to move right, on the right those to move left. -/
structure Scan (α : Type) where
  first : ℕ
  last : ℕ
  left : ℕ
  right : ℕ
  data : ℕ → α

namespace Scan

variable (pivot : α)

/-- `left_bitset`, if it is empty: what is not below the pivot. -/
def populateLeft (n : ℕ) (s : Scan α) : Scan α :=
  if s.left = 0 then
    { s with left := BitScan.populate (fun j => !cmp (s.data (s.first + j)) pivot) n }
  else s

/-- `right_bitset`, if it is empty: what is not above the pivot. -/
def populateRight (n : ℕ) (s : Scan α) : Scan α :=
  if s.right = 0 then
    { s with right := BitScan.populate (fun j => !cmp pivot (s.data (s.last - j))) n }
  else s

/-- "Pairwise swap driven by countr_zero on both bitsets." -/
def pairSwaps (s : Scan α) : Scan α :=
  if s.left ≠ 0 ∧ s.right ≠ 0 then
    pairSwaps { s with
      left := s.left &&& (s.left - 1)
      right := s.right &&& (s.right - 1)
      data := swap s.data (s.first + BitScan.ctz s.left) (s.last - BitScan.ctz s.right) }
  else s
termination_by s.left
decreasing_by exact BitScan.and_pred_lt (by omega)

/-- A block whose bitset is empty is done with. -/
def advance (l_size r_size : ℕ) (s : Scan α) : Scan α :=
  { s with
    first := if s.left = 0 then s.first + l_size else s.first
    last := if s.right = 0 then s.last - r_size else s.last }

/-- Blocks of these sizes on both sides. -/
def turn (l_size r_size : ℕ) (s : Scan α) : Scan α :=
  ((s.populateLeft cmp pivot l_size).populateRight cmp pivot r_size).pairSwaps.advance l_size r_size

theorem pairSwaps_first (s : Scan α) : s.pairSwaps.first = s.first := by
  fun_induction pairSwaps s with
  | case1 s _ ih => exact ih
  | case2 s _ => rfl

theorem pairSwaps_last (s : Scan α) : s.pairSwaps.last = s.last := by
  fun_induction pairSwaps s with
  | case1 s _ ih => exact ih
  | case2 s _ => rfl

theorem pairSwaps_empty (s : Scan α) : s.pairSwaps.left = 0 ∨ s.pairSwaps.right = 0 := by
  fun_induction pairSwaps s with
  | case1 s _ ih => exact ih
  | case2 s h => omega

theorem turn_lt (l_size r_size : ℕ) (hl : 0 < l_size) (hr : 0 < r_size) {s : Scan α}
    (hroom : s.first + l_size + r_size ≤ s.last + 1) :
    (s.turn cmp pivot l_size r_size).last - (s.turn cmp pivot l_size r_size).first
      < s.last - s.first := by
  have hfirst : ((s.populateLeft cmp pivot l_size).populateRight cmp pivot r_size).first
      = s.first := by
    unfold populateRight populateLeft
    split_ifs <;> rfl
  have hlast : ((s.populateLeft cmp pivot l_size).populateRight cmp pivot r_size).last
      = s.last := by
    unfold populateRight populateLeft
    split_ifs <;> rfl
  unfold turn advance
  dsimp only
  rw [pairSwaps_first, pairSwaps_last, hfirst, hlast]
  rcases pairSwaps_empty ((s.populateLeft cmp pivot l_size).populateRight cmp pivot r_size) with
    h | h
  · rw [if_pos h]
    split_ifs <;> omega
  · rw [if_pos h]
    split_ifs <;> omega

/-- "Main block loop: process full 64-element blocks from each side." -/
def blocks (s : Scan α) : Scan α :=
  if s.first + 2 * blockSize - 1 ≤ s.last then blocks (s.turn cmp pivot blockSize blockSize) else s
termination_by s.last - s.first
decreasing_by
  refine turn_lt cmp pivot blockSize blockSize (by decide) (by decide) ?_
  unfold blockSize at *
  omega

/-- "Tail: < 2*B remaining elements": the sizes of the two sides. -/
def sizes (s : Scan α) : ℕ × ℕ :=
  let remaining := s.last + 1 - s.first
  if s.left = 0 ∧ s.right = 0 then (remaining / 2, remaining - remaining / 2)
  else if s.left = 0 then (remaining - blockSize, blockSize)
  else (blockSize, remaining - blockSize)

/-- What is left on the left, from its highest bit on, goes to the end. -/
def drainLeft (s : Scan α) : Scan α :=
  if s.left ≠ 0 then
    drainLeft { s with
      left := s.left &&& (1 <<< s.left.log2 - 1)
      data := if s.first + s.left.log2 ≠ s.last then swap s.data (s.first + s.left.log2) s.last
        else s.data
      last := s.last - 1 }
  else s
termination_by s.left
decreasing_by exact BitScan.and_mask_lt (by omega)

/-- What is left on the right, from its highest bit on, goes to the front. -/
def drainRight (s : Scan α) : Scan α :=
  if s.right ≠ 0 then
    drainRight { s with
      right := s.right &&& (1 <<< s.right.log2 - 1)
      data := if s.last - s.right.log2 ≠ s.first then swap s.data (s.last - s.right.log2) s.first
        else s.data
      first := s.first + 1 }
  else s
termination_by s.right
decreasing_by exact BitScan.and_mask_lt (by omega)

/-- "Residual: at most one side still has set bits." -/
def residual (s : Scan α) : Scan α :=
  if s.left ≠ 0 then { s.drainLeft with first := s.drainLeft.last + 1 }
  else if s.right ≠ 0 then s.drainRight
  else s

end Scan

/-- The guarded find, and its swap: nothing has moved if `already_partitioned`. -/
def guardedFind (pivot : α) (a : ℕ → α) (lo hi : ℕ) : Scan α × Bool :=
  let first := findFirst cmp a pivot hi (lo + 1)
  let last := if first < hi then findLast cmp a pivot lo hi else hi
  if first ≥ last then (⟨first, last, 0, 0, a⟩, true)
  else (⟨first + 1, last, 0, 0, swap a first last⟩, false)

/-- `das_block_partition_r`: the elements, the place of the pivot, `already_partitioned`. -/
def blockPartition (wide : Bool) (a : ℕ → α) (lo hi : ℕ) : (ℕ → α) × ℕ × Bool :=
  if wide then
    match hoarePartition cmp a lo hi with
    | (a, j) => (a, j, false)
  else
    let pivot := a lo
    match guardedFind cmp pivot a lo hi with
    | (s, already_partitioned) =>
      let s := s.blocks cmp pivot
      let s := (s.turn cmp pivot s.sizes.1 s.sizes.2).residual
      let pivot_pos := s.first - 1
      let a := if pivot_pos ≠ lo then Function.update s.data lo (s.data pivot_pos) else s.data
      (Function.update a pivot_pos pivot, pivot_pos, already_partitioned)

/-! ## The sort -/

/-- `Frame`: a range still to be sorted, both ends in it. -/
structure Frame where
  lo : ℕ
  hi : ℕ
  depth : ℕ
  deriving DecidableEq, Repr

/-- `max_depth`: two for each bit. -/
def maxDepth (nel : ℕ) : ℕ :=
  if nel = 0 then 0 else maxDepth (nel / 2) + 2
termination_by nel
decreasing_by omega

/-- The median of the first, the middle and the last goes to the front. -/
def medianOf3 (a : ℕ → α) (lo hi : ℕ) : ℕ → α :=
  let mid := lo + (hi - lo) / 2
  let a := if cmp (a mid) (a lo) then swap a lo mid else a
  let a := if cmp (a hi) (a lo) then swap a lo hi else a
  let a := if cmp (a hi) (a mid) then swap a mid hi else a
  swap a lo mid

/-- A partition, by blocks from 128 elements on. -/
def partition (wide : Bool) (a : ℕ → α) (lo hi : ℕ) : (ℕ → α) × ℕ :=
  if hi - lo ≥ 128 then
    match blockPartition cmp wide a lo hi with
    | (a, p, _) => (a, p)
  else hoarePartition cmp a lo hi

/-- `stack[sp++] = …`, where there is room: `Frame stack[128]`. -/
def push (f : Frame) (stack : List Frame) : Option (List Frame) :=
  if stack.length < 128 then some (f :: stack) else none

/-- The frames after a partition at `p`: the smaller side is at hand next. -/
def split (f : Frame) (p : ℕ) (stack : List Frame) : Option (List Frame) :=
  if p - f.lo < f.hi - p then do
    let stack ← if p + 1 < f.hi then push ⟨p + 1, f.hi, f.depth - 1⟩ stack else some stack
    some (if p > f.lo then ⟨f.lo, p - 1, f.depth - 1⟩ :: stack else stack)
  else do
    let stack ← if p > f.lo then push ⟨f.lo, p - 1, f.depth - 1⟩ stack else some stack
    some (if p + 1 < f.hi then ⟨p + 1, f.hi, f.depth - 1⟩ :: stack else stack)

/-- One turn of the inner loop, on the frame at hand. -/
def sortStep (wide : Bool) (f : Frame) (stack : List Frame) (a : ℕ → α) :
    Option ((ℕ → α) × List Frame) :=
  if f.hi - f.lo < 24 then some (insertionTail cmp f.lo (f.hi - f.lo) a, stack)
  else if f.depth = 0 then some (heapsortHelper cmp wide f.lo (f.hi - f.lo + 1) a, stack)
  else
    match partition cmp wide (medianOf3 cmp a f.lo f.hi) f.lo f.hi with
    | (a, p) => (split f p stack).map fun stack => (a, stack)

/-- The loops over frames, the one at hand on top; so many turns. -/
def sortLoop (wide : Bool) : ℕ → List Frame → (ℕ → α) → Option (ℕ → α)
  | 0, _, _ => none
  | _ + 1, [], a => some a
  | turns + 1, f :: stack, a =>
    if f.lo < f.hi then
      match sortStep cmp wide f stack a with
      | none => none
      | some (a, stack) => sortLoop wide turns stack a
    else sortLoop wide turns stack a

/-- **`das_qsort_r`**; nothing, where the stack runs over or the turns do not do. -/
def qsort (wide : Bool) (nel : ℕ) (a : ℕ → α) : Option (ℕ → α) :=
  if nel ≤ 1 then some a
  else sortLoop cmp wide (2 * nel + 2) [⟨0, nel - 1, maxDepth nel⟩] a

end DaScript.Qsort
