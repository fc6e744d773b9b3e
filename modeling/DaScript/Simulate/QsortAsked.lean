import DaScript.Machinery.Checked
import DaScript.Simulate.QsortRuns

/-!
# Simulate/QsortAsked — sorting by a block that answers as it likes

`das_qsort_r` again, of `das_qsort_r.h`: the comparator is a script block (`sort_any_core`), which
has a state of its own and may answer the same question in two ways.  Every index is checked, and so
is every count that goes down; `first` and `last` are `size_t` where one is taken from the other.
-/

namespace DaScript.QsortAsked

open Checked Qsort
open Arrays (Permutes)

variable {σ α : Type} (cmp : σ → α → α → Bool × σ) (nel : ℕ)

/-- `cmp(data + i * width, data + j * width)` -/
def less (i j : ℕ) : Program σ α Bool := do
  let x ← read nel i
  let y ← read nel j
  ask cmp x y

/-- `cmp(data + i * width, pivot)` -/
def isBelow (i : ℕ) (pivot : α) : Program σ α Bool := do
  let x ← read nel i
  ask cmp x pivot

/-- `cmp(pivot, data + i * width)` -/
def isAbove (pivot : α) (i : ℕ) : Program σ α Bool := do
  let x ← read nel i
  ask cmp pivot x

/-! ## The heap -/

/-- `largest` -/
def largestOf (base m parent : ℕ) : Program σ α ℕ := do
  let less₁ ← less cmp nel (base + parent) (base + (2 * parent + 1))
  let largest := if less₁ then 2 * parent + 1 else parent
  if 2 * parent + 2 < m then do
    let less₂ ← less cmp nel (base + largest) (base + (2 * parent + 2))
    pure (if less₂ then 2 * parent + 2 else largest)
  else pure largest

/-- `larger` -/
def largerOf (base m hole : ℕ) : Program σ α ℕ :=
  if 2 * hole + 2 < m then do
    let less₁ ← less cmp nel (base + (2 * hole + 1)) (base + (2 * hole + 2))
    pure (if less₁ then 2 * hole + 2 else 2 * hole + 1)
  else pure (2 * hole + 1)

/-- "Swap-based fallback for very wide elements." -/
def siftSwaps (base m parent : ℕ) : Program σ α Unit :=
  loop (fun parent =>
    if 2 * parent + 1 ≥ m then pure (.inr ())
    else do
      let largest ← largestOf cmp nel base m parent
      if largest = parent then pure (.inr ())
      else do
        swap nel (base + parent) (base + largest)
        pure (.inl largest)) (m + 1) parent

/-- "Slides larger children up into the hole." -/
def slide (base m : ℕ) (tmp : α) (hole : ℕ) : Program σ α Unit := do
  let hole ← loop (fun hole =>
    if 2 * hole + 1 ≥ m then pure (.inr hole)
    else do
      let larger ← largerOf cmp nel base m hole
      let above ← isAbove cmp nel tmp (base + larger)
      if above then do
        let x ← read nel (base + larger)
        write nel (base + hole) x
        pure (.inl larger)
      else pure (.inr hole)) (m + 1) hole
  write nel (base + hole) tmp

/-- `das_sift_down_r` -/
def siftDown (wide : Bool) (base parent m : ℕ) : Program σ α Unit :=
  if 2 * parent + 1 ≥ m then pure ()
  else if wide then siftSwaps cmp nel base m parent
  else do
    let tmp ← read nel (base + parent)
    slide cmp nel base m tmp parent

/-- `das_make_heap_r`, what is left of its loop. -/
def makeHeap (wide : Bool) (base m : ℕ) : ℕ → Program σ α Unit
  | 0 => pure ()
  | i + 1 => do
    siftDown cmp nel wide base i m
    makeHeap wide base m i

/-- The second loop of `das_heapsort_helper_r`. -/
def drainHeap (wide : Bool) (base : ℕ) : ℕ → Program σ α Unit
  | len + 2 => do
    swap nel base (base + (len + 1))
    siftDown cmp nel wide base 0 (len + 1)
    drainHeap wide base (len + 1)
  | _ => pure ()

/-- `das_heapsort_helper_r`, on `m` elements from `base` on. -/
def heapsortHelper (wide : Bool) (base m : ℕ) : Program σ α Unit :=
  if m ≤ 1 then pure ()
  else do
    makeHeap cmp nel wide base m (m / 2)
    drainHeap cmp nel wide base m

/-! ## Insertion -/

/-- The inner loop. -/
def insert (lo : ℕ) : ℕ → Program σ α Unit
  | 0 => pure ()
  | j + 1 =>
    if lo < j + 1 then do
      let down ← less cmp nel (j + 1) j
      if down then do
        swap nel (j + 1) j
        insert lo j
      else pure ()
    else pure ()

/-- So many turns of the outer loop. -/
def insertionTail (lo : ℕ) : ℕ → Program σ α Unit
  | 0 => pure ()
  | n + 1 => do
    insertionTail lo n
    insert cmp nel lo (lo + (n + 1))

/-! ## Hoare's partition -/

/-- `while (i <= j && cmp(data + i * width, piv)) i++` -/
def scanUp (lo j i : ℕ) : Program σ α ℕ :=
  loop (fun i =>
    if i ≤ j then do
      let below ← less cmp nel i lo
      pure (if below then .inl (i + 1) else .inr i)
    else pure (.inr i)) (nel + 2) i

/-- `while (i <= j && cmp(piv, data + j * width)) j--` -/
def scanDown (lo i j : ℕ) : Program σ α ℕ :=
  loop (fun j =>
    if i ≤ j then do
      let above ← less cmp nel lo j
      if above then do
        let j ← sub j 1
        pure (.inl j)
      else pure (.inr j)
    else pure (.inr j)) (nel + 2) j

/-- The loop, with the pivot at `lo`. -/
def hoareLoop (lo i j : ℕ) : Program σ α ℕ :=
  loop (fun (i, j) => do
    let i ← scanUp cmp nel lo j i
    let j ← scanDown cmp nel lo i j
    if i ≥ j then pure (.inr j)
    else do
      swap nel i j
      let j ← sub j 1
      pure (.inl (i + 1, j))) (nel + 2) (i, j)

/-- `das_hoare_partition_r` -/
def hoarePartition (lo hi : ℕ) : Program σ α ℕ := do
  let j ← hoareLoop cmp nel lo (lo + 1) hi
  swap nel lo j
  pure j

/-! ## Partition by blocks -/

/-- The first scan: what is not above the pivot. -/
def findFirst (pivot : α) (hi first : ℕ) : Program σ α ℕ :=
  loop (fun first =>
    if first ≤ hi then do
      let above ← isAbove cmp nel pivot first
      pure (if above then .inr first else .inl (first + 1))
    else pure (.inr first)) (nel + 2) first

/-- The second, from above: what is above it. -/
def findLast (pivot : α) (lo last : ℕ) : Program σ α ℕ :=
  loop (fun last => do
    let above ← isAbove cmp nel pivot last
    if above then
      if last = lo + 1 then pure (.inr last)
      else do
        let last ← sub last 1
        pure (.inl last)
    else pure (.inr last)) (nel + 2) last

/-- "Initial guarded find": `first` and `last`. -/
def find (pivot : α) (lo hi : ℕ) : Program σ α (ℕ × ℕ) := do
  let first ← findFirst cmp nel pivot hi (lo + 1)
  let last ← if first < hi then findLast cmp nel pivot lo hi else pure hi
  pure (first, last)

/-- The block between `first` and `last`, and the bitsets of its two ends. -/
structure Scan where
  first : ℕ
  last : ℕ
  left : ℕ
  right : ℕ

/-- A bitset, from bit `j` on, of so many more elements. -/
def populate (test : ℕ → Program σ α Bool) : ℕ → ℕ → ℕ → Program σ α ℕ
  | 0, _, bitset => pure bitset
  | n + 1, j, bitset => do
    let bit ← test j
    populate test n (j + 1) (bitset ||| bit.toNat <<< j)

/-- `left_bitset`, if it is empty: what is not below the pivot. -/
def populateLeft (pivot : α) (l_size : ℕ) (s : Scan) : Program σ α ℕ :=
  if s.left = 0 then
    populate (fun j => do
      let below ← isBelow cmp nel (s.first + j) pivot
      pure !below) l_size 0 0
  else pure s.left

/-- `right_bitset`, if it is empty: what is not above the pivot. -/
def populateRight (pivot : α) (r_size : ℕ) (s : Scan) : Program σ α ℕ :=
  if s.right = 0 then
    populate (fun j => do
      let k ← sub s.last j
      let above ← isAbove cmp nel pivot k
      pure !above) r_size 0 0
  else pure s.right

/-- "Pairwise swap driven by countr_zero on both bitsets." -/
def pairSwaps (s : Scan) : Program σ α Scan :=
  loop (fun s =>
    if s.left ≠ 0 ∧ s.right ≠ 0 then do
      let j ← sub s.last (BitScan.ctz s.right)
      swap nel (s.first + BitScan.ctz s.left) j
      pure (.inl { s with
        left := s.left &&& (s.left - 1)
        right := s.right &&& (s.right - 1) })
    else pure (.inr s)) (2 ^ 64 + 1) s

/-- Blocks of these sizes on both sides: one whose bitset is empty is done with. -/
def turn (pivot : α) (l_size r_size : ℕ) (s : Scan) : Program σ α Scan := do
  let left ← populateLeft cmp nel pivot l_size s
  let right ← populateRight cmp nel pivot r_size s
  let s ← pairSwaps nel { s with left := left, right := right }
  let last ← if s.right = 0 then sub s.last r_size else pure s.last
  pure { s with first := if s.left = 0 then s.first + l_size else s.first, last := last }

/-- "Main block loop: process full 64-element blocks from each side." -/
def blocks (pivot : α) (s : Scan) : Program σ α Scan :=
  loop (fun s =>
    if s.first + 2 * blockSize - 1 ≤ s.last then do
      let s ← turn cmp nel pivot blockSize blockSize s
      pure (.inl s)
    else pure (.inr s)) (nel + 2) s

/-- `x - y`, on `size_t`. -/
def sizeSub (x y : ℕ) : ℕ := (x + (2 ^ 64 - y)) % 2 ^ 64

/-- "Tail: < 2*B remaining elements": the sizes of the two sides. -/
def sizes (s : Scan) : ℕ × ℕ :=
  let remaining := (sizeSub s.last s.first + 1) % 2 ^ 64
  if s.left = 0 ∧ s.right = 0 then (remaining / 2, sizeSub remaining (remaining / 2))
  else if s.left = 0 then (sizeSub remaining blockSize, blockSize)
  else (blockSize, sizeSub remaining blockSize)

/-- `if (i != j) byte_swap(…)` -/
def swapApart (i j : ℕ) : Program σ α Unit := if i ≠ j then swap nel i j else pure ()

/-- What is left on the left, from its highest bit on, goes to the end. -/
def drainLeft (s : Scan) : Program σ α Scan :=
  loop (fun s =>
    if s.left ≠ 0 then do
      swapApart nel (s.first + s.left.log2) s.last
      let last ← sub s.last 1
      pure (.inl { s with left := s.left &&& (1 <<< s.left.log2 - 1), last := last })
    else pure (.inr s)) (2 ^ 64 + 1) s

/-- What is left on the right, from its highest bit on, goes to the front. -/
def drainRight (s : Scan) : Program σ α Scan :=
  loop (fun s =>
    if s.right ≠ 0 then do
      let pos ← sub s.last s.right.log2
      swapApart nel pos s.first
      pure (.inl { s with right := s.right &&& (1 <<< s.right.log2 - 1), first := s.first + 1 })
    else pure (.inr s)) (2 ^ 64 + 1) s

/-- "Residual: at most one side still has set bits." -/
def residual (s : Scan) : Program σ α Scan :=
  if s.left ≠ 0 then do
    let s ← drainLeft nel s
    pure { s with first := s.last + 1 }
  else if s.right ≠ 0 then drainRight nel s
  else pure s

/-- "Place pivot at first-1 (its final position)." -/
def placePivot (pivot : α) (lo pivot_pos : ℕ) : Program σ α Unit :=
  if pivot_pos ≠ lo then do
    let x ← read nel pivot_pos
    write nel lo x
    write nel pivot_pos pivot
  else write nel pivot_pos pivot

/-- What is between `first` and `last`, and then the pivot: its place. -/
def partitionTail (pivot : α) (lo first last : ℕ) : Program σ α ℕ := do
  let s ← blocks cmp nel pivot ⟨first, last, 0, 0⟩
  let s ← turn cmp nel pivot (sizes s).1 (sizes s).2 s
  let s ← residual nel s
  let pivot_pos ← sub s.first 1
  placePivot nel pivot lo pivot_pos
  pure pivot_pos

/-- `das_block_partition_r`, without the flag that `das_qsort_r` does not read. -/
def blockPartition (wide : Bool) (lo hi : ℕ) : Program σ α ℕ :=
  if wide then hoarePartition cmp nel lo hi
  else do
    let pivot ← read nel lo
    let (first, last) ← find cmp nel pivot lo hi
    if first ≥ last then partitionTail cmp nel pivot lo first last
    else do
      swap nel first last
      partitionTail cmp nel pivot lo (first + 1) last

/-! ## The sort -/

/-- `if (cmp(…)) byte_swap(…)` -/
def compareSwap (i j : ℕ) : Program σ α Unit := do
  let b ← less cmp nel j i
  if b then swap nel i j else pure ()

/-- The median of the first, the middle and the last goes to the front. -/
def medianOf3 (lo hi : ℕ) : Program σ α Unit := do
  compareSwap cmp nel lo (lo + (hi - lo) / 2)
  compareSwap cmp nel lo hi
  compareSwap cmp nel (lo + (hi - lo) / 2) hi
  swap nel lo (lo + (hi - lo) / 2)

/-- A partition, by blocks from 128 elements on. -/
def partition (wide : Bool) (lo hi : ℕ) : Program σ α ℕ :=
  if hi - lo ≥ 128 then blockPartition cmp nel wide lo hi else hoarePartition cmp nel lo hi

/-- One turn of the inner loop, on the frame at hand. -/
def sortStep (wide : Bool) (f : Qsort.Frame) (stack : List Qsort.Frame) :
    Program σ α (List Qsort.Frame) :=
  if f.hi - f.lo < 24 then do
    insertionTail cmp nel f.lo (f.hi - f.lo)
    pure stack
  else if f.depth = 0 then do
    heapsortHelper cmp nel wide f.lo (f.hi - f.lo + 1)
    pure stack
  else do
    medianOf3 cmp nel f.lo f.hi
    let p ← partition cmp nel wide f.lo f.hi
    lift (split f p stack)

/-- One turn, with the frame at hand on top: the frames that are left, if there are any. -/
def sortTurn (wide : Bool) : List Qsort.Frame → Program σ α (List Qsort.Frame ⊕ Unit)
  | [] => pure (.inr ())
  | f :: stack =>
    if f.lo < f.hi then do
      let frames ← sortStep cmp nel wide f stack
      pure (.inl frames)
    else pure (.inl stack)

/-- **`das_qsort_r`** -/
def qsort (wide : Bool) : Program σ α Unit :=
  if nel ≤ 1 then pure ()
  else loop (sortTurn cmp nel wide) (2 * nel + 2) [⟨0, nel - 1, maxDepth nel⟩]

/-! ## What is claimed of it -/

/-- **It comes to its end**, within its array and its stack, the elements in some order. -/
def Safe (wide : Bool) (st : σ × (ℕ → α)) : Prop :=
  ∃ st', qsort cmp nel wide st = some ((), st') ∧ Permutes 0 nel st.2 st'.2

/-- The frames and the state before a turn. -/
inductive Reaches (wide : Bool) (st₀ : σ × (ℕ → α)) : List Qsort.Frame → σ × (ℕ → α) → Prop
  | start (h : 1 < nel) : Reaches wide st₀ [⟨0, nel - 1, maxDepth nel⟩] st₀
  | turn {frames frames' : List Qsort.Frame} {st st' : σ × (ℕ → α)} (h : Reaches wide st₀ frames st)
      (hturn : sortTurn cmp nel wide frames st = some (.inl frames', st')) :
      Reaches wide st₀ frames' st'

/-- **The scans cross**: asked from below, the elements before `first` are not above the pivot;
asked again from above, some of them are. -/
def Crosses (lo hi : ℕ) (st : σ × (ℕ → α)) : Prop :=
  ∃ first last st', find cmp nel (st.2 lo) lo hi st = some ((first, last), st') ∧ last + 1 < first

/-- They cross in this turn, which is a partition by blocks. -/
def Crossing (wide : Bool) (st : σ × (ℕ → α)) : List Qsort.Frame → Prop
  | [] => False
  | f :: _ => wide = false ∧ f.depth ≠ 0 ∧ 128 ≤ f.hi - f.lo ∧
      ∃ st', medianOf3 cmp nel f.lo f.hi st = some ((), st') ∧ Crosses cmp nel f.lo f.hi st'

/-- **In no turn the scans cross.** -/
def Steady (wide : Bool) (st₀ : σ × (ℕ → α)) : Prop :=
  ∀ frames st, Reaches cmp nel wide st₀ frames st → ¬ Crossing cmp nel wide st frames

end DaScript.QsortAsked
