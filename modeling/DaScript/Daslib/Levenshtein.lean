import DaScript.Daslib.ReplaceMultiple
import DaScript.Machinery.EditDistance

/-!
# Daslib/Levenshtein — both distances are the least number of edits

`levenshtein_distance` and `levenshtein_distance_fast` of `strings_boost.das`: a matrix of the
prefixes of both strings, and two rows of it.

The lengths are `int`, and `sLen + 1` is one more: at 2147483647 bytes there is no such matrix.
-/

namespace DaScript.Levenshtein

open ReplaceMultiple (Str int32)
open EditDistance (distance cost Edits)

/-! ## Arrays -/

section Arrays

variable {α : Type}

/-- `resize`, which fails below zero. -/
def resize (zero : α) (a : List α) (newSize : ℤ) : Option (List α) :=
  if newSize < 0 then none
  else some (a.take newSize.toNat ++ List.replicate (newSize.toNat - a.length) zero)

/-- `a[i]`; a negative index is out of range. -/
def get (a : List α) (i : ℤ) : Option α := if i < 0 then none else a[i.toNat]?

/-- `a[i] = value` -/
def set (a : List α) (i : ℤ) (value : α) : Option (List α) :=
  if 0 ≤ i ∧ i.toNat < a.length then some (a.set i.toNat value) else none

/-- `d[i][j]` -/
def get2 (d : List (List α)) (i j : ℤ) : Option α := do get (← get d i) j

/-- `d[i][j] = value` -/
def set2 (d : List (List α)) (i j : ℤ) (value : α) : Option (List (List α)) := do
  set d i (← set (← get d i) j value)

def range (lo hi : ℤ) : List ℤ := (List.range (hi - lo).toNat).map fun k : ℕ => lo + k

/-- A loop over a range. -/
def forRange (lo hi : ℤ) (a : α) (body : α → ℤ → Option α) : Option α :=
  (range lo hi).foldlM body a

end Arrays

/-! ## The distances -/

/-- The cost of a substitution, `i` and `j` being indices of the two strings. -/
def substitutionCost (s t : Str) (i j : ℤ) : ℤ :=
  if s.characterUat i = t.characterUat j then 0 else 1

/-- The body of the inner loop. -/
def cell (s t : Str) (i : ℤ) (d : List (List ℤ)) (j : ℤ) : Option (List (List ℤ)) := do
  let substitutionCost := substitutionCost s t (i - 1) (j - 1)
  let d ← set2 d i j (min (int32 ((← get2 d (i - 1) j) + 1)) (int32 ((← get2 d i (j - 1)) + 1)))
  set2 d i j (min (← get2 d i j) (int32 ((← get2 d (i - 1) (j - 1)) + substitutionCost)))

/-- A row, and its first entry. -/
def firstEntry (tLen : ℤ) (d : List (List ℤ)) (i : ℤ) : Option (List (List ℤ)) := do
  set d i (← set (← resize 0 (← get d i) (int32 (tLen + 1))) 0 i)

def levenshteinDistance (s t : Str) : Option ℤ := do
  let sLen := s.length
  let tLen := t.length
  let d ← resize [] [] (int32 (sLen + 1))
  let d ← forRange 0 (int32 (sLen + 1)) d (firstEntry tLen)
  let d ← forRange 0 (int32 (tLen + 1)) d fun d j => set2 d 0 j j
  let d ← forRange 1 (int32 (sLen + 1)) d fun d i => forRange 1 (int32 (tLen + 1)) d (cell s t i)
  get2 d sLen tLen

/-- The body of the inner loop, of two rows. -/
def cellFast (s t : Str) (i : ℤ) (v0 v1 : List ℤ) (j : ℤ) : Option (List ℤ) := do
  let deletionCost := int32 ((← get v0 (j + 1)) + 1)
  let insertionCost := int32 ((← get v1 j) + 1)
  let substitutionCost := int32 ((← get v0 j) + substitutionCost s t i j)
  let v1 ← set v1 (j + 1) (min deletionCost insertionCost)
  set v1 (j + 1) (min (← get v1 (j + 1)) substitutionCost)

/-- The body of the outer loop, of both rows; they are swapped at its end. -/
def rowFast (s t : Str) (v : List ℤ × List ℤ) (i : ℤ) : Option (List ℤ × List ℤ) := do
  let v1 ← set v.2 0 (i + 1)
  let v1 ← forRange 0 t.length v1 (cellFast s t i v.1)
  return (v1, v.1)

def levenshteinDistanceFast (s t : Str) : Option ℤ := do
  let sLen := s.length
  let tLen := t.length
  let v0 ← resize 0 [] (int32 (tLen + 1))
  let v1 ← resize 0 [] (int32 (tLen + 1))
  let v0 ← forRange 0 (int32 (tLen + 1)) v0 fun v0 i => set v0 i i
  let v ← forRange 0 sLen (v0, v1) (rowFast s t)
  get v.1 tLen

/-! ## Arrays and loops -/

section Arrays

variable {α : Type} {a : List α} {n i j : ℕ} {x : α}

theorem get_natCast (a : List α) (i : ℕ) : get a (i : ℤ) = a[i]? := by
  rw [get, if_neg (by omega), Int.toNat_natCast]

theorem set_natCast (hi : i < a.length) (x : α) : set a (i : ℤ) x = some (a.set i x) :=
  if_pos ⟨Int.natCast_nonneg i, by rwa [Int.toNat_natCast]⟩

theorem resize_nil (zero : α) (n : ℕ) : resize zero [] (n : ℤ) = some (List.replicate n zero) := by
  rw [resize, if_neg (by omega)]
  simp

theorem forRange_keeps (lo : ℤ) (body : α → ℤ → Option α) (P : ℕ → α → Prop) (n : ℕ)
    (h0 : P 0 x) (hbody : ∀ k < n, ∀ a, P k a → ∃ a', body a (lo + k) = some a' ∧ P (k + 1) a') :
    ∃ a, forRange lo (lo + n) x body = some a ∧ P n a := by
  rw [forRange, range, add_sub_cancel_left, Int.toNat_natCast]
  induction n with
  | zero => exact ⟨x, rfl, h0⟩
  | succ n ih =>
    obtain ⟨a, ha, hP⟩ := ih fun k hk => hbody k (hk.trans n.lt_succ_self)
    obtain ⟨a', ha', hP'⟩ := hbody n n.lt_succ_self a hP
    refine ⟨a', ?_, hP'⟩
    rw [List.range_succ, List.map_append, List.foldlM_append, ha]
    simpa using ha'

/-- A matrix of so many rows and columns. -/
structure Shape (m n : ℕ) (d : List (List α)) : Prop where
  length : d.length = m
  row : ∀ i < m, ∃ row, d[i]? = some row ∧ row.length = n

variable {m : ℕ} {d : List (List α)}

theorem Shape.set2 (hd : Shape m n d) (hi : i < m) (hj : j < n) (x : α) :
    ∃ d', set2 d i j x = some d' ∧ Shape m n d' ∧
      ∀ a b : ℕ, get2 d' a b = if a = i ∧ b = j then some x else get2 d a b := by
  obtain ⟨row, hrow, hlength⟩ := hd.row i hi
  have hi' : i < d.length := hd.length ▸ hi
  have hj' : j < row.length := hlength ▸ hj
  refine ⟨d.set i (row.set j x), ?_, ⟨?_, fun k hk => ?_⟩, fun a b => ?_⟩
  · rw [Levenshtein.set2, get_natCast, hrow, Option.bind_eq_bind, Option.bind_some,
      set_natCast hj', Option.bind_some, set_natCast hi']
  · rw [List.length_set, hd.length]
  · by_cases hik : i = k
    · subst hik
      exact ⟨row.set j x, by simp [hi'], by rw [List.length_set, hlength]⟩
    · obtain ⟨row', hrow', hlength'⟩ := hd.row k hk
      exact ⟨row', by rw [List.getElem?_set_ne hik, hrow'], hlength'⟩
  · rw [get2, get2, get_natCast, get_natCast]
    by_cases hai : a = i
    · subst hai
      by_cases hbj : b = j
      · subst hbj
        simp [hi', hj', get_natCast]
      · rw [if_neg fun h => hbj h.2, List.getElem?_set_self hi', hrow, Option.bind_eq_bind,
          Option.bind_some, Option.bind_some, get_natCast, get_natCast,
          List.getElem?_set_ne (Ne.symm hbj)]
    · rw [if_neg fun h => hai h.1, List.getElem?_set_ne (Ne.symm hai)]

end Arrays

/-! ## The matrix -/

/-- The distance of two prefixes. -/
def entry (s t : Str) (i j : ℕ) : ℤ := distance (s.bytes.take i) (t.bytes.take j)

/-- One more than its length is an `int`. -/
def Short (s : Str) : Prop := s.bytes.length < 2 ^ 31 - 1

theorem int32_of {x : ℤ} (hlo : -2 ^ 31 ≤ x) (hhi : x < 2 ^ 31) : int32 x = x :=
  Int.bmod_eq_of_le (by omega) (by omega)

section Entries

variable {s t : Str} {i j : ℕ}

theorem entry_zero_left (hj : j ≤ t.bytes.length) : entry s t 0 j = j := by
  rw [entry, List.take_zero, EditDistance.distance_nil_left, List.length_take_of_le hj]

theorem entry_zero_right (hi : i ≤ s.bytes.length) : entry s t i 0 = i := by
  rw [entry, List.take_zero, EditDistance.distance_nil_right, List.length_take_of_le hi]

theorem entry_succ (hi : i < s.bytes.length) (hj : j < t.bytes.length) :
    entry s t (i + 1) (j + 1) =
      min (min (entry s t i (j + 1) + 1) (entry s t (i + 1) j + 1))
        (entry s t i j + substitutionCost s t i j) := by
  have hcost : substitutionCost s t i j = cost s.bytes[i] t.bytes[j] := by
    simp [substitutionCost, cost, Str.characterUat, hi, hj]
  rw [entry, entry, entry, entry, hcost, List.take_succ_eq_append_getElem hi,
    List.take_succ_eq_append_getElem hj, EditDistance.distance_append]
  push_cast
  rfl

theorem entry_bounds (hs : Short s) (ht : Short t) (i j : ℕ) :
    0 ≤ entry s t i j ∧ entry s t i j < 2 ^ 31 - 1 := by
  have hmax := EditDistance.distance_le_max (s.bytes.take i) (t.bytes.take j)
  have hi := List.length_take_le i s.bytes
  have hj := List.length_take_le j t.bytes
  rw [List.length_take, List.length_take] at hmax
  rw [Short] at hs ht
  rw [entry]
  omega

theorem substitutionCost_bounds (s t : Str) (i j : ℤ) :
    0 ≤ substitutionCost s t i j ∧ substitutionCost s t i j ≤ 1 := by
  rw [substitutionCost]
  split <;> omega

theorem int32_entry (hs : Short s) (ht : Short t) (i j : ℕ) {c : ℤ} (h0 : 0 ≤ c) (h1 : c ≤ 1) :
    int32 (entry s t i j + c) = entry s t i j + c := by
  have := entry_bounds hs ht i j
  exact int32_of (by omega) (by omega)

theorem Short.length (hs : Short s) : s.length = s.bytes.length := by
  rw [Short] at hs
  exact int32_of (by omega) (by omega)

theorem Short.length_succ (hs : Short s) :
    int32 (s.length + 1) = (s.bytes.length + 1 : ℕ) := by
  rw [hs.length]
  rw [Short] at hs
  exact int32_of (by omega) (by omega)

end Entries

section Matrix

variable {s t : Str} {i j : ℕ} {d : List (List ℤ)} {done : ℕ → ℕ → Prop}

/-- **The entries that are done are distances.** -/
def Filled (s t : Str) (done : ℕ → ℕ → Prop) (d : List (List ℤ)) : Prop :=
  Shape (s.bytes.length + 1) (t.bytes.length + 1) d ∧
    ∀ i j : ℕ, done i j → get2 d i j = some (entry s t i j)

theorem Filled.mono (h : Filled s t done d) {done' : ℕ → ℕ → Prop}
    (hdone : ∀ i j, done' i j → done i j) : Filled s t done' d :=
  ⟨h.1, fun i j hij => h.2 i j (hdone i j hij)⟩

theorem Filled.set2 (h : Filled s t done d) (hi : i ≤ s.bytes.length) (hj : j ≤ t.bytes.length) :
    ∃ d', set2 d i j (entry s t i j) = some d' ∧
      Filled s t (fun a b => done a b ∨ a = i ∧ b = j) d' := by
  obtain ⟨d', hset, hshape, hget⟩ :=
    h.1.set2 (Nat.lt_succ_of_le hi) (Nat.lt_succ_of_le hj) (entry s t i j)
  refine ⟨d', hset, hshape, fun a b hab => ?_⟩
  rw [hget]
  by_cases heq : a = i ∧ b = j
  · rw [if_pos heq, heq.1, heq.2]
  · rw [if_neg heq]
    exact h.2 a b (hab.resolve_right heq)

theorem Filled.cell (h : Filled s t done d) (hs : Short s) (ht : Short t)
    (hi : i < s.bytes.length) (hj : j < t.bytes.length) (hup : done i (j + 1))
    (hleft : done (i + 1) j) (hdiag : done i j) :
    ∃ d', cell s t (1 + i) d (1 + j) = some d' ∧
      Filled s t (fun a b => done a b ∨ a = i + 1 ∧ b = j + 1) d' := by
  have hi' : (1 + i : ℤ) = (i + 1 : ℕ) := by omega
  have hj' : (1 + j : ℤ) = (j + 1 : ℕ) := by omega
  have hcost := substitutionCost_bounds s t i j
  obtain ⟨d₁, hset₁, hshape₁, hget₁⟩ := h.1.set2 (Nat.succ_lt_succ hi) (Nat.succ_lt_succ hj)
    (min (entry s t i (j + 1) + 1) (entry s t (i + 1) j + 1))
  obtain ⟨d₂, hset₂, hshape₂, hget₂⟩ := hshape₁.set2 (Nat.succ_lt_succ hi) (Nat.succ_lt_succ hj)
    (entry s t (i + 1) (j + 1))
  refine ⟨d₂, ?_, hshape₂, fun a b hab => ?_⟩
  · have hdiag₁ : get2 d₁ i j = some (entry s t i j) := by
      rw [hget₁, if_neg (by omega), h.2 i j hdiag]
    rw [Levenshtein.cell, hi', hj']
    simp only [Nat.cast_add, Nat.cast_one, add_sub_cancel_right]
    rw [← Nat.cast_succ, ← Nat.cast_succ, h.2 i (j + 1) hup, h.2 (i + 1) j hleft]
    simp only [Option.bind_eq_bind, Option.bind_some]
    rw [int32_entry hs ht _ _ zero_le_one le_rfl, int32_entry hs ht _ _ zero_le_one le_rfl, hset₁,
      Option.bind_some, hget₁, if_pos ⟨rfl, rfl⟩, Option.bind_some, hdiag₁, Option.bind_some,
      int32_entry hs ht _ _ hcost.1 hcost.2, ← entry_succ hi hj, hset₂]
  · rw [hget₂]
    by_cases heq : a = i + 1 ∧ b = j + 1
    · rw [if_pos heq, heq.1, heq.2]
    · rw [if_neg heq, hget₁, if_neg heq]
      exact h.2 a b (hab.resolve_right heq)

end Matrix

section Slow

variable {s t : Str}

theorem firstEntries (ht : Short t) (m : ℕ) :
    ∃ d, forRange 0 (m : ℤ) (List.replicate m []) (firstEntry t.length) = some d ∧
      d.length = m ∧
      ∀ i < m, d[i]? = some ((i : ℤ) :: List.replicate t.bytes.length 0) := by
  let P (k : ℕ) (d : List (List ℤ)) : Prop := d.length = m ∧
    ∀ i < m, d[i]? = some (if i < k then (i : ℤ) :: List.replicate t.bytes.length 0 else [])
  have h0 : P 0 (List.replicate m []) := by
    refine ⟨List.length_replicate, fun i hi => ?_⟩
    rw [if_neg i.not_lt_zero, List.getElem?_replicate_of_lt hi]
  obtain ⟨d, hd, hlength, hrow⟩ := forRange_keeps 0 (firstEntry t.length) P m h0 fun k hk d hP => by
    have hget : get d (k : ℤ) = some [] := by
      rw [get_natCast, hP.2 k hk, if_neg (lt_irrefl k)]
    have hset : set (List.replicate (t.bytes.length + 1) (0 : ℤ)) 0 k =
        some ((k : ℤ) :: List.replicate t.bytes.length 0) := rfl
    refine ⟨d.set k ((k : ℤ) :: List.replicate t.bytes.length 0), ?_, ?_, fun i hi => ?_⟩
    · rw [firstEntry, zero_add, hget, Option.bind_eq_bind, Option.bind_some, ht.length_succ,
        resize_nil, Option.bind_some, hset, Option.bind_some, set_natCast (hP.1.symm ▸ hk)]
    · rw [List.length_set, hP.1]
    · by_cases hik : k = i
      · subst hik
        rw [List.getElem?_set_self (hP.1.symm ▸ hk), if_pos k.lt_succ_self]
      · rw [List.getElem?_set_ne hik, hP.2 i hi]
        exact congrArg some (if_congr (by omega) rfl rfl)
  rw [zero_add] at hd
  exact ⟨d, hd, hlength, fun i hi => (hrow i hi).trans (by rw [if_pos hi])⟩

theorem levenshteinDistance_short (hs : Short s) (ht : Short t) :
    levenshteinDistance s t = some (distance s.bytes t.bytes : ℤ) := by
  obtain ⟨d₀, hd₀, hlength₀, hrow₀⟩ := firstEntries ht (s.bytes.length + 1)
  have hfilled₀ : Filled s t (fun a b => a ≤ s.bytes.length ∧ b = 0) d₀ := by
    refine ⟨⟨hlength₀, fun i hi => ⟨_, hrow₀ i hi, ?_⟩⟩, fun a b ⟨ha, hb⟩ => ?_⟩
    · rw [List.length_cons, List.length_replicate]
    · rw [get2, get_natCast, hrow₀ a (Nat.lt_succ_of_le ha), hb, entry_zero_right ha]
      rfl
  obtain ⟨d₁, hd₁, hfilled₁⟩ := forRange_keeps 0 (fun d j => set2 d 0 j j)
    (fun k => Filled s t fun a b => (a ≤ s.bytes.length ∧ b = 0) ∨ a = 0 ∧ b < k)
    (t.bytes.length + 1) (hfilled₀.mono (by omega)) fun k hk d h => by
      obtain ⟨d', hset, hfilled⟩ := h.set2 (Nat.zero_le _) (Nat.le_of_lt_succ hk)
      rw [entry_zero_left (Nat.le_of_lt_succ hk)] at hset
      exact ⟨d', (zero_add (k : ℤ)).symm ▸ hset, hfilled.mono (by omega)⟩
  rw [zero_add] at hd₁
  obtain ⟨d₂, hd₂, hfilled₂⟩ := forRange_keeps 1
    (fun d i => forRange 1 (int32 (t.length + 1)) d (cell s t i))
    (fun k => Filled s t fun a b => a ≤ s.bytes.length ∧ b ≤ t.bytes.length ∧ (b = 0 ∨ a ≤ k))
    s.bytes.length (hfilled₁.mono (by omega)) fun i hi d h => by
      obtain ⟨d', hd', hfilled⟩ := forRange_keeps 1 (cell s t (1 + i))
        (fun k => Filled s t fun a b => a ≤ s.bytes.length ∧ b ≤ t.bytes.length ∧
          (b = 0 ∨ a ≤ i ∨ a = i + 1 ∧ b ≤ k))
        t.bytes.length (h.mono (by omega)) fun j hj d h => by
          obtain ⟨d', hd', hfilled⟩ := h.cell hs ht hi hj (by omega) (by omega) (by omega)
          exact ⟨d', hd', hfilled.mono (by omega)⟩
      refine ⟨d', ?_, hfilled.mono (by omega)⟩
      rw [ht.length_succ, Nat.cast_succ, add_comm (t.bytes.length : ℤ)]
      exact hd'
  have hrows : resize ([] : List ℤ) [] (s.bytes.length + 1 : ℕ) =
      some (List.replicate (s.bytes.length + 1) []) := resize_nil _ _
  have hlast := hfilled₂.2 s.bytes.length t.bytes.length (by omega)
  rw [entry, List.take_length, List.take_length] at hlast
  rw [add_comm, ← Nat.cast_succ, ← hs.length_succ] at hd₂
  rw [← ht.length_succ] at hd₁
  rw [levenshteinDistance, hs.length_succ, hrows, Option.bind_eq_bind, Option.bind_some, hd₀,
    Option.bind_some, hd₁, Option.bind_some, ← hs.length_succ, hd₂, Option.bind_some, hs.length,
    ht.length, hlast]

end Slow

section Fast

variable {s t : Str} {i j : ℕ} {v v0 v1 : List ℤ}

/-- A row of the matrix. -/
structure IsRow (s t : Str) (i : ℕ) (v : List ℤ) : Prop where
  length : v.length = t.bytes.length + 1
  entries : ∀ j ≤ t.bytes.length, v[j]? = some (entry s t i j)

theorem cellFast_spec (hs : Short s) (ht : Short t) (hi : i < s.bytes.length)
    (hj : j < t.bytes.length) (hv0 : IsRow s t i v0) (hlength : v1.length = t.bytes.length + 1)
    (hleft : v1[j]? = some (entry s t (i + 1) j)) :
    cellFast s t i v0 v1 j = some (v1.set (j + 1) (entry s t (i + 1) (j + 1))) := by
  have hj' : j + 1 < v1.length := by omega
  have hcost := substitutionCost_bounds s t i j
  rw [cellFast, ← Nat.cast_succ, get_natCast, get_natCast, get_natCast, hv0.entries (j + 1) hj,
    hv0.entries j hj.le, hleft]
  simp only [Option.bind_eq_bind, Option.bind_some]
  rw [int32_entry hs ht _ _ zero_le_one le_rfl, int32_entry hs ht _ _ zero_le_one le_rfl,
    int32_entry hs ht _ _ hcost.1 hcost.2, set_natCast hj', Option.bind_some, get_natCast,
    List.getElem?_set_self hj', Option.bind_some, ← entry_succ hi hj,
    set_natCast (by rwa [List.length_set]), List.set_set]

theorem rowFast_spec (hs : Short s) (ht : Short t) (hi : i < s.bytes.length)
    (hv0 : IsRow s t i v0) (hlength : v1.length = t.bytes.length + 1) :
    ∃ v, rowFast s t (v0, v1) i = some v ∧ IsRow s t (i + 1) v.1 ∧
      v.2.length = t.bytes.length + 1 := by
  have hfirst : set v1 0 ((i : ℤ) + 1) = some (v1.set 0 ((i : ℤ) + 1)) :=
    set_natCast (i := 0) (by omega) _
  let P (k : ℕ) (v : List ℤ) : Prop :=
    v.length = t.bytes.length + 1 ∧ ∀ j ≤ k, v[j]? = some (entry s t (i + 1) j)
  have h0 : P 0 (v1.set 0 ((i : ℤ) + 1)) := by
    refine ⟨by rw [List.length_set, hlength], fun j hj => ?_⟩
    rw [Nat.le_zero.mp hj, List.getElem?_set_self (by omega), entry_zero_right hi, Nat.cast_succ]
  obtain ⟨v, hv, hrow⟩ := forRange_keeps 0 (cellFast s t i v0) P t.bytes.length h0
    fun j hj v hP => by
      refine ⟨v.set (j + 1) (entry s t (i + 1) (j + 1)), ?_, ?_, fun k hk => ?_⟩
      · rw [zero_add, cellFast_spec hs ht hi hj hv0 hP.1 (hP.2 j le_rfl)]
      · rw [List.length_set, hP.1]
      · by_cases hkj : j + 1 = k
        · subst hkj
          rw [List.getElem?_set_self (by rw [hP.1]; omega)]
        · rw [List.getElem?_set_ne hkj]
          exact hP.2 k (by omega)
  rw [zero_add, ← ht.length] at hv
  refine ⟨(v, v0), ?_, ⟨hrow.1, hrow.2⟩, hv0.length⟩
  rw [rowFast, hfirst, Option.bind_eq_bind, Option.bind_some, hv]
  rfl

theorem levenshteinDistanceFast_short (hs : Short s) (ht : Short t) :
    levenshteinDistanceFast s t = some (distance s.bytes t.bytes : ℤ) := by
  let P (k : ℕ) (v : List ℤ) : Prop :=
    v.length = t.bytes.length + 1 ∧ ∀ j < k, v[j]? = some (j : ℤ)
  have h0 : P 0 (List.replicate (t.bytes.length + 1) 0) :=
    ⟨List.length_replicate, fun j hj => absurd hj j.not_lt_zero⟩
  obtain ⟨v0, hv0, hrow⟩ := forRange_keeps 0 (fun v i => set v i i) P (t.bytes.length + 1) h0
    fun j hj v hP => by
      refine ⟨v.set j (j : ℤ), ?_, ?_, fun k hk => ?_⟩
      · rw [zero_add, set_natCast (by omega)]
      · rw [List.length_set, hP.1]
      · by_cases hkj : j = k
        · subst hkj
          rw [List.getElem?_set_self (by rw [hP.1]; omega)]
        · rw [List.getElem?_set_ne hkj]
          exact hP.2 k (by omega)
  have hfirst : IsRow s t 0 v0 :=
    ⟨hrow.1, fun j hj => by rw [hrow.2 j (Nat.lt_succ_of_le hj), entry_zero_left hj]⟩
  obtain ⟨v, hv, hlast, -⟩ := forRange_keeps 0 (rowFast s t)
    (fun k v => IsRow s t k v.1 ∧ v.2.length = t.bytes.length + 1) s.bytes.length
    (x := (v0, List.replicate (t.bytes.length + 1) 0)) ⟨hfirst, List.length_replicate⟩
    fun i hi v hP => by
      rw [zero_add]
      exact rowFast_spec hs ht hi hP.1 hP.2
  have hget := hlast.entries t.bytes.length le_rfl
  rw [entry, List.take_length, List.take_length] at hget
  rw [zero_add, ← hs.length] at hv
  rw [zero_add] at hv0
  rw [levenshteinDistanceFast, ht.length_succ, resize_nil, Option.bind_eq_bind, Option.bind_some,
    Option.bind_some, hv0, Option.bind_some, hv, Option.bind_eq_bind, Option.bind_some, ht.length,
    get_natCast, hget]

end Fast

/-! ## Longer strings -/

section Long

variable {s t : Str}

theorem length_succ_nonpos (hs : ¬ Short s) : int32 (s.length + 1) ≤ 0 := by
  have hfits := s.fits
  rw [Short] at hs
  have : int32 (s.length + 1) = int32 (s.bytes.length + 1 - 2 ^ 32) := by
    rw [Str.length, int32, int32, int32, Int.bmod_add_bmod]
    exact (Int.sub_bmod_right (s.bytes.length + 1 : ℤ) (2 ^ 32)).symm
  rw [this, int32_of (by omega) (by omega)]
  omega

theorem get_nil {α : Type} (i : ℤ) : get ([] : List α) i = none := by
  rw [get]
  split <;> simp

theorem foldlM_fails {α : Type} {body : α → ℤ → Option α} {x a : α} {is : List ℤ}
    (hbody : ∀ i, body x i = none) (h : is.foldlM body x = some a) : is = [] ∧ a = x := by
  cases is with
  | nil => exact ⟨rfl, (Option.some.inj h).symm⟩
  | cons i is => simp [hbody i] at h

theorem firstEntry_long (ht : ¬ Short t) (d : List (List ℤ)) (i : ℤ) :
    firstEntry t.length d i = none := by
  have hnew := length_succ_nonpos ht
  rw [firstEntry]
  cases get d i with
  | none => rfl
  | some row =>
    rw [Option.bind_eq_bind, Option.bind_some, resize]
    by_cases hneg : int32 (t.length + 1) < 0
    · rw [if_pos hneg]
      rfl
    · have hzero : int32 (t.length + 1) = 0 := by omega
      rw [hzero]
      simp [set]

theorem levenshteinDistance_long (h : ¬ (Short s ∧ Short t)) : levenshteinDistance s t = none := by
  by_cases hs : Short s
  · have ht : ¬ Short t := fun ht => h ⟨hs, ht⟩
    have hrows : resize ([] : List ℤ) [] (s.bytes.length + 1 : ℕ) =
        some (List.replicate (s.bytes.length + 1) []) := resize_nil _ _
    rw [levenshteinDistance, hs.length_succ, hrows, Option.bind_eq_bind, Option.bind_some,
      Option.bind_eq_none_iff]
    intro d hd
    have hempty := (foldlM_fails (firstEntry_long ht _) hd).1
    simp [range] at hempty
  · rw [levenshteinDistance, Option.bind_eq_bind, Option.bind_eq_none_iff]
    have hnew := length_succ_nonpos hs
    intro d hd
    rw [resize] at hd
    split at hd
    · exact absurd hd (by simp)
    · have hzero : int32 (s.length + 1) = 0 := by omega
      rw [hzero] at hd ⊢
      obtain rfl : [] = d := Option.some.inj hd
      have hrange : forRange 0 0 ([] : List (List ℤ)) (firstEntry t.length) = some [] := rfl
      rw [hrange, Option.bind_some, Option.bind_eq_none_iff]
      intro d hd
      have hfails : ∀ j : ℤ, set2 ([] : List (List ℤ)) 0 j j = none := fun j => by
        rw [set2, get_nil]
        rfl
      obtain ⟨-, rfl⟩ := foldlM_fails hfails hd
      have hrange' : forRange 1 0 ([] : List (List ℤ))
          (fun d i => forRange 1 (int32 (t.length + 1)) d (cell s t i)) = some [] := rfl
      rw [hrange', Option.bind_some, get2, get_nil]
      rfl

end Long

/-! ## The least number of edits -/

/-- Both distances are the least number of edits. -/
def Exact (s t : Str) : Prop :=
  ∃ d : ℕ, levenshteinDistance s t = some (d : ℤ) ∧ levenshteinDistanceFast s t = some (d : ℤ) ∧
    IsLeast {n | Edits n s.bytes t.bytes} d

/-- What a distance is. -/
structure Metric (s t : Str) : Prop where
  symmetric : levenshteinDistance s t = levenshteinDistance t s
  zero : levenshteinDistance s t = some 0 ↔ s.bytes = t.bytes
  triangle : ∀ u, Short u → ∃ a b c, levenshteinDistance s t = some a ∧
    levenshteinDistance t u = some b ∧ levenshteinDistance s u = some c ∧ c ≤ a + b

theorem Metric.of_short {s t : Str} (hs : Short s) (ht : Short t) : Metric s t where
  symmetric := by
    rw [levenshteinDistance_short hs ht, levenshteinDistance_short ht hs,
      EditDistance.distance_comm]
  zero := by
    rw [levenshteinDistance_short hs ht, Option.some.injEq, Nat.cast_eq_zero,
      EditDistance.distance_eq_zero]
  triangle := fun u hu =>
    ⟨_, _, _, levenshteinDistance_short hs ht, levenshteinDistance_short ht hu,
      levenshteinDistance_short hs hu,
      by exact_mod_cast EditDistance.distance_triangle s.bytes t.bytes u.bytes⟩

/-- **Both distances are exact** for just the strings whose length and one more is an `int`. -/
theorem exact_iff_short (s t : Str) : Exact s t ∧ Metric s t ↔ Short s ∧ Short t := by
  constructor
  · rintro ⟨⟨d, hd, -⟩, -⟩
    by_contra hlong
    rw [levenshteinDistance_long hlong] at hd
    exact Option.some_ne_none _ hd.symm
  · rintro ⟨hs, ht⟩
    exact ⟨⟨_, levenshteinDistance_short hs ht, levenshteinDistanceFast_short hs ht,
      EditDistance.distance_isLeast s.bytes t.bytes⟩, .of_short hs ht⟩

theorem longest_nulFree : (0 : UInt8) ∉ List.replicate (2 ^ 31 - 1) 97 := by
  rw [List.mem_replicate]
  simp

theorem longest_fits : (List.replicate (2 ^ 31 - 1) (97 : UInt8)).length < 2 ^ 32 := by
  rw [List.length_replicate]
  omega

/-- `"aa…a"`, of 2147483647 bytes. -/
def longest : Str := ⟨List.replicate (2 ^ 31 - 1) 97, longest_nulFree, longest_fits⟩

theorem empty_nulFree : (0 : UInt8) ∉ [] := List.not_mem_nil

theorem empty_fits : ([] : List UInt8).length < 2 ^ 32 := by decide

/-- `""` -/
def empty : Str := ⟨[], empty_nulFree, empty_fits⟩

theorem not_exact_longest : ¬ Exact longest empty := by
  rintro ⟨d, hd, -⟩
  rw [levenshteinDistance_long fun h => ?_] at hd
  · exact Option.some_ne_none _ hd.symm
  · have hlength : longest.bytes.length < 2 ^ 31 - 1 := h.1
    rw [longest, List.length_replicate] at hlength
    exact absurd hlength (lt_irrefl _)

end DaScript.Levenshtein
