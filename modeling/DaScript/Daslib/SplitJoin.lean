import DaScript.Daslib.ReplaceMultiple
import DaScript.Machinery.Cutting

/-!
# Daslib/SplitJoin — split, join, count and replace find the same delimiters

`split`, `split_by_chars`, `join` and `count` of `strings_boost.das`, with what they call of
`module_builtin_string.cpp`, and the `TextWriter` that a joined text is written to.  Three loops go
over the text; each resumes behind the delimiter that it has found.

A writer counts in `int`: nothing that it has written is of 2147483647 bytes.
-/

namespace DaScript.SplitJoin

open ReplaceMultiple (Str int32 builtinReplace leftmostFirst)
open Cutting (upTo pieces stops begins)

/-- It ends, with that. -/
def Returns {α : Type} (run : ℕ → Option α) (result : α) : Prop :=
  ∃ n, ∀ fuel ≥ n, run fuel = some result

/-! ## `split` -/

/-- The loop of both splits, of so many rounds at most; `stop` is what is looked for, `width` what
is skipped there. -/
def splitLoop (stop : List UInt8 → Bool) (width : ℕ) :
    ℕ → List UInt8 → List (List UInt8) → Option (List (List UInt8))
  | 0, _, _ => none
  | fuel + 1, ch, words =>
    if ch = [] then some words
    else
      let tok := (upTo stop ch).1
      let ch := (upTo stop ch).2
      let words := words ++ [tok]
      if ch = [] then some words
      else
        let ch := if stop ch then ch.drop width else ch
        let words := if ch = [] then words ++ [[]] else words
        splitLoop stop width fuel ch words

/-- The tokens of a split; without a delimiter they are the bytes. -/
def tokens (stop : List UInt8 → Bool) (width : ℕ) (fuel : ℕ) (str delim : List UInt8) :
    Option (List (List UInt8)) := do
  let words ← if delim.length ≠ 0 then splitLoop stop width fuel str []
    else some (str.map fun ch => [ch])
  return if words = [] then [[]] else words

/-- The array that a block is given, of `uint32_t` entries, cloned: its length is an `int`, or
`length` fails. -/
def cloned (tokens : List (List UInt8)) : Option (List (List UInt8)) :=
  let size := tokens.length % 2 ^ 32
  if size < 2 ^ 31 then some (tokens.take size) else none

/-- `split`, with `builtin_string_split`. -/
def split (fuel : ℕ) (text delim : Str) : Option (List (List UInt8)) := do
  cloned (← tokens (begins delim.bytes) delim.bytes.length fuel text.bytes delim.bytes)

/-- One of the bytes is here. -/
def oneOf (delim rest : List UInt8) : Bool := rest.head?.any (· ∈ delim)

/-- `split_by_chars`, with `builtin_string_split_by_char`. -/
def splitByChars (fuel : ℕ) (text delim : Str) : Option (List (List UInt8)) := do
  cloned (← tokens (oneOf delim.bytes) 1 fuel text.bytes delim.bytes)

/-! ## `join` -/

/-- `TextWriter`: what is written, `size` bytes of it, and the capacity of its buffer. -/
structure Writer where
  written : List UInt8
  capacity : ℤ

def Writer.size (w : Writer) : ℤ := w.written.length

/-- A writer as it is made, with a buffer of 256 bytes. -/
def Writer.new : Writer := ⟨[], 256⟩

/-- `append`, with `allocate`.  A text that goes beyond the buffer, as it does where `size + l` is
no `int`, is written where there is no buffer. -/
def Writer.append (w : Writer) (s : List UInt8) : Option Writer :=
  let l := int32 s.length
  if int32 (w.size + l) ≤ w.capacity then
    if l < 0 ∨ w.capacity < w.size + l then none else some { w with written := w.written ++ s }
  else
    let newCapacity := int32 (w.capacity * 2)
    let newCapacity :=
      if newCapacity < int32 (w.size + l) then int32 (w.size + l) else newCapacity
    some { written := w.written ++ s, capacity := newCapacity }

/-- `write` of a string: an empty one is not appended. -/
def Writer.write (w : Writer) (s : List UInt8) : Option Writer :=
  if s.length = 0 then some w else w.append s

/-- `c_str`: the NUL needs one byte more. -/
def Writer.cStr (w : Writer) : Option (List UInt8) :=
  if w.size < w.capacity then some w.written
  else if int32 (w.size + 1) < 0 then none else some w.written

/-- `builtin_build_string` of what is written; the length is cast to `uint32_t`. -/
def buildString (w : Writer) : Option (List UInt8) :=
  if w.size ≠ 0 then w.cStr.map (List.take (w.written.length % 2 ^ 32)) else some []

/-- The body of the loop of `join`. -/
def joinElem (separator : List UInt8) (st : Writer × Bool) (elem : List UInt8) :
    Option (Writer × Bool) := do
  let writer ← if st.2 then some st.1 else st.1.write separator
  return (← writer.write elem, false)

def join (it : List (List UInt8)) (separator : Str) : Option (List UInt8) := do
  let st ← it.foldlM (joinElem separator.bytes) (Writer.new, true)
  buildString st.1

/-! ## `count` -/

/-- `strstr`, of a text that is not empty. -/
def strstr (substr : List UInt8) : List UInt8 → Option ℕ
  | [] => none
  | ch :: str => if begins substr (ch :: str) then some 0 else (strstr substr str).map (· + 1)

def clampInt (v minv maxv : ℤ) : ℤ := if v < minv then minv else if v > maxv then maxv else v

/-- `builtin_string_find2` -/
def find2 (str substr : Str) : ℤ :=
  if str.bytes = [] ∨ substr.bytes = [] then -1
  else (strstr substr.bytes str.bytes).elim (-1) fun i => int32 i

/-- `builtin_string_find1`; there is no text before its begin. -/
def find1 (str substr : Str) (start : ℤ) : Option ℤ :=
  if str.bytes = [] ∨ substr.bytes = [] then some (-1)
  else
    let start := clampInt start 0 (int32 str.bytes.length)
    if start < 0 then none
    else
      some ((strstr substr.bytes (str.bytes.drop start.toNat)).elim (-1)
        fun i => int32 (start.toNat + i))

/-- The loop of `count`, of so many rounds at most. -/
def countLoop (str sub : Str) (subLen : ℤ) : ℕ → ℤ → ℤ → Option ℤ
  | 0, _, _ => none
  | fuel + 1, n, pos =>
    if 0 ≤ pos then do
      countLoop str sub subLen fuel (int32 (n + 1)) (← find1 str sub (int32 (pos + subLen)))
    else some n

/-- `count`, of so many rounds at most. -/
def count (fuel : ℕ) (str sub : Str) : Option ℤ :=
  if sub.bytes = [] then some 0 else countLoop str sub sub.length fuel 0 (find2 str sub)

/-! ## What is split -/

section Split

variable {stop : List UInt8 → Bool} {width : ℕ}

theorem splitLoop_pieces (hwidth : 0 < width) {fuel : ℕ} {ch : List UInt8} (hch : ch ≠ [])
    (hfuel : ch.length < fuel) (words : List (List UInt8)) :
    splitLoop stop width fuel ch words = some (words ++ pieces stop width ch) := by
  induction fuel generalizing ch words with
  | zero => exact absurd hfuel (Nat.not_lt_zero _)
  | succ fuel ih =>
    rw [splitLoop, if_neg hch, Cutting.pieces_eq_upTo]
    cases hleft : (upTo stop ch).2 with
    | nil => rw [if_pos rfl, Cutting.behind]
    | cons b left =>
      have hlength := Cutting.length_upTo_le stop ch
      obtain ⟨n, rfl⟩ := Nat.exists_eq_add_one_of_ne_zero hwidth.ne'
      rw [hleft, List.length_cons] at hlength
      rw [if_neg (List.cons_ne_nil b left), Cutting.stop_upTo hleft, if_pos rfl,
        List.drop_succ_cons, Cutting.behind, Nat.add_sub_cancel]
      dsimp only
      by_cases hend : left.drop n = []
      · obtain ⟨fuel, rfl⟩ := Nat.exists_eq_add_one_of_ne_zero (by omega : fuel ≠ 0)
        rw [hend, if_pos rfl, splitLoop, if_pos rfl, Cutting.pieces_nil, List.append_assoc,
          List.singleton_append]
      · rw [if_neg hend, ih hend (by rw [List.length_drop]; omega), List.append_assoc,
          List.singleton_append]

theorem tokens_pieces (hwidth : 0 < width) {str delim : List UInt8} (hdelim : delim ≠ [])
    {fuel : ℕ} (hfuel : str.length < fuel) :
    tokens stop width fuel str delim = some (pieces stop width str) := by
  obtain ⟨p, ps, hp⟩ := Cutting.exists_pieces stop width str
  rw [tokens, if_pos (mt List.length_eq_zero_iff.mp hdelim)]
  cases str with
  | nil =>
    obtain ⟨fuel, rfl⟩ := Nat.exists_eq_add_one_of_ne_zero (by omega : fuel ≠ 0)
    rw [splitLoop, if_pos rfl, Cutting.pieces_nil]
    rfl
  | cons ch str =>
    rw [splitLoop_pieces hwidth (List.cons_ne_nil ch str) hfuel, List.nil_append,
      Option.bind_eq_bind, Option.bind_some, hp]
    rfl

theorem cloned_eq {tokens : List (List UInt8)} (h : tokens.length < 2 ^ 31) :
    cloned tokens = some tokens := by
  rw [cloned, Nat.mod_eq_of_lt (by omega), if_pos h, List.take_length]

theorem cloned_subset {tokens words : List (List UInt8)} (h : cloned tokens = some words) :
    words ⊆ tokens := by
  rw [cloned] at h
  split at h
  · obtain rfl := Option.some.inj h
    exact List.take_subset _ _
  · exact absurd h (by simp)

end Split

/-! ## What is joined -/

section Join

variable {w w' : Writer} {s : List UInt8}

theorem int32_of {x : ℤ} (hlo : -2 ^ 31 ≤ x) (hhi : x < 2 ^ 31) : int32 x = x :=
  Int.bmod_eq_of_le (by omega) (by omega)

/-- What is written is in the buffer, and that is not larger than an `int`. -/
structure Writer.Good (w : Writer) : Prop where
  fits : w.size ≤ w.capacity
  le : w.capacity < 2 ^ 31

theorem Writer.new_good : Writer.new.Good := ⟨by decide, by decide⟩

theorem int32_wraps {x : ℤ} (hlo : 2 ^ 31 ≤ x) (hhi : x < 2 ^ 32) : int32 x = x - 2 ^ 32 := by
  rw [int32, Int.bmod_def]
  omega

theorem int32_lt (x : ℤ) : int32 x < 2 ^ 31 := by
  rw [int32, Int.bmod_def]
  omega

theorem Writer.Good.append (hw : w.Good) (h : w.written.length + s.length < 2 ^ 31) :
    ∃ w', w.append s = some w' ∧ w'.Good ∧ w'.written = w.written ++ s := by
  obtain ⟨hfits, hle⟩ := hw
  have hsize : w.size = w.written.length := rfl
  have hl : int32 s.length = s.length := int32_of (by omega) (by omega)
  have hsum : int32 (w.size + s.length) = w.size + s.length := int32_of (by omega) (by omega)
  have hwritten : ∀ capacity, (⟨w.written ++ s, capacity⟩ : Writer).size = w.size + s.length := by
    intro capacity
    rw [Writer.size, List.length_append, hsize]
    exact Nat.cast_add _ _
  rw [Writer.append, hl, hsum]
  by_cases hroom : w.size + s.length ≤ w.capacity
  · rw [if_pos hroom, if_neg (by omega)]
    exact ⟨_, rfl, ⟨(hwritten _).trans_le hroom, hle⟩, rfl⟩
  · have hdouble := int32_lt (w.capacity * 2)
    rw [if_neg hroom]
    refine ⟨_, rfl, ⟨(hwritten _).trans_le ?_, ?_⟩, rfl⟩
    · dsimp only
      split <;> omega
    · dsimp only
      split <;> omega

theorem Writer.Good.append_none (hw : w.Good) (hs : s.length < 2 ^ 32)
    (h : 2 ^ 31 ≤ w.written.length + s.length) : w.append s = none := by
  obtain ⟨hfits, hle⟩ := hw
  have hsize : w.size = w.written.length := rfl
  rw [Writer.append]
  by_cases hlong : s.length < 2 ^ 31
  · have hl : int32 s.length = s.length := int32_of (by omega) (by omega)
    rw [hl, int32_wraps (by omega) (by omega), if_pos (by omega), if_pos (by omega)]
  · have hl : int32 s.length = s.length - 2 ^ 32 := int32_wraps (by omega) (by omega)
    rw [hl, int32_of (by omega) (by omega), if_pos (by omega), if_pos (by omega)]

theorem Writer.Good.write (hw : w.Good) (h : w.written.length + s.length < 2 ^ 31) :
    ∃ w', w.write s = some w' ∧ w'.Good ∧ w'.written = w.written ++ s := by
  rw [Writer.write]
  by_cases hempty : s.length = 0
  · rw [if_pos hempty, List.length_eq_zero_iff.mp hempty, List.append_nil]
    exact ⟨w, rfl, hw, rfl⟩
  · rw [if_neg hempty]
    exact hw.append h

theorem Writer.Good.length_lt (hw : w.Good) : w.written.length < 2 ^ 31 := by
  have hsize : w.size = w.written.length := rfl
  have := hw.fits
  have := hw.le
  omega

theorem Writer.Good.write_none (hw : w.Good) (hs : s.length < 2 ^ 32)
    (h : 2 ^ 31 ≤ w.written.length + s.length) : w.write s = none := by
  have := hw.length_lt
  rw [Writer.write, if_neg (by omega), hw.append_none hs h]

theorem Writer.Good.writes (hw : w.Good) (texts : List (List UInt8))
    (h : w.written.length + texts.flatten.length < 2 ^ 31) :
    ∃ w', texts.foldlM Writer.write w = some w' ∧ w'.Good ∧
      w'.written = w.written ++ texts.flatten := by
  induction texts generalizing w with
  | nil => exact ⟨w, rfl, hw, (List.append_nil _).symm⟩
  | cons s texts ih =>
    rw [List.flatten_cons, List.length_append] at h
    obtain ⟨w₁, h₁, hw₁, hwritten₁⟩ := hw.write (s := s) (by omega)
    obtain ⟨w₂, h₂, hw₂, hwritten₂⟩ := ih hw₁ (by rw [hwritten₁, List.length_append]; omega)
    refine ⟨w₂, ?_, hw₂, ?_⟩
    · rw [List.foldlM_cons, h₁]
      exact h₂
    · rw [hwritten₂, hwritten₁, List.flatten_cons, List.append_assoc]

theorem Writer.Good.writes_none (hw : w.Good) {texts : List (List UInt8)}
    (htexts : ∀ s ∈ texts, s.length < 2 ^ 32)
    (h : 2 ^ 31 ≤ w.written.length + texts.flatten.length) :
    texts.foldlM Writer.write w = none := by
  induction texts generalizing w with
  | nil => exact absurd hw.length_lt (by simpa using h)
  | cons s texts ih =>
    rw [List.foldlM_cons]
    by_cases hroom : w.written.length + s.length < 2 ^ 31
    · obtain ⟨w₁, h₁, hw₁, hwritten₁⟩ := hw.write hroom
      rw [h₁]
      refine ih hw₁ (fun s hs => htexts s (List.mem_cons_of_mem _ hs)) ?_
      rw [hwritten₁, List.length_append, add_assoc, ← List.length_append, ← List.flatten_cons]
      exact h
    · rw [hw.write_none (htexts s List.mem_cons_self) (by omega)]
      rfl

theorem Writer.Good.buildString (hw : w.Good) :
    buildString w = if w.written.length < 2 ^ 31 - 1 then some w.written else none := by
  have hsize : w.size = w.written.length := rfl
  have hfits := hw.fits
  have hle := hw.le
  rw [SplitJoin.buildString]
  by_cases hempty : w.written = []
  · rw [if_neg (by rw [hsize, hempty]; simp), hempty, if_pos (by rw [List.length_nil]; omega)]
  · have hpos := List.length_pos_iff.mpr hempty
    rw [if_pos (by omega), Nat.mod_eq_of_lt (by have := hw.length_lt; omega), Writer.cStr]
    by_cases hshort : w.written.length < 2 ^ 31 - 1
    · have hnul : int32 (w.size + 1) = w.size + 1 := int32_of (by omega) (by omega)
      rw [if_pos hshort, hnul, if_neg (by omega : ¬ w.size + 1 < 0), ite_self, Option.map_some,
        List.take_length]
    · rw [if_neg hshort, if_neg (by omega), int32_wraps (by omega) (by omega),
        if_pos (by omega)]
      rfl

/-- The texts that `join` writes. -/
def joinTexts (separator : List UInt8) : List (List UInt8) → List (List UInt8)
  | [] => []
  | elem :: it => elem :: it.flatMap fun elem => [separator, elem]

theorem flatten_joinTexts (separator : List UInt8) (it : List (List UInt8)) :
    (joinTexts separator it).flatten = separator.intercalate it := by
  cases it with
  | nil => rfl
  | cons elem it =>
    rw [joinTexts, List.flatten_cons]
    induction it generalizing elem with
    | nil => rfl
    | cons elem' it ih =>
      rw [Cutting.intercalate_cons, List.flatMap_cons, ← ih elem']
      simp

theorem foldlM_joinElem (separator : List UInt8) (it : List (List UInt8)) (w : Writer) :
    it.foldlM (joinElem separator) (w, false) =
      ((it.flatMap fun elem => [separator, elem]).foldlM Writer.write w).map fun w =>
        (w, false) := by
  induction it generalizing w with
  | nil => rfl
  | cons elem it ih =>
    rw [List.foldlM_cons, List.flatMap_cons, List.foldlM_append, joinElem]
    cases h₁ : w.write separator with
    | none => simp [h₁]
    | some w₁ =>
      cases h₂ : w₁.write elem with
      | none => simp [h₁, h₂]
      | some w₂ => simp [h₁, h₂, ih]

theorem join_eq {it : List (List UInt8)} (hit : ∀ elem ∈ it, elem.length < 2 ^ 32)
    (separator : Str) :
    join it separator =
      if (separator.bytes.intercalate it).length < 2 ^ 31 - 1 then
        some (separator.bytes.intercalate it)
      else none := by
  have hwrites : join it separator =
      ((joinTexts separator.bytes it).foldlM Writer.write Writer.new).bind buildString := by
    cases it with
    | nil => rfl
    | cons elem it =>
      rw [join, joinTexts, List.foldlM_cons, List.foldlM_cons, joinElem]
      cases h : Writer.new.write elem with
      | none => simp [h]
      | some w => simp [h, foldlM_joinElem, Option.bind_map]
  have htexts : ∀ s ∈ joinTexts separator.bytes it, s.length < 2 ^ 32 := by
    intro s hs
    cases it with
    | nil => exact absurd hs List.not_mem_nil
    | cons elem it =>
      rw [joinTexts, List.mem_cons, List.mem_flatMap] at hs
      rcases hs with rfl | ⟨elem', helem', hs⟩
      · exact hit s List.mem_cons_self
      · rw [List.mem_pair] at hs
        rcases hs with rfl | rfl
        · exact separator.fits
        · exact hit s (List.mem_cons_of_mem elem helem')
  rw [hwrites, ← flatten_joinTexts]
  by_cases h : (joinTexts separator.bytes it).flatten.length < 2 ^ 31
  · obtain ⟨w, hw, hgood, hwritten⟩ := Writer.new_good.writes
      (joinTexts separator.bytes it) (by simpa [Writer.new] using h)
    rw [hw, Option.bind_some, hgood.buildString, hwritten]
    rfl
  · rw [Writer.new_good.writes_none htexts (by simpa [Writer.new] using h), if_neg (by omega)]
    rfl

end Join

/-! ## What is counted -/

section Count

variable {d rest : List UInt8}

theorem stops_strstr (hd : d ≠ []) (rest : List UInt8) :
    (strstr d rest = none ∧ stops (begins d) d.length rest = 0) ∨
      ∃ i, strstr d rest = some i ∧ i + d.length ≤ rest.length ∧
        stops (begins d) d.length rest =
          stops (begins d) d.length (rest.drop (i + d.length)) + 1 := by
  induction rest with
  | nil => exact .inl ⟨by rw [strstr], Cutting.stops_nil⟩
  | cons ch rest ih =>
    rw [strstr]
    by_cases h : begins d (ch :: rest) = true
    · obtain ⟨n, hn⟩ := Nat.exists_eq_add_one_of_ne_zero (mt List.length_eq_zero_iff.mp hd)
      refine .inr ⟨0, if_pos h, ?_, ?_⟩
      · rw [Nat.zero_add]
        exact (of_decide_eq_true h).length_le
      · rw [Cutting.stops_stop h, Nat.zero_add, hn, Nat.add_sub_cancel, List.drop_succ_cons]
    · rw [if_neg h, Cutting.stops_go (Bool.eq_false_of_not_eq_true h)]
      rcases ih with ⟨hnone, hstops⟩ | ⟨i, hsome, hle, hstops⟩
      · exact .inl ⟨by rw [hnone, Option.map_none], hstops⟩
      · refine .inr ⟨i + 1, by rw [hsome, Option.map_some], ?_, ?_⟩
        · rw [List.length_cons]
          omega
        · rw [hstops, Nat.succ_add, List.drop_succ_cons]

variable {str sub : Str}

/-- Where the next one is, from a place on. -/
def position (str sub : List UInt8) (start : ℕ) : ℤ :=
  (strstr sub (str.drop start)).elim (-1) fun i => (start + i : ℕ)

theorem find1_eq (hstr : str.bytes ≠ []) (hsub : sub.bytes ≠ [])
    (hshort : str.bytes.length < 2 ^ 31) {start : ℕ} (hstart : start ≤ str.bytes.length) :
    find1 str sub start = some (position str.bytes sub.bytes start) := by
  have hclamp : clampInt start 0 (int32 str.bytes.length) = start := by
    rw [int32_of (by omega) (by omega), clampInt, if_neg (by omega), if_neg (by omega)]
  rw [find1, if_neg (not_or.mpr ⟨hstr, hsub⟩), hclamp, if_neg (by omega), Int.toNat_natCast,
    position]
  rcases stops_strstr hsub (str.bytes.drop start) with ⟨hnone, -⟩ | ⟨i, hsome, hle, -⟩
  · rw [hnone, Option.elim_none, Option.elim_none]
  · rw [List.length_drop] at hle
    rw [hsome, Option.elim_some, Option.elim_some, int32_of (by omega) (by omega), Nat.cast_add]

theorem find2_eq (hsub : sub.bytes ≠ []) (hshort : str.bytes.length < 2 ^ 31) :
    find2 str sub = position str.bytes sub.bytes 0 := by
  rw [find2, position, List.drop_zero]
  by_cases hstr : str.bytes = []
  · rw [if_pos (.inl hstr), hstr, strstr, Option.elim_none]
  rw [if_neg (not_or.mpr ⟨hstr, hsub⟩)]
  rcases stops_strstr hsub str.bytes with ⟨hnone, -⟩ | ⟨i, hsome, hle, -⟩
  · rw [hnone, Option.elim_none, Option.elim_none]
  · rw [hsome, Option.elim_some, Option.elim_some, int32_of (by omega) (by omega), Nat.zero_add]

theorem countLoop_stops (hsub : sub.bytes ≠ []) (hshort : str.bytes.length < 2 ^ 31) {fuel : ℕ}
    {start n : ℕ} (hstart : start ≤ str.bytes.length) (hn : n ≤ start)
    (hfuel : str.bytes.length - start < fuel) :
    countLoop str sub sub.length fuel n (position str.bytes sub.bytes start) =
      some ((n + stops (begins sub.bytes) sub.bytes.length (str.bytes.drop start) : ℕ) : ℤ) := by
  induction fuel generalizing start n with
  | zero => exact absurd hfuel (Nat.not_lt_zero _)
  | succ fuel ih =>
    rw [countLoop, position]
    rcases stops_strstr hsub (str.bytes.drop start) with ⟨hnone, hstops⟩ | ⟨i, hsome, hle, hstops⟩
    · rw [hnone, Option.elim_none, if_neg (by omega), hstops, Nat.add_zero]
    · have hpos := List.length_pos_iff.mpr hsub
      rw [List.length_drop] at hle
      rw [hstops]
      clear hstops
      have hlength : sub.length = sub.bytes.length := int32_of (by omega) (by omega)
      have hnext : int32 ((start + i : ℕ) + sub.length) = (start + (i + sub.bytes.length) : ℕ) := by
        rw [hlength, int32_of (by omega) (by omega)]
        omega
      have hone : int32 ((n : ℤ) + 1) = (n + 1 : ℕ) := by
        rw [int32_of (by omega) (by omega)]
        omega
      have hstr : str.bytes ≠ [] := by
        rintro hempty
        rw [hempty, List.length_nil] at hle
        omega
      rw [hsome, Option.elim_some, if_pos (by omega), hnext,
        find1_eq hstr hsub hshort (by omega), Option.bind_eq_bind, Option.bind_some, hone,
        ih (by omega) (by omega) (by omega), List.drop_drop, Nat.succ_add_eq_add_succ]

theorem count_returns (hsub : sub.bytes ≠ []) (hshort : str.bytes.length < 2 ^ 31) :
    Returns (count · str sub)
      (stops (begins sub.bytes) sub.bytes.length str.bytes : ℤ) := by
  refine ⟨str.bytes.length + 1, fun fuel hfuel => ?_⟩
  have hloop := countLoop_stops hsub hshort (Nat.zero_le _) le_rfl
    (by omega : str.bytes.length - 0 < fuel)
  rw [List.drop_zero, Nat.zero_add] at hloop
  dsimp only
  rw [count, if_neg hsub, find2_eq hsub hshort]
  exact hloop

end Count

/-! ## What is replaced -/

theorem leftmostFirst_eq (text replacement : Str) (htext : text.bytes ≠ []) (rest : List UInt8) :
    leftmostFirst [⟨text, replacement⟩] rest =
      replacement.bytes.intercalate (pieces (begins text.bytes) text.bytes.length rest) := by
  induction hlength : rest.length using Nat.strong_induction_on generalizing rest with
  | _ n ih =>
    subst hlength
    have hpos := List.length_pos_iff.mpr htext
    cases rest with
    | nil =>
      rw [ReplaceMultiple.leftmostFirst_nil, Cutting.pieces_nil]
      rfl
    | cons byte rest =>
      by_cases h : begins text.bytes (byte :: rest) = true
      · have hfirst : ReplaceMultiple.firstMatch [⟨text, replacement⟩] (byte :: rest) =
            some ⟨text, replacement⟩ := by
          rw [ReplaceMultiple.firstMatch_singleton, if_pos ⟨htext, of_decide_eq_true h⟩]
        rw [ReplaceMultiple.leftmostFirst_some hfirst, Cutting.intercalate_pieces_stop htext h]
        dsimp only
        rw [ih _ (by rw [List.length_drop, List.length_cons]; omega) _ rfl]
      · have hfirst :
            ReplaceMultiple.firstMatch [⟨text, replacement⟩] (byte :: rest) = none := by
          rw [ReplaceMultiple.firstMatch_singleton,
            if_neg fun hstarts => h (decide_eq_true hstarts.2)]
        rw [ReplaceMultiple.leftmostFirst_none hfirst,
          Cutting.intercalate_pieces_go (Bool.eq_false_of_not_eq_true h),
          ih _ (Nat.lt_succ_self _) _ rfl]

/-! ## Bytes as delimiters -/

section Chars

variable {d rest : List UInt8}

theorem stops_oneOf (d rest : List UInt8) : stops (oneOf d) 1 rest = rest.countP (· ∈ d) := by
  induction rest with
  | nil => exact Cutting.stops_nil
  | cons ch rest ih =>
    by_cases h : ch ∈ d
    · rw [Cutting.stops_stop (decide_eq_true h), Nat.sub_self, List.drop_zero, ih, List.countP_cons]
      simp [h]
    · rw [Cutting.stops_go (decide_eq_false h), ih, List.countP_cons]
      simp [h]

theorem not_mem_of_mem_pieces {p : List UInt8} (hp : p ∈ pieces (oneOf d) 1 rest) {ch : UInt8}
    (hch : ch ∈ p) : ch ∉ d := by
  induction rest generalizing p with
  | nil =>
    rw [Cutting.pieces_nil, List.mem_singleton] at hp
    exact absurd hch (hp ▸ List.not_mem_nil)
  | cons first rest ih =>
    by_cases h : first ∈ d
    · rw [Cutting.pieces_stop (decide_eq_true h), Nat.sub_self, List.drop_zero] at hp
      rcases List.mem_cons.mp hp with rfl | hp
      · exact absurd hch List.not_mem_nil
      · exact ih hp hch
    · obtain ⟨q, ps, hq⟩ := Cutting.exists_pieces (oneOf d) 1 rest
      rw [Cutting.pieces_go (decide_eq_false h), hq, List.modifyHead_cons] at hp
      rw [hq] at ih
      rcases List.mem_cons.mp hp with rfl | hp
      · rcases List.mem_cons.mp hch with rfl | hch
        · exact h
        · exact ih List.mem_cons_self hch
      · exact ih (List.mem_cons_of_mem q hp) hch

end Chars

/-! ## All of them -/

section Agree

variable {text d r : Str}

/-- **Split, join, count and replace agree** on a text, a delimiter and a replacement. -/
structure Agree (text d r : Str) : Prop where
  /-- the pieces, and that they are the text again -/
  splits : ∃ words, Returns (split · text d) words ∧ join words d = some text.bytes ∧
    (∀ p ∈ words, ¬ d.bytes <:+: p) ∧
    (∃ n : ℤ, Returns (count · text d) n ∧ words.length = n + 1) ∧
    ∃ replaced, Returns (builtinReplace · text d r) replaced ∧ join words r = some replaced
  chars : ∃ words, Returns (splitByChars · text d) words ∧ (∀ p ∈ words, ∀ ch ∈ p, ch ∉ d.bytes) ∧
    words.length = text.bytes.countP (· ∈ d.bytes) + 1

/-- The text, and the text with its delimiters replaced, are of less than 2147483647 bytes. -/
def Fits (text d r : Str) : Prop :=
  let n := stops (begins d.bytes) d.bytes.length text.bytes
  text.bytes.length < 2 ^ 31 - 1 ∧
    text.bytes.length + n * r.bytes.length < 2 ^ 31 - 1 + n * d.bytes.length

theorem split_returns (hd : d.bytes ≠ []) (htext : text.bytes.length < 2 ^ 31 - 1) :
    Returns (split · text d) (pieces (begins d.bytes) d.bytes.length text.bytes) := by
  refine ⟨text.bytes.length + 1, fun fuel hfuel => ?_⟩
  have hstops := Cutting.stops_le (begins d.bytes) d.bytes.length text.bytes
  dsimp only
  rw [split, tokens_pieces (List.length_pos_iff.mpr hd) hd hfuel, Option.bind_eq_bind,
    Option.bind_some, cloned_eq (by rw [Cutting.length_pieces]; omega)]

theorem splitByChars_returns (hd : d.bytes ≠ []) (htext : text.bytes.length < 2 ^ 31 - 1) :
    Returns (splitByChars · text d) (pieces (oneOf d.bytes) 1 text.bytes) := by
  refine ⟨text.bytes.length + 1, fun fuel hfuel => ?_⟩
  have hstops := Cutting.stops_le (oneOf d.bytes) 1 text.bytes
  dsimp only
  rw [splitByChars, tokens_pieces Nat.one_pos hd hfuel, Option.bind_eq_bind, Option.bind_some,
    cloned_eq (by rw [Cutting.length_pieces]; omega)]

theorem Returns.unique {α : Type} {run : ℕ → Option α} {x y : α} (hx : Returns run x)
    (hy : Returns run y) : x = y := by
  obtain ⟨m, hm⟩ := hx
  obtain ⟨n, hn⟩ := hy
  exact Option.some.inj ((hm _ (le_max_left m n)).symm.trans (hn _ (le_max_right m n)))

theorem split_lengths (hd : d.bytes ≠ []) {words : List (List UInt8)}
    (h : Returns (split · text d) words) : ∀ p ∈ words, p.length < 2 ^ 32 := by
  obtain ⟨n, hn⟩ := h
  intro p hp
  have hsplit := hn (max n (text.bytes.length + 1)) (le_max_left _ _)
  dsimp only at hsplit
  rw [split, tokens_pieces (List.length_pos_iff.mpr hd) hd
    (Nat.lt_of_lt_of_le (Nat.lt_succ_self _) (le_max_right _ _)), Option.bind_eq_bind,
    Option.bind_some] at hsplit
  exact (Cutting.length_le_of_mem_pieces (cloned_subset hsplit hp)).trans_lt text.fits

theorem join_lt {it : List (List UInt8)} {joined : List UInt8}
    (hit : ∀ elem ∈ it, elem.length < 2 ^ 32) {separator : Str}
    (h : join it separator = some joined) :
    joined = separator.bytes.intercalate it ∧ joined.length < 2 ^ 31 - 1 := by
  rw [join_eq hit] at h
  split at h
  · rename_i hshort
    obtain rfl := Option.some.inj h
    exact ⟨rfl, hshort⟩
  · exact absurd h (by simp)

theorem Agree.of_fits (hd : d.bytes ≠ []) (h : Fits text d r) : Agree text d r := by
  obtain ⟨htext, hreplaced⟩ := h
  have hlength := Cutting.length_intercalate_pieces hd r.bytes text.bytes
  have hsplit := split_returns hd htext
  have hjoin := join_eq (split_lengths hd hsplit)
  refine ⟨⟨_, hsplit, ?_, fun p hp => Cutting.not_infix_of_mem_pieces hd hp, ?_, ?_⟩, ?_⟩
  · rw [hjoin, Cutting.intercalate_pieces hd, if_pos htext]
  · refine ⟨_, count_returns hd (by omega), ?_⟩
    rw [Cutting.length_pieces, Nat.cast_succ]
  · refine ⟨_, ReplaceMultiple.builtinReplace_returns text ⟨d, r⟩, ?_⟩
    rw [hjoin, leftmostFirst_eq d r hd, if_pos (by omega)]
  · refine ⟨_, splitByChars_returns hd htext, fun p hp ch hch => not_mem_of_mem_pieces hp hch, ?_⟩
    rw [Cutting.length_pieces, stops_oneOf]

theorem Agree.text_lt (hd : d.bytes ≠ []) (h : Agree text d r) :
    text.bytes.length < 2 ^ 31 - 1 := by
  obtain ⟨words, hsplit, hjoin, -⟩ := h.splits
  exact (join_lt (split_lengths hd hsplit) hjoin).2

/-- **They agree on just the texts that fit**, before and after. -/
theorem agree_iff_fits (text d r : Str) (hd : d.bytes ≠ []) : Agree text d r ↔ Fits text d r := by
  refine ⟨fun h => ?_, Agree.of_fits hd⟩
  have htext := h.text_lt hd
  obtain ⟨words, hsplit, -, -, -, replaced, -, hjoin⟩ := h.splits
  obtain rfl := hsplit.unique (split_returns hd htext)
  obtain ⟨hreplaced, hlt⟩ := join_lt (split_lengths hd hsplit) hjoin
  have hlength := Cutting.length_intercalate_pieces hd r.bytes text.bytes
  rw [hreplaced] at hlt
  exact ⟨htext, by omega⟩

/-- `"aa…a"`, of 2147483647 bytes. -/
def longest : Str where
  bytes := List.replicate (2 ^ 31 - 1) 97
  nulFree := by
    rw [List.mem_replicate]
    simp
  fits := by
    rw [List.length_replicate]
    omega

/-- `","` -/
def comma : Str := ⟨[44], by decide, by decide⟩

/-- `"a,b"` -/
def aCommaB : Str := ⟨[97, 44, 98], by decide, by decide⟩

theorem agree_iff_fits_aCommaB :
    comma.bytes ≠ [] ∧ (Agree aCommaB comma comma ↔ Fits aCommaB comma comma) :=
  ⟨by decide, agree_iff_fits aCommaB comma comma (by decide)⟩

theorem not_agree_longest : ¬ Agree longest comma comma := by
  intro h
  have hlt := h.text_lt (by decide)
  rw [longest, List.length_replicate] at hlt
  exact lt_irrefl _ hlt

end Agree

end DaScript.SplitJoin
