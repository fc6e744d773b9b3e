import Mathlib.Tactic

/-!
# Daslib/ReplaceMultiple — texts replaced in one pass

`replace_multiple` of `strings_boost.das`, with `starts_with` at an offset and `replace` of
`module_builtin_string.cpp`.  At each index the first pair whose text is there is applied; an empty
text is everywhere, and it moves the index on by nothing.

`leftmostFirst` is the replacement that is meant; `Moves` are the sources that are read to their
end.
-/

namespace DaScript.ReplaceMultiple

/-- `int`, from anything wider. -/
def int32 (i : ℤ) : ℤ := i.bmod (2 ^ 32)

/-- A string: no NUL in it, and a length that is `uint32_t`. -/
structure Str where
  bytes : List UInt8
  nulFree : 0 ∉ bytes
  fits : bytes.length < 2 ^ 32

/-- `tuple<text : string; replacement : string>` -/
structure Pair where
  text : Str
  replacement : Str

/-! ## Strings -/

def Str.length (str : Str) : ℤ := int32 str.bytes.length

/-- `get_character_uat` -/
def Str.characterUat (str : Str) (index : ℤ) : UInt8 := str.bytes.getD index.toNat 0

/-- `builtin_string_startswith3` -/
def Str.startswith3 (str : Str) (offset : ℤ) (cmp : Str) : Bool :=
  if offset < 0 ∨ str.bytes.length ≤ offset.toNat then false
  else
    cmp.bytes.length = 0 ∨
      cmp.bytes.length ≤ str.bytes.length - offset.toNat ∧
        (str.bytes.drop offset.toNat).take cmp.bytes.length = cmp.bytes

/-- `std::string::find`, from a position on. -/
def find (data toss : List UInt8) (pos : ℕ) : Option ℕ :=
  (List.range (data.length + 1)).find? fun i => pos ≤ i ∧ toss <+: data.drop i

/-- The loop of `builtin_string_replace`, of so many rounds at most. -/
def replaceLoop (toSearch repl : List UInt8) : ℕ → List UInt8 → Option ℕ → Option (List UInt8)
  | 0, _, _ => none
  | _ + 1, data, none => some data
  | fuel + 1, data, some pos =>
    let data := data.take pos ++ repl ++ data.drop (pos + toSearch.length)
    replaceLoop toSearch repl fuel data (find data toSearch (pos + repl.length))

/-- `builtin_string_replace` -/
def builtinReplace (fuel : ℕ) (str toSearch replaceStr : Str) : Option (List UInt8) :=
  if toSearch.bytes.length = 0 then some str.bytes
  else
    replaceLoop toSearch.bytes replaceStr.bytes fuel str.bytes (find str.bytes toSearch.bytes 0)

/-! ## `replace_multiple` -/

/-- The loop over the source, of so many rounds at most; `written` is what the writer has. -/
def scan (source : Str) (replaces : List Pair) (len : ℤ) :
    ℕ → ℤ → List UInt8 → Option (List UInt8)
  | 0, _, _ => none
  | fuel + 1, index, written =>
    if index < len then
      match replaces.find? fun replace => source.startswith3 index replace.text with
      | some replace =>
        scan source replaces len fuel (int32 (index + replace.text.length))
          (written ++ replace.replacement.bytes)
      | none =>
        scan source replaces len fuel (int32 (index + 1)) (written ++ [source.characterUat index])
    else some written

/-- `replace_multiple`, of so many rounds at most. -/
def replaceMultiple (fuel : ℕ) (source : Str) (replaces : List Pair) : Option (List UInt8) :=
  if source.bytes = [] ∨ replaces = [] then some source.bytes
  else scan source replaces source.length fuel 0 []

/-- It ends, with that. -/
def Returns (run : ℕ → Option (List UInt8)) (result : List UInt8) : Prop :=
  ∃ n, ∀ fuel ≥ n, run fuel = some result

/-! ## The replacement that is meant -/

/-- The first pair with a text that is here, and not empty. -/
def firstMatch (replaces : List Pair) (rest : List UInt8) : Option Pair :=
  replaces.find? fun replace => replace.text.bytes ≠ [] ∧ replace.text.bytes <+: rest

theorem firstMatch_some {replaces : List Pair} {rest : List UInt8} {replace : Pair}
    (h : firstMatch replaces rest = some replace) :
    replace ∈ replaces ∧ replace.text.bytes ≠ [] ∧ replace.text.bytes <+: rest := by
  have := List.find?_some h
  exact ⟨List.mem_of_find?_eq_some h, by simpa using this⟩

theorem firstMatch_nil (replaces : List Pair) : firstMatch replaces [] = none := by
  refine List.find?_eq_none.mpr fun replace _ => ?_
  simp only [List.prefix_nil, decide_eq_true_eq, not_and]
  exact fun h => h

theorem firstMatch_length {replaces : List Pair} {rest : List UInt8} {replace : Pair}
    (h : firstMatch replaces rest = some replace) :
    0 < replace.text.bytes.length ∧ replace.text.bytes.length ≤ rest.length := by
  obtain ⟨-, hne, hstarts⟩ := firstMatch_some h
  exact ⟨List.length_pos_iff.mpr hne, hstarts.length_le⟩

/-- **Leftmost-first replacement**: at each position the first pair with a text that is there, else
one byte as it is. -/
def leftmostFirst (replaces : List Pair) (rest : List UInt8) : List UInt8 :=
  match _hfirst : firstMatch replaces rest with
  | some replace =>
    replace.replacement.bytes ++ leftmostFirst replaces (rest.drop replace.text.bytes.length)
  | none =>
    match rest with
    | [] => []
    | byte :: rest => byte :: leftmostFirst replaces rest
termination_by rest.length
decreasing_by
  · have := firstMatch_length _hfirst
    rw [List.length_drop]
    omega
  · exact Nat.lt_succ_self _

theorem leftmostFirst_some {replaces : List Pair} {rest : List UInt8} {replace : Pair}
    (h : firstMatch replaces rest = some replace) :
    leftmostFirst replaces rest =
      replace.replacement.bytes ++
        leftmostFirst replaces (rest.drop replace.text.bytes.length) := by
  rw [leftmostFirst]
  split
  · rename_i replace' h'
    obtain rfl := Option.some.inj (h.symm.trans h')
    rfl
  · rename_i h'
    exact absurd (h.symm.trans h') (by simp)

theorem leftmostFirst_nil (replaces : List Pair) : leftmostFirst replaces [] = [] := by
  rw [leftmostFirst]
  split
  · rename_i h
    exact absurd (h.symm.trans (firstMatch_nil replaces)) (by simp)
  · rfl

theorem leftmostFirst_none {replaces : List Pair} {byte : UInt8} {rest : List UInt8}
    (h : firstMatch replaces (byte :: rest) = none) :
    leftmostFirst replaces (byte :: rest) = byte :: leftmostFirst replaces rest := by
  rw [leftmostFirst]
  split
  · rename_i h'
    exact absurd (h.symm.trans h') (by simp)
  · rfl

/-! ## The built-in `replace` -/

theorem find_here {data toss : List UInt8} {pos : ℕ} (hpos : pos ≤ data.length)
    (h : toss <+: data.drop pos) : find data toss pos = some pos := by
  rw [find, List.find?_range_eq_some]
  refine ⟨by simpa using h, by simpa [Nat.lt_succ_iff] using hpos, fun j hj => ?_⟩
  simp [hj]

theorem find_skip {data toss : List UInt8} {pos : ℕ} (h : ¬ toss <+: data.drop pos) :
    find data toss pos = find data toss (pos + 1) := by
  refine congrArg (fun p => (List.range (data.length + 1)).find? p) (funext fun i => ?_)
  refine decide_eq_decide.mpr ⟨fun ⟨hle, hi⟩ => ⟨?_, hi⟩, fun ⟨hle, hi⟩ => ⟨by omega, hi⟩⟩
  have hne : i ≠ pos := by
    rintro rfl
    exact h hi
  omega

theorem find_end {data toss : List UInt8} (htoss : toss ≠ []) {pos : ℕ}
    (hpos : data.length ≤ pos) : find data toss pos = none := by
  refine List.find?_eq_none.mpr fun i _ => ?_
  simp only [decide_eq_true_eq, not_and]
  intro hle hstarts
  rw [List.drop_eq_nil_of_le (by omega), List.prefix_nil] at hstarts
  exact htoss hstarts

theorem firstMatch_singleton (replace : Pair) (rest : List UInt8) :
    firstMatch [replace] rest =
      if replace.text.bytes ≠ [] ∧ replace.text.bytes <+: rest then some replace else none := by
  rw [firstMatch, List.find?_singleton]
  simp only [decide_eq_true_eq]

theorem replaceLoop_returns (replace : Pair) (htext : replace.text.bytes ≠ [])
    (rest : List UInt8) (done : List UInt8) {fuel : ℕ} (hfuel : rest.length < fuel) :
    replaceLoop replace.text.bytes replace.replacement.bytes fuel (done ++ rest)
        (find (done ++ rest) replace.text.bytes done.length) =
      some (done ++ leftmostFirst [replace] rest) := by
  obtain ⟨fuel, rfl⟩ := Nat.exists_eq_add_one_of_ne_zero (by omega : fuel ≠ 0)
  induction hlength : rest.length using Nat.strong_induction_on generalizing rest done fuel with
  | _ n ih =>
    subst hlength
    have hdrop : (done ++ rest).drop done.length = rest := List.drop_left
    by_cases hstarts : replace.text.bytes <+: rest
    · have hfirst : firstMatch [replace] rest = some replace := by
        rw [firstMatch_singleton, if_pos ⟨htext, hstarts⟩]
      have hlen := firstMatch_length hfirst
      rw [find_here (by simp) (by rwa [hdrop]), replaceLoop, leftmostFirst_some hfirst]
      have hdata : (done ++ rest).take done.length ++ replace.replacement.bytes
            ++ (done ++ rest).drop (done.length + replace.text.bytes.length)
          = (done ++ replace.replacement.bytes) ++ rest.drop replace.text.bytes.length := by
        rw [List.take_left, List.drop_append]
        simp
      have hshorter : (rest.drop replace.text.bytes.length).length < rest.length := by
        rw [List.length_drop]
        omega
      obtain ⟨fuel, rfl⟩ := Nat.exists_eq_add_one_of_ne_zero (by omega : fuel ≠ 0)
      rw [hdata, ← List.length_append, ← List.append_assoc]
      exact ih _ hshorter _ _ _ (by omega) rfl
    · have hfirst : firstMatch [replace] rest = none := by
        rw [firstMatch_singleton, if_neg (fun h => hstarts h.2)]
      cases rest with
      | nil =>
        rw [find_end htext (by simp), replaceLoop, leftmostFirst_nil]
      | cons byte rest =>
        rw [find_skip (by rwa [hdrop]), leftmostFirst_none hfirst]
        have h := ih rest.length (Nat.lt_succ_self _) rest (done ++ [byte]) fuel
          (by rw [List.length_cons] at hfuel; omega) rfl
        simpa using h

theorem builtinReplace_returns (source : Str) (replace : Pair) :
    Returns (builtinReplace · source replace.text replace.replacement)
      (leftmostFirst [replace] source.bytes) := by
  refine ⟨source.bytes.length + 1, fun fuel hfuel => ?_⟩
  by_cases htext : replace.text.bytes = []
  · have hcopied : ∀ rest, leftmostFirst [replace] rest = rest := by
      intro rest
      induction rest with
      | nil => exact leftmostFirst_nil _
      | cons byte rest ih =>
        rw [leftmostFirst_none, ih]
        rw [firstMatch_singleton, if_neg (fun h => h.1 htext)]
    simp only [builtinReplace, htext, List.length_nil, if_true, hcopied]
  · have hpos : replace.text.bytes.length ≠ 0 := by simpa using htext
    simp only [builtinReplace, if_neg hpos]
    exact replaceLoop_returns replace htext source.bytes [] hfuel

/-! ## The scan -/

/-- The first pair with a text that is here, empty or not: what the scan applies. -/
def here (replaces : List Pair) (rest : List UInt8) : Option Pair :=
  replaces.find? fun replace => replace.text.bytes <+: rest

/-- **Sources that are read to their end**: wherever the scan comes, the first text that is there
is not empty, or there is none. -/
inductive Moves (replaces : List Pair) : List UInt8 → Prop
  | nil : Moves replaces []
  | pair {rest : List UInt8} {replace : Pair} (hhere : here replaces rest = some replace)
    (htext : replace.text.bytes ≠ [])
    (next : Moves replaces (rest.drop replace.text.bytes.length)) : Moves replaces rest
  | copy {byte : UInt8} {rest : List UInt8} (hhere : here replaces (byte :: rest) = none)
    (next : Moves replaces rest) : Moves replaces (byte :: rest)

theorem firstMatch_of_here {replaces : List Pair} {rest : List UInt8} {replace : Pair}
    (h : here replaces rest = some replace) (htext : replace.text.bytes ≠ []) :
    firstMatch replaces rest = some replace := by
  obtain ⟨hstarts, before, after, rfl, hbefore⟩ := List.find?_eq_some_iff_append.mp h
  refine List.find?_eq_some_iff_append.mpr ⟨?_, before, after, rfl, fun replace' h' => ?_⟩
  · simpa [htext] using hstarts
  · have := hbefore replace' h'
    simp only [Bool.not_eq_true', decide_eq_false_iff_not] at this ⊢
    exact fun h => this h.2

theorem firstMatch_of_none {replaces : List Pair} {rest : List UInt8}
    (h : here replaces rest = none) : firstMatch replaces rest = none := by
  refine List.find?_eq_none.mpr fun replace hreplace => ?_
  have := List.find?_eq_none.mp h replace hreplace
  simp only [decide_eq_true_eq] at this ⊢
  exact fun h => this h.2

theorem int32_of_lt {i : ℕ} (h : i < 2 ^ 31) : int32 i = i := by
  rw [int32, Int.bmod_def]
  omega

theorem int32_of_le {i : ℕ} (h : 2 ^ 31 ≤ i) (h' : i < 2 ^ 32) : int32 i < 0 := by
  rw [int32, Int.bmod_def]
  omega

theorem startswith3_eq (source : Str) {i : ℕ} (hi : i < source.bytes.length) (cmp : Str) :
    source.startswith3 i cmp = decide (cmp.bytes <+: source.bytes.drop i) := by
  rw [Str.startswith3, if_neg (by simp; omega), Int.toNat_natCast]
  refine decide_eq_decide.mpr ⟨?_, fun h => ?_⟩
  · rintro (hempty | ⟨-, htake⟩)
    · rw [List.length_eq_zero_iff.mp hempty]
      exact List.nil_prefix
    · rw [← htake]
      exact List.take_prefix _ _
  · refine .inr ⟨?_, (List.prefix_iff_eq_take.mp h).symm⟩
    have := h.length_le
    rwa [List.length_drop] at this

section Scan

variable {source : Str} {replaces : List Pair} (hshort : source.bytes.length < 2 ^ 31)
include hshort

theorem length_eq : source.length = source.bytes.length := int32_of_lt hshort

theorem scan_step {i : ℕ} (hi : i < source.bytes.length) (fuel : ℕ) (written : List UInt8) :
    scan source replaces source.length (fuel + 1) i written =
      match here replaces (source.bytes.drop i) with
      | some replace =>
        scan source replaces source.length fuel ((i + replace.text.bytes.length : ℕ) : ℤ)
          (written ++ replace.replacement.bytes)
      | none =>
        scan source replaces source.length fuel ((i + 1 : ℕ) : ℤ)
          (written ++ [source.bytes[i]]) := by
  have hfind : (replaces.find? fun replace => source.startswith3 i replace.text) =
      here replaces (source.bytes.drop i) :=
    congrArg (fun p => replaces.find? p) (funext fun replace => startswith3_eq source hi _)
  have hlt : (i : ℤ) < source.length := by
    rw [length_eq hshort]
    exact_mod_cast hi
  rw [scan, if_pos hlt, hfind]
  cases hhere : here replaces (source.bytes.drop i) with
  | some replace =>
    have hstarts : replace.text.bytes <+: source.bytes.drop i := by
      simpa using List.find?_some hhere
    have hle := hstarts.length_le
    rw [List.length_drop] at hle
    have hlength : replace.text.length = replace.text.bytes.length := int32_of_lt (by omega)
    have hindex : int32 (i + replace.text.length) = ((i + replace.text.bytes.length : ℕ) : ℤ) := by
      rw [hlength, ← Nat.cast_add]
      exact int32_of_lt (by omega)
    simp only [hindex]
  | none =>
    have hindex : int32 ((i : ℤ) + 1) = ((i + 1 : ℕ) : ℤ) :=
      int32_of_lt (i := i + 1) (by omega)
    have hbyte : source.characterUat i = source.bytes[i] := by
      rw [Str.characterUat, Int.toNat_natCast, List.getD_eq_getElem?_getD,
        List.getElem?_eq_getElem hi,
        Option.getD_some]
    simp only [hindex, hbyte]

theorem scan_returns {rest : List UInt8} (h : Moves replaces rest) {i : ℕ}
    (hrest : source.bytes.drop i = rest) (hi : i ≤ source.bytes.length) (written : List UInt8)
    {fuel : ℕ} (hfuel : rest.length < fuel) :
    scan source replaces source.length fuel i written =
      some (written ++ leftmostFirst replaces rest) := by
  induction h generalizing i written fuel with
  | nil =>
    obtain ⟨fuel, rfl⟩ := Nat.exists_eq_add_one_of_ne_zero (by omega : fuel ≠ 0)
    have hend := List.drop_eq_nil_iff.mp hrest
    rw [scan, if_neg (by rw [length_eq hshort]; omega), leftmostFirst_nil, List.append_nil]
  | @pair rest replace hhere htext _ ih =>
    obtain ⟨fuel, rfl⟩ := Nat.exists_eq_add_one_of_ne_zero (by omega : fuel ≠ 0)
    have hfirst := firstMatch_of_here hhere htext
    have hlen := firstMatch_length hfirst
    have hlength := congrArg List.length hrest
    rw [List.length_drop] at hlength
    rw [scan_step hshort (by omega), hrest, hhere, leftmostFirst_some hfirst, ← List.append_assoc]
    refine ih ?_ (by omega) _ ?_
    · rw [← hrest, List.drop_drop]
    · rw [List.length_drop]
      omega
  | @copy byte rest hhere _ ih =>
    obtain ⟨fuel, rfl⟩ := Nat.exists_eq_add_one_of_ne_zero (by omega : fuel ≠ 0)
    have hlt : i < source.bytes.length := by
      by_contra hle
      rw [List.drop_eq_nil_of_le (by omega)] at hrest
      exact absurd hrest (by simp)
    have hcons := (List.drop_eq_getElem_cons hlt).symm.trans hrest
    obtain ⟨hbyte, htail⟩ := List.cons.inj hcons
    rw [scan_step hshort hlt, hrest, hhere, leftmostFirst_none (firstMatch_of_none hhere)]
    dsimp only
    rw [ih htail (by omega) _ (by rw [List.length_cons] at hfuel; omega), hbyte]
    simp

theorem scan_never {i : ℕ} (h : ¬ Moves replaces (source.bytes.drop i)) (fuel : ℕ)
    (written : List UInt8) : scan source replaces source.length fuel i written = none := by
  induction fuel generalizing i written with
  | zero => rfl
  | succ fuel ih =>
    have hlt : i < source.bytes.length := by
      by_contra hle
      rw [List.drop_eq_nil_of_le (by omega)] at h
      exact h .nil
    rw [scan_step hshort hlt]
    cases hhere : here replaces (source.bytes.drop i) with
    | some replace =>
      refine ih (fun hnext => ?_) _
      by_cases htext : replace.text.bytes = []
      · rw [htext, List.length_nil, add_zero] at hnext
        exact h hnext
      · rw [← List.drop_drop] at hnext
        exact h (.pair hhere htext hnext)
    | none =>
      refine ih (fun hnext => h ?_) _
      rw [List.drop_eq_getElem_cons hlt] at hhere ⊢
      exact .copy hhere hnext

end Scan

theorem scan_huge {source : Str} (hhuge : 2 ^ 31 ≤ source.bytes.length) (replaces : List Pair)
    (fuel : ℕ) : scan source replaces source.length (fuel + 1) 0 [] = some [] := by
  have := int32_of_le hhuge source.fits
  rw [scan, if_neg (by rw [Str.length]; omega)]

/-- **What is promised**: `replace_multiple` ends with the leftmost-first replacement, and for one
pair with what `replace` ends with. -/
def Correct (source : Str) (replaces : List Pair) : Prop :=
  Returns (replaceMultiple · source replaces) (leftmostFirst replaces source.bytes) ∧
    ∀ replace, replaces = [replace] → ∃ result,
      Returns (builtinReplace · source replace.text replace.replacement) result ∧
        Returns (replaceMultiple · source replaces) result

/-- **When it is kept**: there is no pair; or the source is shorter than 2 GiB and no empty text
comes first where the scan is; or it is longer, and nothing is left of it. -/
def Reads (source : Str) (replaces : List Pair) : Prop :=
  replaces = [] ∨ source.bytes.length < 2 ^ 31 ∧ Moves replaces source.bytes ∨
    2 ^ 31 ≤ source.bytes.length ∧ leftmostFirst replaces source.bytes = []

theorem leftmostFirst_no_pairs (rest : List UInt8) : leftmostFirst [] rest = rest := by
  induction rest with
  | nil => exact leftmostFirst_nil _
  | cons byte rest ih => rw [leftmostFirst_none rfl, ih]

theorem replaceMultiple_returns (source : Str) (replaces : List Pair) :
    Returns (replaceMultiple · source replaces) (leftmostFirst replaces source.bytes) ↔
      Reads source replaces := by
  by_cases hpairs : replaces = []
  · subst hpairs
    refine ⟨fun _ => .inl rfl, fun _ => ⟨0, fun fuel _ => ?_⟩⟩
    simp [replaceMultiple, leftmostFirst_no_pairs]
  by_cases hempty : source.bytes = []
  · refine ⟨fun _ => .inr (.inl ⟨by rw [hempty]; decide, hempty ▸ .nil⟩), fun _ => ⟨0, ?_⟩⟩
    intro fuel _
    simp [replaceMultiple, hempty, leftmostFirst_nil]
  have hrun : ∀ fuel, replaceMultiple fuel source replaces =
      scan source replaces source.length fuel 0 [] := by
    intro fuel
    rw [replaceMultiple, if_neg (by simp [hpairs, hempty])]
  simp only [Returns, hrun, Reads, hpairs, false_or]
  by_cases hshort : source.bytes.length < 2 ^ 31
  · constructor
    · rintro ⟨n, hn⟩
      refine .inl ⟨hshort, ?_⟩
      by_contra hmoves
      have hnone := scan_never hshort (i := 0) (by simpa using hmoves) n []
      exact absurd ((hn n le_rfl).symm.trans hnone) (by simp)
    · rintro (⟨-, hmoves⟩ | ⟨hhuge, -⟩)
      · exact ⟨source.bytes.length + 1, fun fuel hfuel =>
          scan_returns hshort hmoves (i := 0) List.drop_zero (Nat.zero_le _) [] hfuel⟩
      · omega
  · have hhuge := not_lt.mp hshort
    constructor
    · rintro ⟨n, hn⟩
      refine .inr ⟨hhuge, ?_⟩
      exact Option.some.inj ((hn (n + 1) (Nat.le_succ n)).symm.trans (scan_huge hhuge replaces n))
    · rintro (⟨hshort', -⟩ | ⟨-, hnil⟩)
      · exact absurd hshort' hshort
      · refine ⟨1, fun fuel hfuel => ?_⟩
        obtain ⟨fuel, rfl⟩ := Nat.exists_eq_add_one_of_ne_zero (by omega : fuel ≠ 0)
        rw [scan_huge hhuge, hnil]

/-- `"a"`, and a pair of the empty text and `"y"`. -/
def letter : Str := ⟨[97], by decide, by decide⟩

def emptyText : Pair := ⟨⟨[], by decide, by decide⟩, ⟨[121], by decide, by decide⟩⟩

end DaScript.ReplaceMultiple
