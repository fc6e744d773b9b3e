import DaScript.Daslib.RegexEarlyOut

/-!
# Daslib/RegexReplace — the matches of a subject, and what is between them

`regex_match_all`, `regex_split` and `regex_replace` with a template, of `daslib/regex.das`.  All
loops over a subject come to the same matches, one behind the other, so the pieces and the matches
make up the subject, and replacing each match by itself changes nothing.  What matching leaves in
`groups` is a parameter.
-/

namespace DaScript.Regex

open Searching Text

/-! ## All matches, and splitting -/

section

variable (regex : Regex) (s : List UInt8) (fuel : ℕ)

def regexMatchAll : Option (List (ℕ × ℕ)) :=
  regexForeach regex s fuel (fun at' result => (true, result ++ [at'])) []

/-- `regex_split`, with `last_end` beside the result. -/
def regexSplit : Option (List (List UInt8)) :=
  if s = [] then some []
  else
    (regexForeach regex s fuel
      (fun at' (st : List (List UInt8) × ℕ) => (true, st.1 ++ [slice s st.2 at'.1], at'.2))
      ([], 0)).map fun st => st.1 ++ [s.drop st.2]

end

/-! ## Templates -/

/-- An entry of `regex.groups`: a range, and a name. -/
structure Group where
  range : ℕ × ℕ
  name : List UInt8

section

variable (groups : List Group) (s : List UInt8)

/-- The text of a group by number; `none` is a negative index. -/
def groupByNumber (groupNum : ℤ) : Option (List UInt8) :=
  if groupNum < groups.length then
    if groupNum < 0 then none
    else (groups[groupNum.toNat]?).map fun g => slice s g.range.1 g.range.2
  else some []

def regexGroupByName (name : List UInt8) : List UInt8 :=
  match groups.find? fun g => g.name = name with
  | some g => slice s g.range.1 g.range.2
  | none => []

/-- What stands between the braces of `${…}`. -/
def expandName (matchStart matchEnd : ℕ) (name : List UInt8) : Option (List UInt8) :=
  if name ≠ [] ∧ name.all isDigit then
    let groupNum := name.foldl (fun n nc => int32 (n * 10 + (nc.toNat - 48 : ℤ))) 0
    if groupNum = 0 then some (slice s matchStart matchEnd) else groupByNumber groups s groupNum
  else some (regexGroupByName groups s name)

/-- The loop of `expand_replacement`; every turn takes a byte at least. -/
def expandLoop (matchStart matchEnd : ℕ) : ℕ → List UInt8 → Option (List UInt8)
  | 0, _ => some []
  | _ + 1, [] => some []
  | turns + 1, c :: rest =>
    if c = ch '$' then
      match rest with
      | [] => some [c]
      | nch :: tail =>
        if nch = ch '$' then (expandLoop matchStart matchEnd turns tail).map (ch '$' :: ·)
        else if nch = ch '&' ∨ nch = ch '0' then
          (expandLoop matchStart matchEnd turns tail).map (slice s matchStart matchEnd ++ ·)
        else if ch '1' ≤ nch ∧ nch ≤ ch '9' then
          (groupByNumber groups s (nch.toNat - 48)).bind fun text =>
            (expandLoop matchStart matchEnd turns tail).map (text ++ ·)
        else if nch = ch '\x7b' then
          match tail.span (· ≠ ch '\x7d') with
          | (name, _ :: after) =>
            (expandName groups s matchStart matchEnd name).bind fun text =>
              (expandLoop matchStart matchEnd turns after).map (text ++ ·)
          | (_, []) => (expandLoop matchStart matchEnd turns rest).map (c :: ·)
        else (expandLoop matchStart matchEnd turns rest).map (c :: ·)
    else (expandLoop matchStart matchEnd turns rest).map (c :: ·)

/-- `expand_replacement`, `none` if an index is out of range. -/
def expandReplacement (replacement : List UInt8) (matchStart matchEnd : ℕ) :
    Option (List UInt8) :=
  expandLoop groups s matchStart matchEnd replacement.length replacement

end

section

variable (regex : Regex) (s : List UInt8) (fuel : ℕ) (groups : ℕ → List Group)

/-- The loop of `regex_replace` with a template; matching at a place leaves `groups` there. -/
def templateLoop (replacement : List UInt8) : ℕ → ℕ → List UInt8 → Option (List UInt8)
  | 0, _, _ => none
  | n + 1, cstr, writer =>
    match s[cstr]? with
    | none => some writer
    | some c =>
      if regex.passesOver c then templateLoop replacement n (cstr + 1) (writer ++ [c])
      else
        match matchAt regex s fuel cstr with
        | .pos om =>
          (expandReplacement (groups cstr) s replacement cstr om).bind fun repl =>
            if om = cstr then templateLoop replacement n (cstr + 1) (writer ++ repl ++ [c])
            else templateLoop replacement n om (writer ++ repl)
        | .null => templateLoop replacement n (cstr + 1) (writer ++ [c])
        | .hang => none

/-- `regex_replace` with a template: the text that is built, `none` if a loop goes on or an index is
out of range. -/
def regexReplaceTemplate (replacement : List UInt8) : Option (List UInt8) :=
  if s = [] then some [] else templateLoop regex s fuel groups replacement fuel 0 []

end

/-! ## One behind the other -/

variable {regex : Regex} {s : List UInt8} {fuel : ℕ}

/-- **Ranges one behind the other**, from `lo` on, and none after an empty one at its place. -/
def Ordered (hi : ℕ) : ℕ → List (ℕ × ℕ) → Prop
  | _, [] => True
  | lo, at' :: ranges =>
    lo ≤ at'.1 ∧ at'.1 ≤ at'.2 ∧ at'.2 ≤ hi ∧
      Ordered hi (if at'.2 = at'.1 then at'.1 + 1 else at'.2) ranges

theorem Ordered.mono {hi lo lo' : ℕ} {ranges : List (ℕ × ℕ)} (h : Ordered hi lo ranges)
    (hle : lo' ≤ lo) : Ordered hi lo' ranges := by
  cases ranges with
  | nil => trivial
  | cons at' ranges => exact ⟨hle.trans h.1, h.2⟩

theorem Ordered.forall {hi lo : ℕ} {ranges : List (ℕ × ℕ)} (h : Ordered hi lo ranges) :
    ∀ at' ∈ ranges, lo ≤ at'.1 ∧ at'.1 ≤ at'.2 ∧ at'.2 ≤ hi := by
  induction ranges generalizing lo with
  | nil => exact nofun
  | cons at' ranges ih =>
    obtain ⟨hlo, hle, hhi, hrest⟩ := h
    intro r hr
    rcases List.mem_cons.mp hr with rfl | hr
    · exact ⟨hlo, hle, hhi⟩
    · obtain ⟨hlo', hrange⟩ := ih hrest r hr
      refine ⟨?_, hrange⟩
      split_ifs at hlo' <;> omega

theorem Ordered.pairwise {hi lo : ℕ} {ranges : List (ℕ × ℕ)} (h : Ordered hi lo ranges) :
    ranges.Pairwise fun r r' => r.1 < r'.1 ∧ r.2 ≤ r'.1 := by
  induction ranges generalizing lo with
  | nil => exact .nil
  | cons at' ranges ih =>
    obtain ⟨-, hle, -, hrest⟩ := h
    refine List.pairwise_cons.mpr ⟨fun r hr => ?_, ih hrest⟩
    have hlo := (hrest.forall r hr).1
    split_ifs at hlo <;> omega

/-- The pieces between ranges, from `lastEnd` on. -/
def piecesFrom (s : List UInt8) (lastEnd : ℕ) : List (ℕ × ℕ) → List (List UInt8)
  | [] => [s.drop lastEnd]
  | at' :: ranges => slice s lastEnd at'.1 :: piecesFrom s at'.2 ranges

/-- Pieces with texts between them. -/
def interleave : List (List UInt8) → List (List UInt8) → List UInt8
  | piece :: pieces, text :: texts => piece ++ text ++ interleave pieces texts
  | pieces, _ => pieces.flatten

theorem slice_append_drop {x y : ℕ} (h : x ≤ y) : slice s x y ++ s.drop y = s.drop x := by
  have hdrop : s.drop y = (s.drop x).drop (y - x) := by
    rw [List.drop_drop, Nat.add_sub_of_le h]
  rw [slice, hdrop, List.take_append_drop]

theorem interleave_piecesFrom {lo lastEnd : ℕ} {ranges : List (ℕ × ℕ)}
    (h : Ordered s.length lo ranges) (hlast : lastEnd ≤ lo) :
    interleave (piecesFrom s lastEnd ranges) (ranges.map fun at' => slice s at'.1 at'.2)
      = s.drop lastEnd := by
  induction ranges generalizing lo lastEnd with
  | nil => exact List.append_nil _
  | cons at' ranges ih =>
    obtain ⟨hlo, hle, -, hrest⟩ := h
    have hnext : at'.2 ≤ if at'.2 = at'.1 then at'.1 + 1 else at'.2 := by split_ifs <;> omega
    rw [piecesFrom, List.map_cons, interleave, ih hrest hnext, List.append_assoc,
      slice_append_drop hle, slice_append_drop (hlast.trans hlo)]

theorem length_piecesFrom (lastEnd : ℕ) (ranges : List (ℕ × ℕ)) :
    (piecesFrom s lastEnd ranges).length = ranges.length + 1 := by
  induction ranges generalizing lastEnd with
  | nil => rfl
  | cons at' ranges ih => rw [piecesFrom, List.length_cons, ih, List.length_cons]

theorem foldl_split (ranges : List (ℕ × ℕ)) (pieces : List (List UInt8)) (lastEnd : ℕ) :
    let st := ranges.foldl
      (fun (st : List (List UInt8) × ℕ) at' => (st.1 ++ [slice s st.2 at'.1], at'.2))
      (pieces, lastEnd)
    st.1 ++ [s.drop st.2] = pieces ++ piecesFrom s lastEnd ranges := by
  induction ranges generalizing pieces lastEnd with
  | nil => rfl
  | cons at' ranges ih =>
    exact (ih (pieces ++ [slice s lastEnd at'.1]) at'.2).trans (List.append_assoc _ _ _)

theorem foldl_push (ranges result : List (ℕ × ℕ)) :
    ranges.foldl (fun result at' => result ++ [at']) result = result ++ ranges := by
  induction ranges generalizing result with
  | nil => exact (List.append_nil _).symm
  | cons at' ranges ih => rw [List.foldl_cons, ih, List.append_assoc, List.singleton_append]

/-! ## The loops -/

section

variable (hmatch : ∀ str ≤ s.length, matchAt regex s fuel str ≠ .hang)
include hmatch

theorem foreachLoop_ranges {n cstr : ℕ} (hcstr : cstr ≤ s.length) (hn : s.length < cstr + n) :
    ∃ ranges, Ordered s.length cstr ranges ∧
      ∀ {σ : Type} (step : σ → ℕ × ℕ → σ) (st : σ),
        foreachLoop regex s fuel (fun at' st => (true, step st at')) n cstr st
          = some (ranges.foldl step st) := by
  induction n generalizing cstr with
  | zero => omega
  | succ n ih =>
    cases hc : s[cstr]? with
    | none =>
      refine ⟨[], trivial, fun step st => ?_⟩
      rw [foreachLoop, hc]
      rfl
    | some c =>
      obtain ⟨hlt, -⟩ := List.getElem?_eq_some_iff.mp hc
      obtain ⟨ranges, hranges, hloop⟩ := @ih (cstr + 1) hlt (by omega)
      by_cases hpass : regex.passesOver c = true
      · refine ⟨ranges, hranges.mono (Nat.le_succ _), fun step st => ?_⟩
        rw [foreachLoop, hc]
        exact (if_pos hpass).trans (hloop step st)
      · cases hom : matchAt regex s fuel cstr with
        | pos om =>
          obtain ⟨hle, hom'⟩ := matchAt_stays hcstr hom
          obtain ⟨ranges, hranges, hloop⟩ :=
            @ih (if om = cstr then cstr + 1 else om) (by split_ifs <;> omega)
              (by split_ifs <;> omega)
          refine ⟨(cstr, om) :: ranges, ⟨le_rfl, hle, hom', hranges⟩, fun step st => ?_⟩
          rw [foreachLoop, hc]
          dsimp only
          rw [if_neg hpass, hom]
          exact hloop step _
        | null =>
          refine ⟨ranges, hranges.mono (Nat.le_succ _), fun step st => ?_⟩
          rw [foreachLoop, hc]
          dsimp only
          rw [if_neg hpass, hom]
          exact hloop step st
        | hang => exact absurd hom (hmatch cstr hcstr)

omit hmatch in
theorem cons_drop {c : UInt8} {cstr : ℕ} (hc : s[cstr]? = some c) :
    c :: s.drop (cstr + 1) = s.drop cstr := by
  obtain ⟨hlt, rfl⟩ := List.getElem?_eq_some_iff.mp hc
  exact (List.drop_eq_getElem_cons hlt).symm

theorem replaceLoop_self {σ : Type*} {n cstr : ℕ} (hcstr : cstr ≤ s.length)
    (hn : s.length < cstr + n) (writer : List UInt8) (st : σ) :
    replaceLoop regex s fuel (fun at' st => (at', st)) n cstr writer st
      = some (writer ++ s.drop cstr, st) := by
  induction n generalizing cstr writer with
  | zero => omega
  | succ n ih =>
    rw [replaceLoop]
    cases hc : s[cstr]? with
    | none =>
      rw [List.drop_eq_nil_of_le (List.getElem?_eq_none_iff.mp hc), List.append_nil]
    | some c =>
      obtain ⟨hlt, -⟩ := List.getElem?_eq_some_iff.mp hc
      have hskip : replaceLoop regex s fuel (fun at' st => (at', st)) n (cstr + 1) (writer ++ [c])
          st = some (writer ++ s.drop cstr, st) := by
        rw [ih hlt (by omega), List.append_assoc, List.singleton_append, cons_drop hc]
      dsimp only
      split_ifs with hpass
      · exact hskip
      · cases hom : matchAt regex s fuel cstr with
        | pos om =>
          obtain ⟨hle, hom'⟩ := matchAt_stays hcstr hom
          dsimp only
          split_ifs with hempty
          · subst hempty
            rw [slice, Nat.sub_self, List.take_zero, List.append_nil]
            exact hskip
          · rw [ih hom' (by omega), List.append_assoc, slice_append_drop hle]
        | null => exact hskip
        | hang => exact absurd hom (hmatch cstr hcstr)

omit hmatch in
theorem expandReplacement_whole (groups : List Group) (matchStart matchEnd : ℕ) :
    expandReplacement groups s (text "$0") matchStart matchEnd
      = some (slice s matchStart matchEnd) := by
  have hexpand : expandReplacement groups s (text "$0") matchStart matchEnd
      = some (slice s matchStart matchEnd ++ []) := rfl
  rw [hexpand, List.append_nil]

omit hmatch in
theorem templateLoop_whole (groups : ℕ → List Group) (n cstr : ℕ) (writer : List UInt8) :
    templateLoop regex s fuel groups (text "$0") n cstr writer
      = (replaceLoop regex s fuel (fun at' st => (at', st)) n cstr writer ()).map Prod.fst := by
  induction n generalizing cstr writer with
  | zero => rfl
  | succ n ih =>
    rw [templateLoop, replaceLoop]
    cases s[cstr]? with
    | none => rfl
    | some c =>
      dsimp only
      split_ifs with hpass
      · exact ih _ _
      · cases matchAt regex s fuel cstr with
        | pos om =>
          dsimp only
          rw [expandReplacement_whole, Option.bind_some]
          split_ifs
          · exact ih _ _
          · exact ih _ _
        | null => exact ih _ _
        | hang => rfl

end

theorem scanning_partitions (regex : Regex) (s : List UInt8) (hs : s ≠ []) (fuel : ℕ)
    (hfuel : s.length < fuel) (hends : ∀ str ≤ s.length, matchAt regex s fuel str ≠ .hang) :
    ∃ ranges pieces,
      regexMatchAll regex s fuel = some ranges ∧
      (∀ at' ∈ ranges, at'.1 ≤ at'.2 ∧ at'.2 ≤ s.length) ∧
      ranges.Pairwise (fun r r' => r.1 < r'.1 ∧ r.2 ≤ r'.1) ∧
      regexSplit regex s fuel = some pieces ∧ pieces.length = ranges.length + 1 ∧
      interleave pieces (ranges.map fun at' => slice s at'.1 at'.2) = s ∧
      (∀ (σ : Type) (st : σ), regexReplace regex s fuel (fun at' st => (at', st)) st
        = some (s, st)) ∧
      ∀ groups, regexReplaceTemplate regex s fuel groups (text "$0") = some s := by
  obtain ⟨ranges, hranges, hforeach⟩ :=
    foreachLoop_ranges hends (Nat.zero_le _) (show s.length < 0 + fuel by omega)
  have hreplace : ∀ (σ : Type) (st : σ),
      replaceLoop regex s fuel (fun at' st => (at', st)) fuel 0 [] st = some (s, st) :=
    fun σ st => replaceLoop_self hends (Nat.zero_le _) (by omega) [] st
  refine ⟨ranges, piecesFrom s 0 ranges, ?_, fun at' hat => (hranges.forall at' hat).2,
    hranges.pairwise, ?_, length_piecesFrom 0 ranges, interleave_piecesFrom hranges le_rfl,
    fun σ st => ?_, fun groups => ?_⟩
  · rw [regexMatchAll, regexForeach, if_neg hs]
    exact (hforeach (fun result at' => result ++ [at']) []).trans
      (congrArg some (foldl_push ranges []))
  · rw [regexSplit, if_neg hs, regexForeach, if_neg hs]
    refine (congrArg _ (hforeach (fun (st : List (List UInt8) × ℕ) at' =>
      (st.1 ++ [slice s st.2 at'.1], at'.2)) ([], 0))).trans ?_
    exact congrArg some (foldl_split ranges [] 0)
  · rw [regexReplace, if_neg hs, hreplace]
  · rw [regexReplaceTemplate, if_neg hs, templateLoop_whole, hreplace]
    rfl

end DaScript.Regex
