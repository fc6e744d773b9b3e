import DaScript.Daslib.RegexParser
import DaScript.Daslib.RegexReturns

/-!
# Daslib/RegexScan — scanning a subject

`regex_search`, `regex_foreach` and `regex_replace` with a block, of `daslib/regex.das`.  They go
through the subject byte by byte and, after a match, on from its end, or from the next byte if the
match is empty.

A block works on a state of its own.
-/

namespace DaScript.Regex

open Searching Text

section

variable (regex : Regex) (s : List UInt8) (fuel : ℕ)

/-- The path with `canEarlyOut` does not try at a byte that is not in `earlyOut`. -/
def passesOver (c : UInt8) : Bool := regex.canEarlyOut && !isCharInSet c regex.earlyOut

/-- The loop of `regex_search`. -/
def searchLoop : ℕ → ℕ → Option (ℤ × ℤ)
  | 0, _ => none
  | n + 1, cstr =>
    match s[cstr]? with
    | none => some (-1, -1)
    | some c =>
      if regex.passesOver c then searchLoop n (cstr + 1)
      else
        match matchAt regex s fuel cstr with
        | .pos om => some (cstr, om)
        | .null => searchLoop n (cstr + 1)
        | .hang => none

/-- `regex_search`: where the first match starts and ends, `none` if a loop goes on. -/
def regexSearch (offset : ℕ) : Option (ℤ × ℤ) :=
  if s = [] then some (-1, -1) else searchLoop regex s fuel fuel offset

variable {σ : Type*}

/-- The loop of `regex_foreach`. -/
def foreachLoop (blk : ℕ × ℕ → σ → Bool × σ) : ℕ → ℕ → σ → Option σ
  | 0, _, _ => none
  | n + 1, cstr, st =>
    match s[cstr]? with
    | none => some st
    | some c =>
      if regex.passesOver c then foreachLoop blk n (cstr + 1) st
      else
        match matchAt regex s fuel cstr with
        | .pos om =>
          if (blk (cstr, om) st).1 then
            foreachLoop blk n (if om = cstr then cstr + 1 else om) (blk (cstr, om) st).2
          else some (blk (cstr, om) st).2
        | .null => foreachLoop blk n (cstr + 1) st
        | .hang => none

/-- `regex_foreach`: what the block's calls make of the state. -/
def regexForeach (blk : ℕ × ℕ → σ → Bool × σ) (st : σ) : Option σ :=
  if s = [] then some st else foreachLoop regex s fuel blk fuel 0 st

/-- `slice(str, x, y)` -/
def slice (x y : ℕ) : List UInt8 := (s.drop x).take (y - x)

/-- The loop of `regex_replace`, with what is written so far. -/
def replaceLoop (blk : List UInt8 → σ → List UInt8 × σ) :
    ℕ → ℕ → List UInt8 → σ → Option (List UInt8 × σ)
  | 0, _, _, _ => none
  | n + 1, cstr, writer, st =>
    match s[cstr]? with
    | none => some (writer, st)
    | some c =>
      if regex.passesOver c then replaceLoop blk n (cstr + 1) (writer ++ [c]) st
      else
        match matchAt regex s fuel cstr with
        | .pos om =>
          if om = cstr then
            replaceLoop blk n (cstr + 1) (writer ++ (blk (slice s cstr om) st).1 ++ [c])
              (blk (slice s cstr om) st).2
          else
            replaceLoop blk n om (writer ++ (blk (slice s cstr om) st).1)
              (blk (slice s cstr om) st).2
        | .null => replaceLoop blk n (cstr + 1) (writer ++ [c]) st
        | .hang => none

/-- `regex_replace` with a block: the text that is built. -/
def regexReplace (blk : List UInt8 → σ → List UInt8 × σ) (st : σ) : Option (List UInt8 × σ) :=
  if s = [] then some ([], st) else replaceLoop regex s fuel blk fuel 0 [] st

end

/-! ## Scanning ends -/

section Returns

variable {regex : Regex} {s : List UInt8} {fuel lo : ℕ} {σ : Type*}
  (hmatch : ∀ str ∈ Set.Icc lo s.length, matchAt regex s fuel str ≠ .hang)
include hmatch

theorem searchLoop_returns {n cstr : ℕ} (hcstr : cstr ∈ Set.Icc lo s.length)
    (hn : s.length < cstr + n) : (searchLoop regex s fuel n cstr).isSome := by
  induction n generalizing cstr with
  | zero => exact absurd hcstr.2 (by omega)
  | succ n ih =>
    rw [searchLoop]
    split
    next => rfl
    next c hc =>
      obtain ⟨hlt, -⟩ := List.getElem?_eq_some_iff.mp hc
      have hlo := hcstr.1
      have hnext : cstr + 1 ∈ Set.Icc lo s.length := ⟨by omega, hlt⟩
      split
      next => exact ih hnext (by omega)
      next =>
        split
        next => rfl
        next => exact ih hnext (by omega)
        next hhang => exact absurd hhang (hmatch cstr hcstr)

theorem foreachLoop_returns (blk : ℕ × ℕ → σ → Bool × σ) {n cstr : ℕ}
    (hcstr : cstr ∈ Set.Icc lo s.length) (hn : s.length < cstr + n) (st : σ) :
    (foreachLoop regex s fuel blk n cstr st).isSome := by
  induction n generalizing cstr st with
  | zero => exact absurd hcstr.2 (by omega)
  | succ n ih =>
    rw [foreachLoop]
    split
    next => rfl
    next c hc =>
      obtain ⟨hlt, -⟩ := List.getElem?_eq_some_iff.mp hc
      have hlo := hcstr.1
      have hnext : cstr + 1 ∈ Set.Icc lo s.length := ⟨by omega, hlt⟩
      split
      next => exact ih hnext (by omega) st
      next =>
        split
        next om hom =>
          obtain ⟨hle, hom⟩ := matchAt_stays hcstr.2 hom
          split
          next =>
            split
            next => exact ih hnext (by omega) _
            next hne => exact ih ⟨by omega, hom⟩ (by omega) _
          next => rfl
        next => exact ih hnext (by omega) st
        next hhang => exact absurd hhang (hmatch cstr hcstr)

theorem replaceLoop_returns (blk : List UInt8 → σ → List UInt8 × σ) {n cstr : ℕ}
    (hcstr : cstr ∈ Set.Icc lo s.length) (hn : s.length < cstr + n) (writer : List UInt8)
    (st : σ) : (replaceLoop regex s fuel blk n cstr writer st).isSome := by
  induction n generalizing cstr writer st with
  | zero => exact absurd hcstr.2 (by omega)
  | succ n ih =>
    rw [replaceLoop]
    split
    next => rfl
    next c hc =>
      obtain ⟨hlt, -⟩ := List.getElem?_eq_some_iff.mp hc
      have hlo := hcstr.1
      have hnext : cstr + 1 ∈ Set.Icc lo s.length := ⟨by omega, hlt⟩
      split
      next => exact ih hnext (by omega) _ st
      next =>
        split
        next om hom =>
          obtain ⟨hle, hom⟩ := matchAt_stays hcstr.2 hom
          split
          next => exact ih hnext (by omega) _ _
          next hne => exact ih ⟨by omega, hom⟩ (by omega) _ _
        next => exact ih hnext (by omega) _ st
        next hhang => exact absurd hhang (hmatch cstr hcstr)

end Returns

/-- **No loop that is started from `lo` on stays where it is.** -/
structure Settled (regex : Regex) (s : List UInt8) (lo : ℕ) : Prop where
  nulFree : NulFree regex.root
  moves : Moves regex s lo regex.root false

theorem Settled.matchAt_ends {regex : Regex} {s : List UInt8} {lo fuel : ℕ}
    (h : Settled regex s lo) (hfuel : s.length < fuel) :
    ∀ str ∈ Set.Icc lo s.length, matchAt regex s fuel str ≠ .hang :=
  (matchNode_ends hfuel regex.root false h.moves).body

theorem not_matches_char {regex : Regex} {s : List UInt8} {strict : Bool} {first : UInt8}
    {others : List UInt8} {p : ℕ} : ¬Matches regex s strict (.char first others) p p := by
  rintro ⟨-, hp⟩
  rw [List.length_cons] at hp
  omega

end DaScript.Regex
