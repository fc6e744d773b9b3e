import DaScript.Daslib.RegexScan
import DaScript.Daslib.RegexSets

/-!
# Daslib/RegexEarlyOut — what the early-out set leaves out

`re_early_out` gathers the bytes that a match can start with.  It says of `{n,m}` that it matches
the empty text if `n` is 0, whatever is repeated, and `regex_compile` does not ask whether the whole
pattern matches the empty text.

Where neither happens, a byte that a match starts with is in the set (`mem_reEarlyOut`).
-/

namespace DaScript.Regex

open Searching Text

/-! ## The set grows -/

theorem mem_earlyOutChar {cset : CharSet} {c fc : UInt8} (h : isCharInSet c cset = true ∨ c = fc) :
    isCharInSet c (earlyOutChar cset fc) = true := by
  have hset := isCharInSet_setOrChar.mpr h
  rw [earlyOutChar]
  split
  next => exact isCharInSet_setOrChar.mpr (Or.inl hset)
  next =>
    split
    next => exact isCharInSet_setOrChar.mpr (Or.inl hset)
    next => exact hset

mutual

theorem reEarlyOut_grows (node : ReNode) {cset : CharSet} {c : UInt8}
    (h : isCharInSet c cset = true) : isCharInSet c (reEarlyOut node cset).1 = true := by
  match node with
  | .char first _ => exact mem_earlyOutChar (Or.inl h)
  | .set eset => exact isCharInSet_setOrSet.mpr (Or.inl h)
  | .any => exact isCharInSet_allOnes
  | .eos | .bos | .wordBoundary | .nonWordBoundary | .lookahead _ | .negativeLookahead _ => exact h
  | .group _ _ subexpr => exact reEarlyOut_grows subexpr h
  | .plus _ subexpr => exact reEarlyOut_grows subexpr h
  | .star _ subexpr => exact reEarlyOut_grows subexpr h
  | .question _ subexpr => exact reEarlyOut_grows subexpr h
  | .repeated _ _ _ subexpr => exact reEarlyOut_grows subexpr h
  | .concat left right =>
    rw [reEarlyOut]
    split
    next => exact reEarlyOut_grows right (reEarlyOut_grows left h)
    next => exact reEarlyOut_grows left h
  | .union all => exact reEarlyOuts_grows all h

theorem reEarlyOuts_grows (nodes : List ReNode) {cset : CharSet} {c : UInt8}
    (h : isCharInSet c cset = true) : isCharInSet c (reEarlyOuts nodes cset).1 = true := by
  match nodes with
  | [] => exact h
  | node :: nodes => exact reEarlyOuts_grows nodes (reEarlyOut_grows node h)

end

/-! ## What a match starts with -/

section

variable (regex : Regex) (s : List UInt8) (p : ℕ)

mutual

/-- **What must be repeated matches more than the empty text** at a position. -/
def Consumes : ReNode → Prop
  | .repeated minRep maxRep lazy subexpr =>
    Consumes subexpr ∧
      (minRep ≠ 0 → ¬Matches regex s false (.repeated minRep maxRep lazy subexpr) p p)
  | .group _ _ subexpr | .plus _ subexpr | .star _ subexpr | .question _ subexpr =>
    Consumes subexpr
  | .concat left right => Consumes left ∧ Consumes right
  | .union all => ConsumesAll all
  | .char _ _ | .set _ | .any | .eos | .bos | .wordBoundary | .nonWordBoundary | .lookahead _
  | .negativeLookahead _ => True

def ConsumesAll : List ReNode → Prop
  | [] => True
  | node :: nodes => Consumes node ∧ ConsumesAll nodes

end

end

variable {regex : Regex} {s : List UInt8} {p : ℕ} {c : UInt8}

theorem lower_of_upper (h : ch 'A' ≤ c ∧ c ≤ ch 'Z') :
    ch 'a' ≤ c + 32 ∧ c + 32 ≤ ch 'z' ∧ ¬(ch 'A' ≤ c + 32 ∧ c + 32 ≤ ch 'Z') := by
  have hA : (ch 'A').toNat = 65 := rfl
  have hZ : (ch 'Z').toNat = 90 := rfl
  have ha : (ch 'a').toNat = 97 := rfl
  have hz : (ch 'z').toNat = 122 := rfl
  obtain ⟨hlo, hhi⟩ := h
  rw [UInt8.le_iff_toNat_le] at hlo hhi
  have hadd : (c + 32).toNat = c.toNat + 32 := by
    rw [UInt8.toNat_add]
    exact Nat.mod_eq_of_lt (by change c.toNat + 32 < 256; omega)
  rw [UInt8.le_iff_toNat_le, UInt8.le_iff_toNat_le, UInt8.le_iff_toNat_le, UInt8.le_iff_toNat_le,
    hadd]
  omega

theorem mem_earlyOutChar_of_fold {cset : CharSet} {fc : UInt8}
    (h : regex.fold c = regex.fold fc) : isCharInSet c (earlyOutChar cset fc) = true := by
  by_cases heq : c = fc
  · exact mem_earlyOutChar (Or.inr heq)
  · rw [fold, fold] at h
    split at h
    next =>
      rw [ciLower, ciLower] at h
      split at h
      next hc =>
        split at h
        next => exact absurd ((UInt8.add_left_inj 32).mp h) heq
        next =>
          subst h
          obtain ⟨ha, hz, hupper⟩ := lower_of_upper hc
          rw [earlyOutChar, if_neg hupper, if_pos ⟨ha, hz⟩]
          exact isCharInSet_setOrChar.mpr (Or.inr (UInt8.add_sub_cancel c 32).symm)
      next =>
        split at h
        next hfc =>
          rw [earlyOutChar, if_pos hfc]
          exact isCharInSet_setOrChar.mpr (Or.inr h)
        next => exact absurd h heq
    next => exact absurd h heq
theorem start_times {R : ℕ → ℕ → Prop} {S E : Prop} (h : ∀ j, R p j → S ∨ (j = p ∧ E)) {n j : ℕ}
    (hn : Times R n p j) : S ∨ (j = p ∧ (n = 0 ∨ E)) := by
  induction n with
  | zero => exact Or.inr ⟨hn, Or.inl rfl⟩
  | succ n ih =>
    obtain ⟨q, hR, hn⟩ := hn
    obtain hS | ⟨rfl, hE⟩ := h q hR
    · exact Or.inl hS
    · obtain hS | ⟨rfl, -⟩ := ih hn
      · exact Or.inl hS
      · exact Or.inr ⟨rfl, Or.inr hE⟩

mutual

theorem mem_reEarlyOut (hc : s[p]? = some c) (node : ReNode) (h : Consumes regex s p node) {j : ℕ}
    (hj : Matches regex s false node p j) (cset : CharSet) :
    isCharInSet c (reEarlyOut node cset).1 = true ∨ (j = p ∧ (reEarlyOut node cset).2 = true) := by
  match node with
  | .char first others =>
    have hfold : regex.fold c = regex.fold first := by
      obtain ⟨hlt, hget⟩ := List.getElem?_eq_some_iff.mp hc
      have heq := hj.1
      rw [List.drop_eq_getElem_cons hlt, List.length_cons, List.take_succ_cons, List.map_cons,
        List.map_cons, hget] at heq
      exact (List.cons.inj heq).1
    exact Or.inl (mem_earlyOutChar_of_fold hfold)
  | .set eset =>
    obtain ⟨⟨c', hc', hin⟩, -⟩ := hj
    obtain rfl := Option.some.inj (hc'.symm.trans hc)
    exact Or.inl (isCharInSet_setOrSet.mpr (Or.inr hin))
  | .any => exact Or.inl isCharInSet_allOnes
  | .eos =>
    obtain ⟨hlt, -⟩ := List.getElem?_eq_some_iff.mp hc
    exact absurd hj.1 (Nat.not_le.mpr hlt)
  | .bos => exact Or.inr ⟨hj.2, rfl⟩
  | .wordBoundary => exact Or.inr ⟨hj.2, rfl⟩
  | .nonWordBoundary => exact Or.inr ⟨hj.2, rfl⟩
  | .lookahead _ => exact Or.inr ⟨hj.2, rfl⟩
  | .negativeLookahead _ => exact Or.inr ⟨hj.2, rfl⟩
  | .group _ _ subexpr => exact mem_reEarlyOut hc subexpr h hj cset
  | .plus _ subexpr =>
    obtain ⟨n, hpos, hn⟩ := hj
    obtain hin | ⟨rfl, hzero | hempty⟩ :=
      start_times (fun j hj => mem_reEarlyOut hc subexpr h hj cset) hn
    · exact Or.inl hin
    · omega
    · exact Or.inr ⟨rfl, hempty⟩
  | .star _ subexpr =>
    obtain ⟨n, hn⟩ := hj
    obtain hin | ⟨rfl, -⟩ := start_times (fun j hj => mem_reEarlyOut hc subexpr h hj cset) hn
    · exact Or.inl hin
    · exact Or.inr ⟨rfl, rfl⟩
  | .question _ subexpr =>
    obtain rfl | hj := hj
    · exact Or.inr ⟨rfl, rfl⟩
    · obtain hin | ⟨rfl, -⟩ := mem_reEarlyOut hc subexpr h hj cset
      · exact Or.inl hin
      · exact Or.inr ⟨rfl, rfl⟩
  | .concat left right =>
    obtain ⟨q, hl, hr⟩ := hj
    rw [reEarlyOut]
    obtain hin | ⟨heq, hempty⟩ := mem_reEarlyOut hc left h.1 hl cset
    · split
      next => exact Or.inl (reEarlyOut_grows right hin)
      next => exact Or.inl hin
    · rw [if_pos hempty]
      rw [heq] at hr
      exact mem_reEarlyOut hc right h.2 hr _
  | .union all => exact mem_reEarlyOuts hc all h hj cset
  | .repeated minRep maxRep lazy subexpr =>
    have hj' := hj
    obtain ⟨n, -, hn⟩ := hj
    obtain hin | ⟨rfl, -⟩ := start_times (fun j hj => mem_reEarlyOut hc subexpr h.1 hj cset) hn
    · exact Or.inl hin
    · exact Or.inr ⟨rfl, decide_eq_true (not_not.mp fun hne => h.2 hne hj')⟩

theorem mem_reEarlyOuts (hc : s[p]? = some c) (nodes : List ReNode)
    (h : ConsumesAll regex s p nodes) {j : ℕ} (hj : MatchesOne regex s false nodes p j)
    (cset : CharSet) :
    isCharInSet c (reEarlyOuts nodes cset).1 = true
      ∨ (j = p ∧ (reEarlyOuts nodes cset).2 = true) := by
  match nodes with
  | [] => exact hj.elim
  | node :: nodes =>
    rw [reEarlyOuts]
    obtain hj | hj := hj
    · obtain hin | ⟨rfl, hempty⟩ := mem_reEarlyOut hc node h.1 hj cset
      · exact Or.inl (reEarlyOuts_grows nodes hin)
      · exact Or.inr ⟨rfl, Bool.or_eq_true_iff.mpr (Or.inl hempty)⟩
    · obtain hin | ⟨rfl, hempty⟩ := mem_reEarlyOuts hc nodes h.2 hj (reEarlyOut node cset).1
      · exact Or.inl hin
      · exact Or.inr ⟨rfl, Bool.or_eq_true_iff.mpr (Or.inr hempty)⟩

end

/-! ## The set does no harm -/

variable {regex' : Regex} {fuel : ℕ}

mutual

theorem matchNode_congr (hcase : regex.caseInsensitive = regex'.caseInsensitive)
    (hdot : regex.dotAll = regex'.dotAll) (node : ReNode) :
    matchNode regex s fuel node = matchNode regex' s fuel node := by
  match node with
  | .char first others =>
    rw [matchNode, matchNode]
    funext next str
    rw [reMatch2Char, reMatch2Char, show regex.fold = regex'.fold from
      funext fun c => by rw [fold, fold, hcase]]
  | .any =>
    rw [matchNode, matchNode]
    funext next str
    rw [reMatch2Any, reMatch2Any, hdot]
  | .set _ | .eos | .bos | .wordBoundary | .nonWordBoundary => rfl
  | .group _ _ subexpr => rw [matchNode, matchNode, matchNode_congr hcase hdot subexpr]
  | .plus true subexpr =>
    change reMatch2PlusLazy s fuel _ = reMatch2PlusLazy s fuel _
    rw [matchNode_congr hcase hdot subexpr]
  | .plus false subexpr => rw [matchNode_plus, matchNode_plus, matchNode_congr hcase hdot subexpr]
  | .star _ subexpr => rw [matchNode, matchNode, matchNode_congr hcase hdot subexpr]
  | .question _ subexpr => rw [matchNode, matchNode, matchNode_congr hcase hdot subexpr]
  | .concat left right =>
    rw [matchNode, matchNode, matchNode_congr hcase hdot left, matchNode_congr hcase hdot right]
  | .union all => rw [matchNode, matchNode, matchNodes_congr hcase hdot all]
  | .repeated _ _ _ subexpr => rw [matchNode, matchNode, matchNode_congr hcase hdot subexpr]
  | .lookahead subexpr => rw [matchNode, matchNode, matchNode_congr hcase hdot subexpr]
  | .negativeLookahead subexpr => rw [matchNode, matchNode, matchNode_congr hcase hdot subexpr]

theorem matchNodes_congr (hcase : regex.caseInsensitive = regex'.caseInsensitive)
    (hdot : regex.dotAll = regex'.dotAll) (nodes : List ReNode) :
    matchNodes regex s fuel nodes = matchNodes regex' s fuel nodes := by
  match nodes with
  | [] => rfl
  | node :: nodes =>
    rw [matchNodes, matchNodes, matchNode_congr hcase hdot node,
      matchNodes_congr hcase hdot nodes]

end

/-- `canEarlyOut = false` -/
def plain (regex : Regex) : Regex := { regex with canEarlyOut := false }

theorem matchAt_plain (regex : Regex) (str : ℕ) :
    matchAt regex.plain s fuel str = matchAt regex s fuel str := by
  have hcase : regex.plain.caseInsensitive = regex.caseInsensitive := rfl
  have hdot : regex.plain.dotAll = regex.dotAll := rfl
  have hcongr : matchNode regex.plain s fuel regex.root = matchNode regex s fuel regex.root :=
    matchNode_congr hcase hdot regex.root
  exact congrFun (congrFun hcongr none) str

section Scan

variable {lo : ℕ} {σ : Type*}
  (hskip : ∀ cstr, lo ≤ cstr → ∀ c, s[cstr]? = some c → regex.passesOver c = true →
    matchAt regex s fuel cstr = .null)
include hskip

theorem searchLoop_plain {n cstr : ℕ} (hlo : lo ≤ cstr) :
    searchLoop regex s fuel n cstr = searchLoop regex.plain s fuel n cstr := by
  induction n generalizing cstr with
  | zero => rfl
  | succ n ih =>
    rw [searchLoop, searchLoop]
    split
    next => rfl
    next c hc =>
      rw [matchAt_plain, ih (Nat.le_succ_of_le hlo), if_neg (show ¬regex.plain.passesOver c = true
        from Bool.false_ne_true)]
      split
      next hpass => rw [hskip cstr hlo c hc hpass]
      next => rfl

theorem foreachLoop_plain (blk : ℕ × ℕ → σ → Bool × σ) {n cstr : ℕ} (hlo : lo ≤ cstr)
    (hle : cstr ≤ s.length) (st : σ) :
    foreachLoop regex s fuel blk n cstr st = foreachLoop regex.plain s fuel blk n cstr st := by
  induction n generalizing cstr st with
  | zero => rfl
  | succ n ih =>
    rw [foreachLoop, foreachLoop]
    split
    next => rfl
    next c hc =>
      obtain ⟨hlt, -⟩ := List.getElem?_eq_some_iff.mp hc
      rw [matchAt_plain, ih (Nat.le_succ_of_le hlo) hlt st, if_neg
        (show ¬regex.plain.passesOver c = true from Bool.false_ne_true)]
      split
      next hpass => rw [hskip cstr hlo c hc hpass]
      next =>
        cases hom : matchAt regex s fuel cstr with
        | pos om =>
          obtain ⟨hstart, hend⟩ := matchAt_stays hle hom
          dsimp only
          split
          next =>
            split
            next => exact ih (Nat.le_succ_of_le hlo) hlt _
            next => exact ih (hlo.trans hstart) hend _
          next => rfl
        | null => rfl
        | hang => rfl

theorem replaceLoop_plain (blk : List UInt8 → σ → List UInt8 × σ) {n cstr : ℕ} (hlo : lo ≤ cstr)
    (hle : cstr ≤ s.length) (writer : List UInt8) (st : σ) :
    replaceLoop regex s fuel blk n cstr writer st
      = replaceLoop regex.plain s fuel blk n cstr writer st := by
  induction n generalizing cstr writer st with
  | zero => rfl
  | succ n ih =>
    rw [replaceLoop, replaceLoop]
    split
    next => rfl
    next c hc =>
      obtain ⟨hlt, -⟩ := List.getElem?_eq_some_iff.mp hc
      rw [matchAt_plain, ih (Nat.le_succ_of_le hlo) hlt (writer ++ [c]) st, if_neg
        (show ¬regex.plain.passesOver c = true from Bool.false_ne_true)]
      split
      next hpass => rw [hskip cstr hlo c hc hpass]
      next =>
        cases hom : matchAt regex s fuel cstr with
        | pos om =>
          obtain ⟨hstart, hend⟩ := matchAt_stays hle hom
          dsimp only
          split
          next => exact ih (Nat.le_succ_of_le hlo) hlt _ _
          next => exact ih (hlo.trans hstart) hend _ _
        | null => rfl
        | hang => rfl

end Scan

/-- **The set leaves out no byte that a match starts with**: at a byte that is not in it, from `lo`
on, neither the pattern nor a part of it that must be repeated matches the empty text. -/
structure Filtered (regex : Regex) (s : List UInt8) (lo : ℕ) : Prop where
  nulFree : NulFree regex.root
  consumes : ∀ p, lo ≤ p → ∀ c, s[p]? = some c → regex.passesOver c = true →
    ¬Matches regex s false regex.root p p ∧ Consumes regex s p regex.root

theorem Filtered.matchAt_null {expr : List UInt8} {caseInsensitive dotAll : Bool} {lo : ℕ}
    (hregex : regexCompile expr caseInsensitive dotAll = some regex) (h : Filtered regex s lo)
    (hends : ∀ str ≤ s.length, matchAt regex s fuel str ≠ .hang) {cstr : ℕ} (hlo : lo ≤ cstr)
    (hc : s[cstr]? = some c) (hpass : regex.passesOver c = true) :
    matchAt regex s fuel cstr = .null := by
  obtain ⟨node, -, rfl⟩ := Option.map_eq_some_iff.mp hregex
  obtain ⟨hlt, -⟩ := List.getElem?_eq_some_iff.mp hc
  obtain ⟨hempty, hconsumes⟩ := h.consumes cstr hlo c hc hpass
  cases hk : matchAt (compiled caseInsensitive dotAll node) s fuel cstr with
  | pos k =>
    have hW : cstr ∈ Set.Icc cstr s.length := ⟨le_rfl, hlt.le⟩
    have hmatch := (matchNode_sound_loose _).body cstr hW k hk
    obtain hin | ⟨rfl, -⟩ := mem_reEarlyOut hc _ hconsumes hmatch 0
    · rw [passesOver, Bool.and_eq_true, Bool.not_eq_true'] at hpass
      exact absurd (hpass.2.symm.trans hin) Bool.false_ne_true
    · exact absurd hmatch hempty
  | null => rfl
  | hang => exact absurd hk (hends cstr hlt.le)

end DaScript.Regex
