import DaScript.Machinery.SearchOrder
import DaScript.Daslib.RegexEarlyOut

/-!
# Daslib/RegexSpellings — two spellings of a quantifier

`e*`, `e+` and `e?` have match functions of their own, beside the one of `e{n,m}`.  With nothing
behind them, and lazy, they do the same.  With `c` behind them the greedy ones differ in the order
of trying.

What either finds is told from where `e` leads and from what `c` matches there.
-/

namespace DaScript.Regex

open Searching Text

/-! ## Spellings -/

/-- `*`, `+` and `?`. -/
inductive Quantifier
  | star
  | plus
  | question
  deriving DecidableEq, Repr

namespace Quantifier

/-- `e*`, `e+` and `e?`, with another `?` if they are lazy. -/
def spelled (lazy : Bool) (e : ReNode) : Quantifier → ReNode
  | .star => .star lazy e
  | .plus => .plus lazy e
  | .question => .question lazy e

/-- `e{0,}`, `e{1,}` and `e{0,1}`, with a `?` if they are lazy. -/
def counted (lazy : Bool) (e : ReNode) : Quantifier → ReNode
  | .star => .repeated 0 (-1) lazy e
  | .plus => .repeated 1 (-1) lazy e
  | .question => .repeated 0 1 lazy e

end Quantifier

/-- A node with `c` behind it, or nothing. -/
def followedBy (node : ReNode) : Option ReNode → ReNode
  | none => node
  | some c => .concat node c

/-- **Where the spellings agree**: `body` is where `e` leads, `next` what is behind it gives. -/
def Agreeing (body : ℕ → Found) (fuel offset : ℕ) :
    Quantifier → Bool → Option (ℕ → Found) → Prop
  | .star, false, some next => FirstIsLast (tries body next fuel offset)
  | .plus, false, some next =>
    ∀ p, body offset = .pos p → FirstIsLast (tries body next fuel p)
  | .question, false, some next =>
    ∀ p, body offset = .pos p → next p = .null → next offset = .null
  | .question, true, none => body offset ≠ .hang
  | _, _, _ => True

/-! ## The match functions -/

section

variable {s : List UInt8} {fuel offset : ℕ} (zeroWidth : Bool) {nsub : Search}
  (hmoves : ∀ p ≤ s.length, ∀ j, nsub none p = .pos j → p < j ∧ j ≤ s.length)
  (hoffset : offset ≤ s.length)
include hmoves

theorem moves_on : ∀ p ∈ Set.Iic s.length, ∀ j, nsub none p = .pos j →
    j ≠ p ∧ j ∈ Set.Iic s.length := fun p hp j hj =>
  ⟨(hmoves p hp j hj).1.ne', (hmoves p hp j hj).2⟩

include hoffset

theorem star_agrees_iff (next : Next) :
    reMatch2Star fuel nsub next offset = reMatch2Repeat s fuel zeroWidth 0 (-1) nsub next offset ↔
      Agreeing (nsub none) fuel offset .star false next := by
  cases next with
  | none =>
    have hcounted : reMatch2Repeat s fuel zeroWidth 0 (-1) nsub none offset
        = furthest (nsub none) false fuel offset := rfl
    rw [hcounted, furthest_eq_takeAll (moves_on hmoves) hoffset]
    exact iff_of_true rfl trivial
  | some next =>
    have hcounted : reMatch2Repeat s fuel zeroWidth 0 (-1) nsub (some next) offset
        = firstOf (tries (nsub none) next fuel offset).reverse := by
      have h := @positions_eq _ _ next (moves_on hmoves) fuel offset hoffset []
      rwa [List.map_nil, List.append_nil] at h
    rw [hcounted, reMatch2Star, fewestFirst_eq]
    exact firstOf_eq_reverse_iff _

theorem starLazy_agrees (next : Next) :
    reMatch2StarLazy fuel nsub next offset
      = reMatch2RepeatLazy s fuel zeroWidth 0 (-1) nsub next offset := by
  cases next with
  | none => rfl
  | some next => exact (nearest_eq_fewestFirst (moves_on hmoves) hoffset).symm

theorem question_agrees_iff (next : Next) :
    reMatch2Question nsub next offset = reMatch2Repeat s fuel zeroWidth 0 1 nsub next offset ↔
      Agreeing (nsub none) fuel offset .question false next := by
  cases next with
  | none =>
    have hcounted : reMatch2Repeat s fuel zeroWidth 0 1 nsub none offset
        = furthest (nsub none) true 1 offset := rfl
    rw [hcounted, reMatch2Question, furthest]
    refine iff_of_true ?_ trivial
    cases hosym : nsub none offset with
    | pos osym => exact (if_neg (hmoves offset hoffset osym hosym).1.ne').symm
    | null => rfl
    | hang => rfl
  | some next =>
    have hcounted : reMatch2Repeat s fuel zeroWidth 0 1 nsub (some next) offset
        = (positions (nsub none) true 1 offset [offset]).elim .hang (tryEach next) := by
      change (Found.pos offset).andThen _ = _
      rw [Found.andThen_pos]
      change _ = (positions (nsub none) (decide ((1 : ℤ) ≠ -1)) (remaining fuel 0 1) offset
        [offset]).elim .hang (tryEach next)
      dsimp only
      cases positions (nsub none) (decide ((1 : ℤ) ≠ -1)) (remaining fuel 0 1) offset [offset]
      all_goals rfl
    rw [hcounted, reMatch2Question, positions, Agreeing]
    cases hosym : nsub none offset with
    | null =>
      refine iff_of_true ?_ fun p hp => by cases hp
      change next offset = (next offset).orElse .null
      cases next offset <;> rfl
    | hang => exact iff_of_true rfl fun p hp => by cases hp
    | pos osym =>
      dsimp only
      rw [if_neg (hmoves offset hoffset osym hosym).1.ne']
      change next osym = (next osym).orElse ((next offset).orElse .null) ↔ _
      refine ⟨fun h p hp hnull => ?_, fun h => ?_⟩
      · obtain rfl := Found.pos.inj hp
        rw [hnull, Found.orElse_null] at h
        cases hoff : next offset <;> rw [hoff] at h <;> first | rfl | cases h
      · cases hnext : next osym with
        | pos k => rfl
        | hang => rfl
        | null =>
          rw [h osym rfl hnext]
          rfl

theorem questionLazy_agrees_iff (next : Next) :
    reMatch2QuestionLazy nsub next offset
      = reMatch2RepeatLazy s fuel zeroWidth 0 1 nsub next offset ↔
        Agreeing (nsub none) fuel offset .question true next := by
  cases next with
  | none =>
    have hcounted : reMatch2RepeatLazy s fuel zeroWidth 0 1 nsub none offset = .pos offset := rfl
    rw [hcounted, reMatch2QuestionLazy, Agreeing]
    cases nsub none offset with
    | pos osym => exact iff_of_true rfl fun h => by cases h
    | null => exact iff_of_true rfl fun h => by cases h
    | hang => exact iff_of_false (fun h => by cases h) (not_not_intro rfl)
  | some next =>
    have hcounted : reMatch2RepeatLazy s fuel zeroWidth 0 1 nsub (some next) offset
        = nearest (nsub none) next true 2 offset := rfl
    refine iff_of_true ?_ trivial
    rw [hcounted, reMatch2QuestionLazy, nearest]
    refine congrArg _ ?_
    cases hosym : nsub none offset with
    | pos osym =>
      change next osym = if osym = offset then .null else (next osym).orElse .null
      rw [if_neg (hmoves offset hoffset osym hosym).1.ne']
      cases next osym <;> rfl
    | null => rfl
    | hang => rfl

variable (hzero : zeroWidth = true → nsub none offset = .null)
include hzero

omit hmoves hoffset in
theorem exactly_one : exactly (endsRepeat s zeroWidth) (nsub none) 1 offset
    = if s.length ≤ offset then .null else nsub none offset := by
  have hone : ∀ r : Found, r.andThen .pos = r := fun r => by cases r <;> rfl
  rw [exactly, endsRepeat]
  by_cases hend : s.length ≤ offset
  · rw [if_pos hend, decide_eq_true hend]
    cases hzw : zeroWidth with
    | false => rfl
    | true =>
      rw [hzero hzw]
      rfl
  · rw [if_neg hend, decide_eq_false hend]
    exact hone _

theorem plus_agrees_iff (next : Next) :
    reMatch2Plus s fuel nsub next offset = reMatch2Repeat s fuel zeroWidth 1 (-1) nsub next offset ↔
      Agreeing (nsub none) fuel offset .plus false next := by
  have hend : s.length ≤ offset → ∀ p, nsub none offset ≠ .pos p := fun hend p hp => by
    have := hmoves offset hoffset p hp
    omega
  have hcounted : reMatch2Repeat s fuel zeroWidth 1 (-1) nsub next offset
      = (exactly (endsRepeat s zeroWidth) (nsub none) 1 offset).andThen
        (reMatch2Repeat s fuel zeroWidth 0 (-1) nsub next) := rfl
  have hspelled : reMatch2Plus s fuel nsub next offset
      = if s.length ≤ offset then .null
        else (nsub none offset).andThen (reMatch2Star fuel nsub next) := rfl
  rw [hcounted, exactly_one zeroWidth hzero, hspelled]
  have hvacuous : (∀ p, nsub none offset ≠ .pos p) →
      Agreeing (nsub none) fuel offset .plus false next := by
    intro hno
    cases next with
    | none => trivial
    | some next => exact fun p hp => absurd hp (hno p)
  split_ifs with hle
  · exact iff_of_true rfl (hvacuous (hend hle))
  · cases hosym : nsub none offset with
    | null => exact iff_of_true rfl (hvacuous fun p hp => by rw [hosym] at hp; cases hp)
    | hang => exact iff_of_true rfl (hvacuous fun p hp => by rw [hosym] at hp; cases hp)
    | pos osym =>
      refine (star_agrees_iff zeroWidth hmoves (hmoves offset hoffset osym hosym).2 next).trans ?_
      cases next with
      | none => exact Iff.rfl
      | some next =>
        refine ⟨fun h p hp => ?_, fun h => h osym hosym⟩
        rw [hosym] at hp
        obtain rfl := Found.pos.inj hp
        exact h

theorem plusLazy_agrees (next : Next) :
    reMatch2PlusLazy s fuel nsub next offset
      = reMatch2RepeatLazy s fuel zeroWidth 1 (-1) nsub next offset := by
  have hone := exactly_one (s := s) zeroWidth hzero
  rw [reMatch2PlusLazy, reMatch2RepeatLazy]
  change _ = (exactly (endsRepeat s zeroWidth) (nsub none) 1 offset).andThen _
  rw [hone]
  split_ifs with hend
  · rfl
  · cases hosym : nsub none offset with
    | null => rfl
    | hang => rfl
    | pos osym =>
      cases next with
      | none => rfl
      | some next =>
        exact (nearest_eq_fewestFirst (moves_on hmoves) (hmoves offset hoffset osym hosym).2).symm

end

/-! ## Whole patterns -/

/-- **`e` never matches the empty text** of this subject. -/
def NeverEmpty (caseInsensitive dotAll : Bool) (e : ReNode) (s : List UInt8) (fuel : ℕ) : Prop :=
  ∀ p ≤ s.length, matchAt (compiled caseInsensitive dotAll e) s fuel p ≠ .pos p

theorem root_followedBy (caseInsensitive dotAll : Bool) (node : ReNode) (c : Option ReNode) :
    (compiled caseInsensitive dotAll (followedBy node c)).root
      = followedBy (compiled caseInsensitive dotAll node).root
        (c.map fun c => (compiled caseInsensitive dotAll c).root) := by
  cases caseInsensitive <;> cases c <;> rfl

theorem root_spelled (caseInsensitive dotAll lazy : Bool) (e : ReNode) (q : Quantifier) :
    (compiled caseInsensitive dotAll (q.spelled lazy e)).root
      = q.spelled lazy (compiled caseInsensitive dotAll e).root := by
  cases caseInsensitive <;> cases q <;> rfl

theorem root_counted (caseInsensitive dotAll lazy : Bool) (e : ReNode) (q : Quantifier) :
    (compiled caseInsensitive dotAll (q.counted lazy e)).root
      = q.counted lazy (compiled caseInsensitive dotAll e).root := by
  cases caseInsensitive <;> cases q <;> rfl

theorem matchNode_followedBy (regex : Regex) (s : List UInt8) (fuel : ℕ) (node : ReNode)
    (c : Option ReNode) :
    matchNode regex s fuel (followedBy node c) none
      = matchNode regex s fuel node (c.map fun c => matchNode regex s fuel c none) := by
  cases c <;> rfl

theorem matchNode_zeroWidth (regex : Regex) (s : List UInt8) (fuel : ℕ) {node : ReNode}
    (hnode : node.zeroWidth = true) (p : ℕ) :
    matchNode regex s fuel node none p = .null ∨ matchNode regex s fuel node none p = .pos p := by
  cases node with
  | eos => exact (ite_eq_or_eq _ _ _)
  | bos => exact (ite_eq_or_eq _ _ _)
  | wordBoundary => exact (ite_eq_or_eq _ _ _).symm
  | nonWordBoundary => exact (ite_eq_or_eq _ _ _)
  | _ => cases hnode

theorem matchNode_spellings_iff {regex : Regex} {s : List UInt8} {fuel offset : ℕ} {e : ReNode}
    (hempty : ∀ p ≤ s.length, matchNode regex s fuel e none p ≠ .pos p)
    (hoffset : offset ≤ s.length) (q : Quantifier) (lazy : Bool) (next : Next) :
    matchNode regex s fuel (q.spelled lazy e) next offset
        = matchNode regex s fuel (q.counted lazy e) next offset ↔
      Agreeing (matchNode regex s fuel e none) fuel offset q lazy next := by
  have hmoves : ∀ p ≤ s.length, ∀ j, matchNode regex s fuel e none p = .pos j →
      p < j ∧ j ≤ s.length := by
    intro p hp j hj
    have hsound : Sound (Set.Icc 0 s.length) (Matches regex s false e)
        (matchNode regex s fuel e) := matchNode_sound_loose e
    have hmatch := hsound.body p ⟨Nat.zero_le p, hp⟩ j hj
    obtain ⟨hle, -, hle'⟩ := matches_stays e p ⟨Nat.zero_le p, hp⟩ j hmatch
    refine ⟨lt_of_le_of_ne hle fun h => ?_, hle'⟩
    exact hempty p hp (h ▸ hj)
  have hzero : e.zeroWidth = true → matchNode regex s fuel e none offset = .null := fun hnode =>
    (matchNode_zeroWidth regex s fuel hnode offset).resolve_right (hempty offset hoffset)
  cases q with
  | star =>
    cases lazy with
    | false => exact star_agrees_iff e.zeroWidth hmoves hoffset next
    | true =>
      exact iff_of_true (starLazy_agrees e.zeroWidth hmoves hoffset next)
        (by cases next <;> trivial)
  | plus =>
    cases lazy with
    | false =>
      rw [Quantifier.spelled, matchNode_plus]
      exact plus_agrees_iff e.zeroWidth hmoves hoffset hzero next
    | true =>
      exact iff_of_true (plusLazy_agrees e.zeroWidth hmoves hoffset hzero next)
        (by cases next <;> trivial)
  | question =>
    cases lazy with
    | false => exact question_agrees_iff e.zeroWidth hmoves hoffset next
    | true => exact questionLazy_agrees_iff e.zeroWidth hmoves hoffset next

theorem regexMatch_eq_iff {regex regex' : Regex} {s : List UInt8} {fuel offset : ℕ} :
    regexMatch regex s fuel offset = regexMatch regex' s fuel offset ↔
      s = [] ∨ matchAt regex s fuel offset = matchAt regex' s fuel offset := by
  rw [regexMatch, regexMatch]
  by_cases hs : s = []
  · rw [if_pos hs, if_pos hs]
    exact iff_of_true rfl (.inl hs)
  · rw [if_neg hs, if_neg hs, or_iff_right hs]
    cases matchAt regex s fuel offset <;> cases matchAt regex' s fuel offset <;> simp

end DaScript.Regex
