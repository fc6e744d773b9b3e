import DaScript.Daslib.RegexScan

/-!
# Daslib/RegexComplete — when matching misses nothing

A part with no `next` — what is repeated, what may be left out, the body of a lookahead — is tried
once, and the first end found for it is kept.
-/

namespace DaScript.Regex

open Searching Text

section

variable (regex : Regex) (s : List UInt8) (lo : ℕ)

mutual

/-- **No choice matters**, where the match goes on as `after` says. -/
def Indifferent : ReNode → Option (ℕ → Prop) → Prop
  | .group _ _ subexpr, after => Indifferent subexpr after
  | .concat left right, after =>
    Indifferent left (some fun p => ∃ j, Matches regex s true right p j ∧ Goes after j) ∧
      Indifferent right after
  | .union all, after => IndifferentAll all after
  | .question lazy subexpr, after =>
    ∀ K ∈ after, Indifferent subexpr none ∧
      ∀ p ∈ Set.Icc lo s.length,
        (if lazy = true then ¬K p ∧ ∃ j, Matches regex s true subexpr p j ∧ K j
          else K p ∨ ∃ j, Matches regex s true subexpr p j ∧ K j) →
        ∀ j, Matches regex s true subexpr p j → K j
  | .star _ subexpr, after =>
    after.isSome = true → Indifferent subexpr none ∧
      Forgiving (Set.Icc lo s.length) (Matches regex s true subexpr) (Goes after) false
  | .plus _ subexpr, after =>
    Indifferent subexpr none ∧ (∀ j, ¬Matches regex s true subexpr s.length j) ∧
      ForgivingFirst (Set.Icc lo s.length) (Matches regex s true subexpr)
        (Reaches (Matches regex s true subexpr) (Goes after) false 0) 1
  | .repeated minRep maxRep lazy subexpr, after =>
    (0 < minRep ∨ after.isSome = true → Indifferent subexpr none) ∧
      (0 < minRep → subexpr.zeroWidth = false →
        ∀ j, ¬Matches regex s true subexpr s.length j) ∧
      ForgivingFirst (Set.Icc lo s.length) (Matches regex s true subexpr)
        (Reaches (Matches regex s true subexpr) (Goes after) (maxRep ≠ -1)
          (int32 (maxRep - minRep)).toNat) minRep.toNat ∧
      (after.isSome = true →
        Forgiving (Set.Icc lo s.length) (Matches regex s true subexpr) (Goes after)
          (maxRep ≠ -1) ∧
        Still (Set.Icc lo s.length) (Matches regex s true subexpr) ∧
        (lazy = true → maxRep ≠ -1 → minRep ≤ maxRep ∧ maxRep - minRep < 2 ^ 31 - 1))
  | .lookahead subexpr, _ => Indifferent subexpr none
  | .negativeLookahead _, _ | .char _ _, _ | .set _, _ | .any, _ | .eos, _ | .bos, _
  | .wordBoundary, _ | .nonWordBoundary, _ => True

def IndifferentAll : List ReNode → Option (ℕ → Prop) → Prop
  | [], _ => True
  | node :: nodes, after => Indifferent node after ∧ IndifferentAll nodes after

end

/-- The body of a negative lookahead, for it to be right. -/
def Refutable (subexpr : ReNode) : Prop :=
  Moves regex s lo subexpr false ∧ Indifferent regex s lo subexpr none

end

variable {regex : Regex} {s : List UInt8} {lo fuel : ℕ} {nsub left right : Search}
  {L R : ℕ → ℕ → Prop} {after : Option (ℕ → Prop)}

/-! ## The match functions -/

theorem complete_of_test {W : Set ℕ} {f : Search} (hstays : Stays W R)
    (h : ∀ next : Next, ∀ i ∈ W, ∀ j, R i j → f next i = proceed next j) :
    Complete W after R f := by
  rintro next hagrees i hi ⟨j, hR, hj⟩
  rw [h next i hi j hR]
  exact hagrees.ne_null (hstays i hi j hR).2 hj

section Choice

variable (hstays : Stays (Set.Icc lo s.length) R) (hsub : Sound (Set.Icc lo s.length) R nsub)
  (hfinds : after.isSome = true → Complete (Set.Icc lo s.length) none R nsub)
include hstays hsub hfinds

theorem reMatch2Question_finds
    (hfree : ∀ K ∈ after, ∀ p ∈ Set.Icc lo s.length, (K p ∨ ∃ j, R p j ∧ K j) →
      ∀ j, R p j → K j) :
    Complete (Set.Icc lo s.length) after (fun i j => j = i ∨ R i j) (reMatch2Question nsub) := by
  rintro next hagrees i hi ⟨j, hR, hj⟩
  have hgoes : ∀ tail, R i tail → Goes after tail := by
    intro tail htail K hK
    refine hfree K hK i hi ?_ tail htail
    obtain rfl | hR := hR
    · exact Or.inl (hj K hK)
    · exact Or.inr ⟨j, hR, hj K hK⟩
  rw [reMatch2Question]
  cases htail : nsub none i with
  | pos tail =>
    have hR' := hsub.body i hi tail htail
    exact hagrees.ne_null (hstays i hi tail hR').2 (hgoes tail hR')
  | null =>
    refine hagrees.ne_null hi ?_
    obtain rfl | hR := hR
    · exact hj
    · intro K hK
      exact absurd htail ((hfinds (Option.isSome_of_mem hK)).body i hi ⟨j, hR⟩)
  | hang => exact fun h => by cases h

theorem reMatch2QuestionLazy_finds
    (hfree : ∀ K ∈ after, ∀ p ∈ Set.Icc lo s.length, (¬K p ∧ ∃ j, R p j ∧ K j) →
      ∀ j, R p j → K j) :
    Complete (Set.Icc lo s.length) after (fun i j => j = i ∨ R i j)
      (reMatch2QuestionLazy nsub) := by
  rintro next hagrees i hi ⟨j, hR, hj⟩
  cases next with
  | some node2 =>
    refine Found.orElse_ne_null.mpr ?_
    by_cases hhere : Goes after i
    · exact Or.inl (hagrees.ne_null hi hhere)
    · have hR : R i j := hR.resolve_left fun heq => hhere (heq ▸ hj)
      refine Or.inr ?_
      cases htail : nsub none i with
      | pos tail =>
        have hR' := hsub.body i hi tail htail
        refine hagrees.ne_null (hstays i hi tail hR').2 fun K hK => ?_
        refine hfree K hK i hi ⟨fun hKi => hhere ?_, j, hR, hj K hK⟩ tail hR'
        intro K' hK'
        obtain rfl := Option.some.inj (hK.symm.trans hK')
        exact hKi
      | null => exact absurd htail ((hfinds hagrees.1.symm).body i hi ⟨j, hR⟩)
      | hang => exact fun h => by cases h
  | none =>
    rw [reMatch2QuestionLazy]
    split <;> exact fun h => by cases h

theorem star_finds
    (hany : after.isSome = true → Forgiving (Set.Icc lo s.length) R (Goes after) false)
    (loop : Search) (hloop : ∀ node2, loop (some node2) = fewestFirst (nsub none) node2 fuel)
    (hnone : ∀ ofs, loop none ofs ≠ .null) :
    Complete (Set.Icc lo s.length) after (fun i j => ∃ n, Times R n i j) loop := by
  rintro next hagrees i hi ⟨j, ⟨n, hn⟩, hj⟩
  cases next with
  | some node2 =>
    have hsome := hagrees.1.symm
    rw [hloop]
    exact fewestFirst_finds hstays hsub.body (hfinds hsome).body (hany hsome)
      (fun p hp hK => hagrees.ne_null hp hK) hi ⟨n, fun h => (by cases h), j, hn, hj⟩ (n := 0)
  | none => exact hnone i

theorem reMatch2Star_finds
    (hany : after.isSome = true → Forgiving (Set.Icc lo s.length) R (Goes after) false) :
    Complete (Set.Icc lo s.length) after (fun i j => ∃ n, Times R n i j)
      (reMatch2Star fuel nsub) :=
  star_finds hstays hsub hfinds hany _ (fun _ => rfl) (takeAll_ne_null _ _)

theorem reMatch2StarLazy_finds
    (hany : after.isSome = true → Forgiving (Set.Icc lo s.length) R (Goes after) false) :
    Complete (Set.Icc lo s.length) after (fun i j => ∃ n, Times R n i j)
      (reMatch2StarLazy fuel nsub) :=
  star_finds hstays hsub hfinds hany _ (fun _ => rfl) fun ofs h => by cases h

end Choice

section Plus

variable (hstays : Stays (Set.Icc lo s.length) R) (hsub : Sound (Set.Icc lo s.length) R nsub)
  (hfinds : Complete (Set.Icc lo s.length) none R nsub) (hend : ∀ j, ¬R s.length j)
  (hany : ForgivingFirst (Set.Icc lo s.length) R (Reaches R (Goes after) false 0) 1)
include hstays hsub hfinds hend hany

theorem plus_finds (loop : Next → ℕ → Found)
    (hloop : ∀ node2, loop (some node2) = fewestFirst (nsub none) node2 fuel)
    (hnone : ∀ osym, loop none osym ≠ .null) :
    Complete (Set.Icc lo s.length) after (fun i j => ∃ n, 1 ≤ n ∧ Times R n i j)
      (fun next str => if s.length ≤ str then .null else (nsub none str).andThen (loop next)) := by
  rintro next hagrees i hi ⟨j, ⟨n, hpos, hn⟩, hj⟩
  obtain ⟨m, rfl⟩ : ∃ m, n = m + 1 := ⟨n - 1, by omega⟩
  obtain ⟨q, hR, hn⟩ := hn
  have hlt : ¬s.length ≤ i := fun hle => hend q (le_antisymm hi.2 hle ▸ hR)
  -- once one step is taken, any further step will do
  have hfirst : ∀ p ∈ Set.Icc lo s.length, (∃ q, R p q ∧ Reaches R (Goes after) false 0 q) →
      ∀ j, R p j → Reaches R (Goes after) false 0 j := by
    rintro p hp ⟨q, hR, hq⟩ j hj
    obtain ⟨j', hj', hreach⟩ := hany 0 Nat.zero_lt_one p hp ⟨q, hR, q, rfl, hq⟩ j hj
    obtain rfl : j' = j := hj'
    exact hreach
  dsimp only
  rw [if_neg hlt]
  cases hosym : nsub none i with
  | pos osym =>
    have hR' := hsub.body i hi osym hosym
    rw [Found.andThen_pos]
    cases next with
    | some node2 =>
      rw [hloop]
      exact fewestFirst_finds hstays hsub.body hfinds.body
        (fun _ p hp _ ⟨q, hR, hq⟩ j hj =>
          (hfirst p hp ⟨q, hR, hq.unbounded⟩ j hj).unbounded) (fun p hp hK => hagrees.ne_null hp hK)
        (hstays i hi osym hR').2 (hfirst i hi ⟨q, hR, m, fun h => (by cases h), j, hn, hj⟩ osym hR')
    | none => exact hnone osym
  | null => exact absurd hosym (hfinds.body i hi ⟨q, hR⟩)
  | hang => exact fun h => by cases h

theorem reMatch2Plus_finds :
    Complete (Set.Icc lo s.length) after (fun i j => ∃ n, 1 ≤ n ∧ Times R n i j)
      (reMatch2Plus s fuel nsub) :=
  plus_finds hstays hsub hfinds hend hany (reMatch2Star fuel nsub) (fun _ => rfl)
    (takeAll_ne_null _ _)

theorem reMatch2PlusLazy_finds :
    Complete (Set.Icc lo s.length) after (fun i j => ∃ n, 1 ≤ n ∧ Times R n i j)
      (reMatch2PlusLazy s fuel nsub) :=
  plus_finds hstays hsub hfinds hend hany (reMatch2StarLazy fuel nsub) (fun _ => rfl)
    fun ofs h => by cases h

end Plus

section Repeat

variable (hstays : Stays (Set.Icc lo s.length) R) (hsub : Sound (Set.Icc lo s.length) R nsub)
  {zeroWidth : Bool} {minRep maxRep : ℤ}
  (hfinds : 0 < minRep ∨ after.isSome = true → Complete (Set.Icc lo s.length) none R nsub)
  (hend : 0 < minRep → zeroWidth = false → ∀ j, ¬R s.length j)
  (hfirst : ForgivingFirst (Set.Icc lo s.length) R
    (Reaches R (Goes after) (maxRep ≠ -1) (int32 (maxRep - minRep)).toNat) minRep.toNat)
include hstays hsub hfinds hend hfirst

theorem exactly_of_counted {i j n : ℕ} (hi : i ∈ Set.Icc lo s.length)
    (hcount : Counted minRep maxRep n) (hn : Times R n i j) (hj : Goes after j) :
    exactly (endsRepeat s zeroWidth) (nsub none) minRep.toNat i = .hang ∨
      ∃ q ∈ Set.Icc lo s.length,
        exactly (endsRepeat s zeroWidth) (nsub none) minRep.toNat i = .pos q ∧
        Reaches R (Goes after) (maxRep ≠ -1) (int32 (maxRep - minRep)).toNat q := by
  obtain ⟨m, rfl⟩ : ∃ m, n = minRep.toNat + m := ⟨n - minRep.toNat, by have := hcount.1; omega⟩
  obtain ⟨q, hmin, hm⟩ := hn.split
  have hbound : decide (maxRep ≠ -1) = true → m ≤ (int32 (maxRep - minRep)).toNat := by
    intro hmax
    have hle := hcount.2 (of_decide_eq_true hmax)
    omega
  have hreach : Reaches R (Goes after) (maxRep ≠ -1) (int32 (maxRep - minRep)).toNat q :=
    ⟨m, hbound, j, hm, hj⟩
  by_cases hpos : 0 < minRep
  · have hfree : ∀ p ∈ Set.Icc lo s.length, ∀ j, R p j → endsRepeat s zeroWidth p = false := by
      intro p hp j hR
      rw [endsRepeat, Bool.and_eq_false_iff, decide_eq_false_iff_not, Bool.not_eq_false']
      cases zeroWidth with
      | true => exact Or.inr rfl
      | false => exact Or.inl fun hle => hend hpos rfl j (le_antisymm hp.2 hle ▸ hR)
    exact exactly_finds hstays hsub.body (hfinds (Or.inl hpos)).body hfree hfirst hi
      ⟨q, hmin, hreach⟩
  · rw [Int.toNat_of_nonpos (not_lt.mp hpos)] at hmin ⊢
    obtain rfl : q = i := hmin
    exact Or.inr ⟨q, hi, rfl, hreach⟩

theorem exactly_andThen_ne_null {rest : ℕ → Found} {i j n : ℕ} (hi : i ∈ Set.Icc lo s.length)
    (hcount : Counted minRep maxRep n) (hn : Times R n i j) (hj : Goes after j)
    (hrest : ∀ q ∈ Set.Icc lo s.length,
      Reaches R (Goes after) (maxRep ≠ -1) (int32 (maxRep - minRep)).toNat q → rest q ≠ .null) :
    (exactly (endsRepeat s zeroWidth) (nsub none) minRep.toNat i).andThen rest ≠ .null := by
  obtain hhang | ⟨q, hq, hpos, hreach⟩ :=
    exactly_of_counted hstays hsub hfinds hend hfirst hi hcount hn hj
  · rw [hhang]
    exact fun h => by cases h
  · rw [hpos, Found.andThen_pos]
    exact hrest q hq hreach

theorem reMatch2Repeat_finds
    (hmore : after.isSome = true →
      Forgiving (Set.Icc lo s.length) R (Goes after) (maxRep ≠ -1) ∧
        Still (Set.Icc lo s.length) R) :
    Complete (Set.Icc lo s.length) after
      (fun i j => ∃ n, Counted minRep maxRep n ∧ Times R n i j)
      (reMatch2Repeat s fuel zeroWidth minRep maxRep nsub) := by
  rintro next hagrees i hi ⟨j, ⟨n, hcount, hn⟩, hj⟩
  rw [reMatch2Repeat]
  refine exactly_andThen_ne_null hstays hsub hfinds hend hfirst hi hcount hn hj
    fun q hq hreach => ?_
  cases next with
  | some node2 =>
    have hsome := hagrees.1.symm
    obtain ⟨hany, hstill⟩ := hmore hsome
    dsimp only
    split
    next reached hreached =>
      have hreach' : Reaches R (Goes after) (maxRep ≠ -1) (remaining fuel minRep maxRep) q := by
        obtain ⟨m, hm, hrest⟩ := hreach
        refine ⟨m, fun hmax => ?_, hrest⟩
        rw [remaining, if_neg (of_decide_eq_true hmax)]
        exact hm hmax
      obtain ⟨p, hp, hK⟩ := positions_finds hstays hsub.body (hfinds (Or.inr hsome)).body hany
        hstill hq hreached List.mem_cons_self hreach'
      have hW : p ∈ Set.Icc lo s.length := by
        obtain hmem | ⟨m, -, hm⟩ := positions_sound hstays hsub.body hq hreached hp
        · exact List.mem_singleton.mp hmem ▸ hq
        · exact (hstays.times m q hq p hm).2
      exact tryEach_ne_null hp (hagrees.ne_null hW hK)
    next => exact fun h => by cases h
  | none => exact furthest_ne_null _ _ _ _

theorem reMatch2RepeatLazy_finds
    (hmore : after.isSome = true →
      Forgiving (Set.Icc lo s.length) R (Goes after) (maxRep ≠ -1) ∧
        Still (Set.Icc lo s.length) R ∧
        (maxRep ≠ -1 → minRep ≤ maxRep ∧ maxRep - minRep < 2 ^ 31 - 1)) :
    Complete (Set.Icc lo s.length) after
      (fun i j => ∃ n, Counted minRep maxRep n ∧ Times R n i j)
      (reMatch2RepeatLazy s fuel zeroWidth minRep maxRep nsub) := by
  rintro next hagrees i hi ⟨j, ⟨n, hcount, hn⟩, hj⟩
  rw [reMatch2RepeatLazy]
  refine exactly_andThen_ne_null hstays hsub hfinds hend hfirst hi hcount hn hj
    fun q hq hreach => ?_
  cases next with
  | some node2 =>
    have hsome := hagrees.1.symm
    obtain ⟨hany, hstill, hbounds⟩ := hmore hsome
    have hrounds : decide (maxRep ≠ -1) = true →
        (int32 (maxRep - minRep)).toNat < remainingLazy fuel minRep maxRep := by
      intro hmax
      have hmax' := of_decide_eq_true hmax
      obtain ⟨hmin, hlt⟩ := hbounds hmax'
      have hd : int32 (maxRep - minRep) = maxRep - minRep := by
        rw [int32, Int.bmod_eq_of_le (by norm_num; omega) (by norm_num; omega)]
      have hd' : int32 (maxRep - minRep + 1) = maxRep - minRep + 1 := by
        rw [int32, Int.bmod_eq_of_le (by norm_num; omega) (by norm_num; omega)]
      rw [remainingLazy, if_neg hmax', hd, hd']
      omega
    exact nearest_finds hstays hsub.body (hfinds (Or.inr hsome)).body hany hstill
      (fun p hp hK => hagrees.ne_null hp hK) hq hrounds hreach
  | none => exact fun h => by cases h

end Repeat

theorem reMatch2Concat_finds {followed : Bool} (hfollowed : followed = after.isSome)
    (hleft : Complete (Set.Icc lo s.length) (some fun p => ∃ j, R p j ∧ Goes after j) L left)
    (hsound : Sound (Set.Icc lo s.length) R right) (hstays : Stays (Set.Icc lo s.length) R)
    (hends : Ends (Set.Icc lo s.length) followed right)
    (hright : Complete (Set.Icc lo s.length) after R right) :
    Complete (Set.Icc lo s.length) after (fun i j => ∃ k, L i k ∧ R k j)
      (reMatch2Concat left right) := by
  rintro next hagrees i hi ⟨j, ⟨q, hL, hR⟩, hj⟩
  refine hleft (some (right next)) ⟨rfl, fun p hp => ⟨?_, ?_⟩⟩ i hi ⟨q, hL, ?_⟩
  · refine hends next (hagrees.1.trans hfollowed.symm) ?_ p hp
    rintro g rfl p hp
    exact (hagrees.2 p hp).1
  · rw [proceed_some, goes_some]
    constructor
    · intro hne
      cases hk : right next p with
      | pos k =>
        obtain ⟨j', hR', hj'⟩ := hsound next p hp k hk
        refine ⟨j', hR', (hagrees.2 j' (hstays p hp j' hR').2).2.mp ?_⟩
        rw [hj']
        exact fun h => by cases h
      | null => exact absurd hk hne
      | hang =>
        refine absurd hk (hends next (hagrees.1.trans hfollowed.symm) ?_ p hp)
        rintro g rfl p hp
        exact (hagrees.2 p hp).1
    · exact hright next hagrees p hp
  · rw [goes_some]
    exact ⟨j, hR, hj⟩

theorem reMatch2Lookahead_finds (hfinds : Complete (Set.Icc lo s.length) none R nsub) :
    Complete (Set.Icc lo s.length) after (fun i j => (∃ k, R i k) ∧ j = i)
      (reMatch2Lookahead nsub) := by
  rintro next hagrees i hi ⟨j, ⟨hR, rfl⟩, hj⟩
  rw [reMatch2Lookahead]
  cases hosub : nsub none j with
  | pos osub => exact hagrees.ne_null hi hj
  | null => exact absurd hosub (hfinds.body j hi hR)
  | hang => exact fun h => by cases h

theorem reMatch2NegativeLookahead_finds (hsub : Sound (Set.Icc lo s.length) R nsub) :
    Complete (Set.Icc lo s.length) after (fun i j => (true = true → ¬∃ k, R i k) ∧ j = i)
      (reMatch2NegativeLookahead nsub) := by
  rintro next hagrees i hi ⟨j, ⟨hno, rfl⟩, hj⟩
  rw [reMatch2NegativeLookahead]
  cases hosub : nsub none j with
  | pos osub => exact absurd ⟨osub, hsub.body j hi osub hosub⟩ (hno rfl)
  | null => exact hagrees.ne_null hi hj
  | hang => exact fun h => by cases h

/-! ## The bytes of the subject -/

theorem reMatch2Char_finds (first : UInt8) (others : List UInt8) :
    Complete (Set.Icc lo s.length) after (Matches regex s true (.char first others))
      (reMatch2Char regex s (first :: others)) := by
  refine complete_of_test (matches_stays _) ?_
  rintro next i hi j ⟨heq, rfl⟩
  have hend := (text_stays hi heq rfl).2.2
  rw [List.length_cons] at hend
  rw [reMatch2Char, if_neg (by omega), if_pos heq]

theorem reMatch2Set_finds (cset : CharSet) :
    Complete (Set.Icc lo s.length) after (Matches regex s true (.set cset))
      (reMatch2Set s cset) := by
  refine complete_of_test (matches_stays _) ?_
  intro next i _ j h
  rw [reMatch2Set, setStep_eq_pos.mpr h, Found.andThen_pos]

theorem reMatch2Any_finds :
    Complete (Set.Icc lo s.length) after (Matches regex s true .any) (reMatch2Any regex s) := by
  refine complete_of_test (matches_stays _) ?_
  rintro next i _ j ⟨⟨c, hc, hdot⟩, rfl⟩
  have hc' : s[i]? = some c := hc
  rw [reMatch2Any, hc']
  dsimp only
  rw [if_neg]
  rw [Bool.and_eq_true, decide_eq_true_eq, Bool.not_eq_true']
  rintro ⟨hoff, rfl⟩
  obtain hon | hne := hdot
  · exact absurd (hoff.symm.trans hon) Bool.false_ne_true
  · exact hne rfl

theorem reMatch2Eos_finds :
    Complete (Set.Icc lo s.length) after (Matches regex s true .eos) (reMatch2Eos s) := by
  refine complete_of_test (matches_stays _) ?_
  rintro next i _ j ⟨hle, rfl⟩
  rw [reMatch2Eos, if_neg (Nat.not_lt.mpr hle)]

theorem reMatch2Bos_finds :
    Complete (Set.Icc lo s.length) after (Matches regex s true .bos) reMatch2Bos := by
  refine complete_of_test (matches_stays _) ?_
  rintro next i _ j ⟨rfl, rfl⟩
  rfl

theorem reMatch2WordBoundary_finds :
    Complete (Set.Icc lo s.length) after (Matches regex s true .wordBoundary)
      (reMatch2WordBoundary s) := by
  refine complete_of_test (matches_stays _) ?_
  rintro next i _ j ⟨hat, rfl⟩
  rw [reMatch2WordBoundary, if_pos hat]

theorem reMatch2NonWordBoundary_finds :
    Complete (Set.Icc lo s.length) after (Matches regex s true .nonWordBoundary)
      (reMatch2NonWordBoundary s) := by
  refine complete_of_test (matches_stays _) ?_
  rintro next i _ j ⟨hat, rfl⟩
  rw [reMatch2NonWordBoundary, if_neg (by rw [hat]; exact Bool.false_ne_true)]

/-! ## Matching misses nothing -/

mutual

theorem matchNode_finds (hfuel : s.length < fuel) (node : ReNode) (after : Option (ℕ → Prop))
    (hdecided : EachNegative (Decided regex s lo fuel) node)
    (hmoves : Moves regex s lo node after.isSome) (h : Indifferent regex s lo node after) :
    Complete (Set.Icc lo s.length) after (Matches regex s true node)
      (matchNode regex s fuel node) := by
  match node with
  | .char first others => exact reMatch2Char_finds first others
  | .set cset => exact reMatch2Set_finds cset
  | .any => exact reMatch2Any_finds
  | .eos => exact reMatch2Eos_finds
  | .bos => exact reMatch2Bos_finds
  | .wordBoundary => exact reMatch2WordBoundary_finds
  | .nonWordBoundary => exact reMatch2NonWordBoundary_finds
  | .group _ _ subexpr => exact matchNode_finds hfuel subexpr after hdecided hmoves h
  | .plus true subexpr =>
    exact reMatch2PlusLazy_finds (matches_stays subexpr)
      (matchNode_sound subexpr fun _ => hdecided)
      (matchNode_finds hfuel subexpr none hdecided hmoves.1 h.1) h.2.1 h.2.2
  | .plus false subexpr =>
    rw [matchNode_plus]
    exact reMatch2Plus_finds (matches_stays subexpr)
      (matchNode_sound subexpr fun _ => hdecided)
      (matchNode_finds hfuel subexpr none hdecided hmoves.1 h.1) h.2.1 h.2.2
  | .star true subexpr =>
    exact reMatch2StarLazy_finds (matches_stays subexpr)
      (matchNode_sound subexpr fun _ => hdecided)
      (fun hsome => matchNode_finds hfuel subexpr none hdecided (hmoves (Or.inr hsome)).1
        (h hsome).1) fun hsome => (h hsome).2
  | .star false subexpr =>
    exact reMatch2Star_finds (matches_stays subexpr)
      (matchNode_sound subexpr fun _ => hdecided)
      (fun hsome => matchNode_finds hfuel subexpr none hdecided (hmoves (Or.inr hsome)).1
        (h hsome).1) fun hsome => (h hsome).2
  | .question true subexpr =>
    refine reMatch2QuestionLazy_finds (matches_stays subexpr)
      (matchNode_sound subexpr fun _ => hdecided) (fun hsome => ?_) fun K hK p hp => (h K hK).2 p hp
    obtain ⟨K, hK⟩ := Option.isSome_iff_exists.mp hsome
    exact matchNode_finds hfuel subexpr none hdecided hmoves (h K hK).1
  | .question false subexpr =>
    refine reMatch2Question_finds (matches_stays subexpr)
      (matchNode_sound subexpr fun _ => hdecided) (fun hsome => ?_) fun K hK p hp => (h K hK).2 p hp
    obtain ⟨K, hK⟩ := Option.isSome_iff_exists.mp hsome
    exact matchNode_finds hfuel subexpr none hdecided hmoves (h K hK).1
  | .concat left right =>
    exact reMatch2Concat_finds rfl
      (matchNode_finds hfuel left _ hdecided.1 hmoves.1 h.1)
      (matchNode_sound right fun _ => hdecided.2) (matches_stays right)
      (matchNode_ends hfuel right _ hmoves.2)
      (matchNode_finds hfuel right after hdecided.2 hmoves.2 h.2)
  | .union all => exact matchNodes_finds hfuel all after hdecided hmoves h
  | .repeated minRep maxRep true subexpr =>
    exact reMatch2RepeatLazy_finds (matches_stays subexpr)
      (matchNode_sound subexpr fun _ => hdecided)
      (fun hany => matchNode_finds hfuel subexpr none hdecided hmoves (h.1 hany)) h.2.1 h.2.2.1
      fun hsome => ⟨(h.2.2.2 hsome).1, (h.2.2.2 hsome).2.1, (h.2.2.2 hsome).2.2 rfl⟩
  | .repeated minRep maxRep false subexpr =>
    exact reMatch2Repeat_finds (matches_stays subexpr)
      (matchNode_sound subexpr fun _ => hdecided)
      (fun hany => matchNode_finds hfuel subexpr none hdecided hmoves (h.1 hany)) h.2.1 h.2.2.1
      fun hsome => ⟨(h.2.2.2 hsome).1, (h.2.2.2 hsome).2.1⟩
  | .lookahead subexpr =>
    exact reMatch2Lookahead_finds (matchNode_finds hfuel subexpr none hdecided hmoves h)
  | .negativeLookahead subexpr =>
    exact reMatch2NegativeLookahead_finds (matchNode_sound subexpr fun _ => hdecided.1)

theorem matchNodes_finds (hfuel : s.length < fuel) (nodes : List ReNode)
    (after : Option (ℕ → Prop)) (hdecided : EachNegatives (Decided regex s lo fuel) nodes)
    (hmoves : MovesAll regex s lo nodes after.isSome)
    (h : IndifferentAll regex s lo nodes after) :
    Complete (Set.Icc lo s.length) after (MatchesOne regex s true nodes)
      (reMatch2Union (matchNodes regex s fuel nodes)) := by
  rintro next hagrees i hi ⟨j, hmatch, hj⟩
  match nodes with
  | [] => exact hmatch.elim
  | node :: nodes =>
    refine Found.orElse_ne_null.mpr ?_
    obtain hmatch | hmatch := hmatch
    · exact Or.inl (matchNode_finds hfuel node after hdecided.1 hmoves.1 h.1 next hagrees i hi
        ⟨j, hmatch, hj⟩)
    · exact Or.inr (matchNodes_finds hfuel nodes after hdecided.2 hmoves.2 h.2 next hagrees i hi
        ⟨j, hmatch, hj⟩)

end

theorem decided_of_refutable (hfuel : s.length < fuel) {node : ReNode}
    (h : EachNegative (Refutable regex s lo) node) :
    EachNegative (Decided regex s lo fuel) node := by
  refine EachNegative.imp (fun subexpr hsub hdecided i hi hnull hmatch => ?_) node h
  exact (matchNode_finds hfuel subexpr none hdecided hsub.1 hsub.2).body i hi hmatch hnull

/-- **Nothing is missed from `lo` on**: the loops move, no choice matters, and negative lookaheads
are right. -/
structure NeverLost (regex : Regex) (s : List UInt8) (lo : ℕ) : Prop where
  settled : Settled regex s lo
  negatives : EachNegative (Refutable regex s lo) regex.root
  indifferent : Indifferent regex s lo regex.root none

end DaScript.Regex
