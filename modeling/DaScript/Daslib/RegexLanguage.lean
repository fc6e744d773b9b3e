import DaScript.Daslib.Regex

/-!
# Daslib/RegexLanguage — what a tree matches

`Matches` says, without an order of trying, that a node matches the bytes between two positions of
the subject.  With `strict` off every negative lookahead holds, so that what the match functions
find matches at any rate (`matchNode_sound`); with `strict` on that hangs on the bodies of negative
lookaheads being matched completely (`Decides`).
-/

namespace DaScript.Regex

open Searching Text

section

variable (regex : Regex) (s : List UInt8) (strict : Bool)

/-- So many repetitions are between the bounds: there is no upper bound -1, and one below the lower
bound adds nothing. -/
def Counted (minRep maxRep : ℤ) (n : ℕ) : Prop :=
  minRep.toNat ≤ n ∧ (maxRep ≠ -1 → n ≤ minRep.toNat + (int32 (maxRep - minRep)).toNat)

mutual

/-- **What a node matches**: the bytes of the subject between the positions. -/
def Matches : ReNode → ℕ → ℕ → Prop
  | .char first others, i, j =>
    ((s.drop i).take (first :: others).length).map regex.fold
      = (first :: others).map regex.fold ∧ j = i + (first :: others).length
  | .set cset, i, j => (∃ c ∈ s[i]?, isCharInSet c cset = true) ∧ j = i + 1
  | .any, i, j => (∃ c ∈ s[i]?, regex.dotAll = true ∨ c ≠ ch '\n') ∧ j = i + 1
  | .eos, i, j => s.length ≤ i ∧ j = i
  | .bos, i, j => i = 0 ∧ j = i
  | .group _ _ subexpr, i, j => Matches subexpr i j
  | .plus _ subexpr, i, j => ∃ n, 1 ≤ n ∧ Times (Matches subexpr) n i j
  | .star _ subexpr, i, j => ∃ n, Times (Matches subexpr) n i j
  | .question _ subexpr, i, j => j = i ∨ Matches subexpr i j
  | .concat left right, i, j => ∃ k, Matches left i k ∧ Matches right k j
  | .union all, i, j => MatchesOne all i j
  | .repeated minRep maxRep _ subexpr, i, j =>
    ∃ n, Counted minRep maxRep n ∧ Times (Matches subexpr) n i j
  | .wordBoundary, i, j => atWordBoundary s i = true ∧ j = i
  | .nonWordBoundary, i, j => atWordBoundary s i = false ∧ j = i
  | .lookahead subexpr, i, j => (∃ k, Matches subexpr i k) ∧ j = i
  | .negativeLookahead subexpr, i, j => (strict = true → ¬∃ k, Matches subexpr i k) ∧ j = i

def MatchesOne : List ReNode → ℕ → ℕ → Prop
  | [], _, _ => False
  | node :: nodes, i, j => Matches node i j ∨ MatchesOne nodes i j

end

end

variable {regex : Regex} {s : List UInt8} {strict : Bool} {lo : ℕ}

mutual

/-- **No text has a NUL in it**: text and pattern are C strings. -/
def NulFree : ReNode → Prop
  | .char first others => 0 ∉ first :: others
  | .group _ _ subexpr | .plus _ subexpr | .star _ subexpr | .question _ subexpr
  | .repeated _ _ _ subexpr | .lookahead subexpr | .negativeLookahead subexpr => NulFree subexpr
  | .concat left right => NulFree left ∧ NulFree right
  | .union all => NulsFree all
  | .set _ | .any | .eos | .bos | .wordBoundary | .nonWordBoundary => True

def NulsFree : List ReNode → Prop
  | [] => True
  | node :: nodes => NulFree node ∧ NulsFree nodes

end

/-! ## Matches lead forward -/

theorem text_stays {text : List UInt8} {i j : ℕ} (hi : i ∈ Set.Icc lo s.length)
    (h : ((s.drop i).take text.length).map regex.fold = text.map regex.fold)
    (hj : j = i + text.length) : i ≤ j ∧ j ∈ Set.Icc lo s.length := by
  have hlength := congrArg List.length h
  rw [List.length_map, List.length_map, List.length_take, List.length_drop] at hlength
  have hlo := hi.1
  have hle := hi.2
  exact ⟨by omega, by omega, by omega⟩

theorem byte_stays {i j : ℕ} {P : UInt8 → Prop} (hi : i ∈ Set.Icc lo s.length)
    (h : (∃ c ∈ s[i]?, P c) ∧ j = i + 1) : i ≤ j ∧ j ∈ Set.Icc lo s.length := by
  obtain ⟨⟨c, hc, -⟩, rfl⟩ := h
  obtain ⟨hlt, -⟩ := List.getElem?_eq_some_iff.mp hc
  have hlo := hi.1
  exact ⟨by omega, by omega, by omega⟩

theorem here_stays {i j : ℕ} {P : Prop} (hi : i ∈ Set.Icc lo s.length) (h : P ∧ j = i) :
    i ≤ j ∧ j ∈ Set.Icc lo s.length := by
  obtain ⟨-, rfl⟩ := h
  exact ⟨le_rfl, hi⟩

mutual

theorem matches_stays (node : ReNode) :
    Stays (Set.Icc lo s.length) (Matches regex s strict node) := by
  intro i hi j h
  match node with
  | .char first others => exact text_stays hi h.1 h.2
  | .set cset => exact byte_stays hi h
  | .any => exact byte_stays hi h
  | .eos => exact here_stays hi h
  | .bos => exact here_stays hi h
  | .group _ _ subexpr => exact matches_stays subexpr i hi j h
  | .plus _ subexpr =>
    obtain ⟨n, -, hn⟩ := h
    exact (matches_stays subexpr).times n i hi j hn
  | .star _ subexpr =>
    obtain ⟨n, hn⟩ := h
    exact (matches_stays subexpr).times n i hi j hn
  | .question _ subexpr =>
    obtain rfl | h := h
    · exact ⟨le_rfl, hi⟩
    · exact matches_stays subexpr i hi j h
  | .concat left right =>
    obtain ⟨k, hl, hr⟩ := h
    obtain ⟨hik, hk⟩ := matches_stays left i hi k hl
    obtain ⟨hkj, hj⟩ := matches_stays right k hk j hr
    exact ⟨hik.trans hkj, hj⟩
  | .union all => exact matchesOne_stays all i hi j h
  | .repeated _ _ _ subexpr =>
    obtain ⟨n, -, hn⟩ := h
    exact (matches_stays subexpr).times n i hi j hn
  | .wordBoundary => exact here_stays hi h
  | .nonWordBoundary => exact here_stays hi h
  | .lookahead _ => exact here_stays hi h
  | .negativeLookahead _ => exact here_stays hi h

theorem matchesOne_stays (nodes : List ReNode) :
    Stays (Set.Icc lo s.length) (MatchesOne regex s strict nodes) := by
  intro i hi j h
  match nodes with
  | [] => exact h.elim
  | node :: nodes =>
    obtain h | h := h
    · exact matches_stays node i hi j h
    · exact matchesOne_stays nodes i hi j h

end

/-! ## What the match functions find -/

section Sound

variable {W : Set ℕ} {L R : ℕ → ℕ → Prop} {nsub left right : Search} {fuel : ℕ}

theorem reMatch2Char_sound (first : UInt8) (others : List UInt8) :
    Sound W (Matches regex s strict (.char first others))
      (reMatch2Char regex s (first :: others)) := by
  intro next i _ k h
  rw [reMatch2Char] at h
  split at h
  next => cases h
  next =>
    split at h
    next heq => exact ⟨_, ⟨heq, rfl⟩, h⟩
    next => cases h

theorem setStep_eq_pos {cset : CharSet} {i j : ℕ} :
    setStep s cset i = .pos j ↔ (∃ c ∈ s[i]?, isCharInSet c cset = true) ∧ j = i + 1 := by
  rw [setStep]
  split
  next c hc =>
    split
    next hin =>
      rw [Found.pos.injEq]
      exact ⟨fun h => ⟨⟨c, hc, hin⟩, h.symm⟩, fun h => h.2.symm⟩
    next hout =>
      refine ⟨fun h => (by cases h), ?_⟩
      rintro ⟨⟨c', hc', hin⟩, -⟩
      rw [hc] at hc'
      rw [Option.mem_some_iff] at hc'
      exact absurd (hc' ▸ hin) hout
  next hnone =>
    refine ⟨fun h => (by cases h), ?_⟩
    rintro ⟨⟨c, hc, -⟩, -⟩
    rw [hnone] at hc
    cases hc

theorem reMatch2Set_sound (cset : CharSet) :
    Sound W (Matches regex s strict (.set cset)) (reMatch2Set s cset) := by
  intro next i _ k h
  obtain ⟨j, hj, h⟩ := Found.andThen_eq_pos.mp h
  exact ⟨j, setStep_eq_pos.mp hj, h⟩

theorem reMatch2Any_sound : Sound W (Matches regex s strict .any) (reMatch2Any regex s) := by
  intro next i _ k h
  rw [reMatch2Any] at h
  split at h
  next c hc =>
    split at h
    next => cases h
    next hno =>
      refine ⟨i + 1, ⟨⟨c, hc, ?_⟩, rfl⟩, h⟩
      rw [Bool.and_eq_true, decide_eq_true_eq, Bool.not_eq_true'] at hno
      by_cases hdot : regex.dotAll = true
      · exact Or.inl hdot
      · exact Or.inr fun heq => hno ⟨Bool.eq_false_iff.mpr hdot, heq⟩
  next => cases h

theorem reMatch2Eos_sound : Sound W (Matches regex s strict .eos) (reMatch2Eos s) := by
  intro next i _ k h
  rw [reMatch2Eos] at h
  split at h
  next => cases h
  next hle => exact ⟨i, ⟨Nat.le_of_not_lt hle, rfl⟩, h⟩

theorem reMatch2Bos_sound : Sound W (Matches regex s strict .bos) reMatch2Bos := by
  intro next i _ k h
  rw [reMatch2Bos] at h
  split at h
  next => cases h
  next hzero => exact ⟨i, ⟨not_not.mp hzero, rfl⟩, h⟩

theorem reMatch2WordBoundary_sound :
    Sound W (Matches regex s strict .wordBoundary) (reMatch2WordBoundary s) := by
  intro next i _ k h
  rw [reMatch2WordBoundary] at h
  split at h
  next hat => exact ⟨i, ⟨hat, rfl⟩, h⟩
  next => cases h

theorem reMatch2NonWordBoundary_sound :
    Sound W (Matches regex s strict .nonWordBoundary) (reMatch2NonWordBoundary s) := by
  intro next i _ k h
  rw [reMatch2NonWordBoundary] at h
  split at h
  next => cases h
  next hat => exact ⟨i, ⟨Bool.eq_false_iff.mpr hat, rfl⟩, h⟩

theorem reMatch2Concat_sound (hstays : Stays W L) (hl : Sound W L left) (hr : Sound W R right) :
    Sound W (fun i j => ∃ k, L i k ∧ R k j) (reMatch2Concat left right) := by
  intro next i hi k h
  obtain ⟨q, hL, h⟩ := hl _ i hi k h
  obtain ⟨j, hR, h⟩ := hr next q (hstays i hi q hL).2 k h
  exact ⟨j, ⟨q, hL, hR⟩, h⟩

theorem reMatch2Question_sound (hsub : Sound W R nsub) :
    Sound W (fun i j => j = i ∨ R i j) (reMatch2Question nsub) := by
  intro next i hi k h
  obtain ⟨tail, htail, h⟩ := Found.andThen_eq_pos.mp h
  obtain htail | ⟨-, htail⟩ := Found.orElse_eq_pos.mp htail
  · exact ⟨tail, Or.inr (hsub.body i hi tail htail), h⟩
  · exact ⟨tail, Or.inl (Found.pos.inj htail).symm, h⟩

theorem reMatch2QuestionLazy_sound (hsub : Sound W R nsub) :
    Sound W (fun i j => j = i ∨ R i j) (reMatch2QuestionLazy nsub) := by
  intro next i hi k h
  cases next with
  | some node2 =>
    obtain hzero | ⟨-, h⟩ := Found.orElse_eq_pos.mp h
    · exact ⟨i, Or.inl rfl, hzero⟩
    · obtain ⟨tail, htail, h⟩ := Found.andThen_eq_pos.mp h
      exact ⟨tail, Or.inr (hsub.body i hi tail htail), h⟩
  | none =>
    rw [reMatch2QuestionLazy] at h
    split at h
    next => cases h
    next => exact ⟨i, Or.inl rfl, h⟩

theorem reMatch2Star_sound (hstays : Stays W R) (hsub : Sound W R nsub) :
    Sound W (fun i j => ∃ n, Times R n i j) (reMatch2Star fuel nsub) := by
  intro next i hi k h
  cases next with
  | some node2 =>
    obtain ⟨n, j, hn, hj⟩ := fewestFirst_sound hstays hsub.body hi h
    exact ⟨j, ⟨n, hn⟩, hj⟩
  | none => exact ⟨k, takeAll_sound hstays hsub.body hi h, rfl⟩

theorem reMatch2StarLazy_sound (hstays : Stays W R) (hsub : Sound W R nsub) :
    Sound W (fun i j => ∃ n, Times R n i j) (reMatch2StarLazy fuel nsub) := by
  intro next i hi k h
  cases next with
  | some node2 =>
    obtain ⟨n, j, hn, hj⟩ := fewestFirst_sound hstays hsub.body hi h
    exact ⟨j, ⟨n, hn⟩, hj⟩
  | none => exact ⟨i, ⟨0, rfl⟩, h⟩

theorem reMatch2Plus_sound (hstays : Stays W R) (hsub : Sound W R nsub) :
    Sound W (fun i j => ∃ n, 1 ≤ n ∧ Times R n i j) (reMatch2Plus s fuel nsub) := by
  intro next i hi k h
  rw [reMatch2Plus] at h
  split at h
  next => cases h
  next =>
    obtain ⟨osym, hosym, h⟩ := Found.andThen_eq_pos.mp h
    have hR := hsub.body i hi osym hosym
    have hW := (hstays i hi osym hR).2
    cases next with
    | some node2 =>
      obtain ⟨n, j, hn, hj⟩ := fewestFirst_sound hstays hsub.body hW h
      exact ⟨j, ⟨n + 1, by omega, osym, hR, hn⟩, hj⟩
    | none =>
      obtain ⟨n, hn⟩ := takeAll_sound hstays hsub.body hW h
      exact ⟨k, ⟨n + 1, by omega, osym, hR, hn⟩, rfl⟩

theorem reMatch2PlusLazy_sound (hstays : Stays W R) (hsub : Sound W R nsub) :
    Sound W (fun i j => ∃ n, 1 ≤ n ∧ Times R n i j) (reMatch2PlusLazy s fuel nsub) := by
  intro next i hi k h
  rw [reMatch2PlusLazy] at h
  split at h
  next => cases h
  next =>
    obtain ⟨osym, hosym, h⟩ := Found.andThen_eq_pos.mp h
    have hR := hsub.body i hi osym hosym
    cases next with
    | some node2 =>
      obtain ⟨n, j, hn, hj⟩ := fewestFirst_sound hstays hsub.body (hstays i hi osym hR).2 h
      exact ⟨j, ⟨n + 1, by omega, osym, hR, hn⟩, hj⟩
    | none => exact ⟨osym, ⟨1, le_rfl, times_one.mpr hR⟩, h⟩

theorem counted_of_le {minRep maxRep : ℤ} {m : ℕ} (hm : m ≤ remaining fuel minRep maxRep) :
    Counted minRep maxRep (minRep.toNat + m) := by
  refine ⟨by omega, fun hmax => ?_⟩
  rw [remaining, if_neg hmax] at hm
  omega

theorem lt_of_remainingLazy {minRep maxRep : ℤ} {m : ℕ}
    (hm : m < remainingLazy fuel minRep maxRep) : m ≤ remaining fuel minRep maxRep := by
  rw [remainingLazy] at hm
  rw [remaining]
  split at hm
  next hmax =>
    rw [if_pos hmax]
    omega
  next hmax =>
    rw [if_neg hmax]
    have hlt : int32 (maxRep - minRep) < (2 ^ 32 + 1) / 2 := Int.bmod_lt (by norm_num)
    have hle : -((2 ^ 32 : ℕ) / 2 : ℤ) ≤ int32 (maxRep - minRep) := Int.le_bmod (by norm_num)
    generalize int32 (maxRep - minRep) = r at hm hlt hle ⊢
    rw [int32, Int.bmod_def] at hm
    split at hm <;> omega

theorem reMatch2Repeat_sound (hstays : Stays W R) (hsub : Sound W R nsub) (zeroWidth : Bool)
    (minRep maxRep : ℤ) :
    Sound W (fun i j => ∃ n, Counted minRep maxRep n ∧ Times R n i j)
      (reMatch2Repeat s fuel zeroWidth minRep maxRep nsub) := by
  intro next i hi k h
  obtain ⟨ofs, hofs, h⟩ := Found.andThen_eq_pos.mp h
  have hmin := exactly_sound hstays hsub.body hi hofs
  have hW := (hstays.times _ i hi ofs hmin).2
  cases next with
  | some node2 =>
    dsimp only at h
    split at h
    next reached hreached =>
      obtain ⟨q, hq, hnext⟩ := tryEach_eq_pos h
      obtain hofs | ⟨m, hm, hn⟩ := positions_sound hstays hsub.body hW hreached hq
      · obtain rfl := List.mem_singleton.mp hofs
        exact ⟨q, ⟨_, counted_of_le (Nat.zero_le (remaining fuel _ _)), hmin⟩, hnext⟩
      · exact ⟨q, ⟨_, counted_of_le hm, hmin.add hn⟩, hnext⟩
    next => cases h
  | none =>
    obtain ⟨m, hm, hn⟩ := furthest_sound hstays hsub.body hW h
    exact ⟨k, ⟨_, counted_of_le hm, hmin.add hn⟩, rfl⟩

theorem reMatch2RepeatLazy_sound (hstays : Stays W R) (hsub : Sound W R nsub) (zeroWidth : Bool)
    (minRep maxRep : ℤ) :
    Sound W (fun i j => ∃ n, Counted minRep maxRep n ∧ Times R n i j)
      (reMatch2RepeatLazy s fuel zeroWidth minRep maxRep nsub) := by
  intro next i hi k h
  obtain ⟨ofs, hofs, h⟩ := Found.andThen_eq_pos.mp h
  have hmin := exactly_sound hstays hsub.body hi hofs
  cases next with
  | some node2 =>
    have hW := (hstays.times _ i hi ofs hmin).2
    obtain ⟨m, hm, j, hn, hnext⟩ := nearest_sound hstays hsub.body hW h
    exact ⟨j, ⟨_, counted_of_le (lt_of_remainingLazy hm), hmin.add hn⟩, hnext⟩
  | none => exact ⟨ofs, ⟨_, counted_of_le (Nat.zero_le (remaining fuel _ _)), hmin⟩, h⟩

theorem reMatch2Lookahead_sound (hsub : Sound W R nsub) :
    Sound W (fun i j => (∃ k, R i k) ∧ j = i) (reMatch2Lookahead nsub) := by
  intro next i hi k h
  obtain ⟨q, hq, h⟩ := Found.andThen_eq_pos.mp h
  exact ⟨i, ⟨⟨q, hsub.body i hi q hq⟩, rfl⟩, h⟩

theorem reMatch2NegativeLookahead_sound
    (hnull : strict = true → ∀ i ∈ W, nsub none i = .null → ¬∃ k, R i k) :
    Sound W (fun i j => (strict = true → ¬∃ k, R i k) ∧ j = i)
      (reMatch2NegativeLookahead nsub) := by
  intro next i hi k h
  rw [reMatch2NegativeLookahead] at h
  split at h
  next => cases h
  next hsub => exact ⟨i, ⟨fun hstrict => hnull hstrict i hi hsub, rfl⟩, h⟩
  next => cases h

end Sound

/-! ## What a tree finds -/

mutual

/-- The body of each negative lookahead. -/
def EachNegative (P : ReNode → Prop) : ReNode → Prop
  | .group _ _ subexpr | .plus _ subexpr | .star _ subexpr | .question _ subexpr
  | .repeated _ _ _ subexpr | .lookahead subexpr => EachNegative P subexpr
  | .concat left right => EachNegative P left ∧ EachNegative P right
  | .union all => EachNegatives P all
  | .negativeLookahead subexpr => EachNegative P subexpr ∧ P subexpr
  | .char _ _ | .set _ | .any | .eos | .bos | .wordBoundary | .nonWordBoundary => True

def EachNegatives (P : ReNode → Prop) : List ReNode → Prop
  | [] => True
  | node :: nodes => EachNegative P node ∧ EachNegatives P nodes

end

mutual

theorem EachNegative.imp {P Q : ReNode → Prop} (h : ∀ node, P node → EachNegative Q node → Q node)
    (node : ReNode) (hP : EachNegative P node) : EachNegative Q node := by
  match node with
  | .char _ _ | .set _ | .any | .eos | .bos | .wordBoundary | .nonWordBoundary => trivial
  | .group _ _ subexpr => exact EachNegative.imp h subexpr hP
  | .plus _ subexpr => exact EachNegative.imp h subexpr hP
  | .star _ subexpr => exact EachNegative.imp h subexpr hP
  | .question _ subexpr => exact EachNegative.imp h subexpr hP
  | .repeated _ _ _ subexpr => exact EachNegative.imp h subexpr hP
  | .lookahead subexpr => exact EachNegative.imp h subexpr hP
  | .concat left right =>
    exact ⟨EachNegative.imp h left hP.1, EachNegative.imp h right hP.2⟩
  | .union all => exact EachNegatives.imp h all hP
  | .negativeLookahead subexpr =>
    have hQ := EachNegative.imp h subexpr hP.1
    exact ⟨hQ, h subexpr hP.2 hQ⟩

theorem EachNegatives.imp {P Q : ReNode → Prop} (h : ∀ node, P node → EachNegative Q node → Q node)
    (nodes : List ReNode) (hP : EachNegatives P nodes) : EachNegatives Q nodes := by
  match nodes with
  | [] => trivial
  | node :: nodes => exact ⟨EachNegative.imp h node hP.1, EachNegatives.imp h nodes hP.2⟩

end

variable {fuel : ℕ}

variable (regex s fuel lo) in
/-- Where the body of a negative lookahead is not found, it does not match. -/
def Decided (subexpr : ReNode) : Prop :=
  ∀ i ∈ Set.Icc lo s.length, matchNode regex s fuel subexpr none i = .null →
    ¬∃ k, Matches regex s true subexpr i k

mutual

theorem matchNode_sound (node : ReNode)
    (h : strict = true → EachNegative (Decided regex s lo fuel) node) :
    Sound (Set.Icc lo s.length) (Matches regex s strict node) (matchNode regex s fuel node) := by
  match node with
  | .char first others => exact reMatch2Char_sound first others
  | .set cset => exact reMatch2Set_sound cset
  | .any => exact reMatch2Any_sound
  | .eos => exact reMatch2Eos_sound
  | .bos => exact reMatch2Bos_sound
  | .wordBoundary => exact reMatch2WordBoundary_sound
  | .nonWordBoundary => exact reMatch2NonWordBoundary_sound
  | .group _ _ subexpr => exact matchNode_sound subexpr h
  | .plus true subexpr =>
    exact reMatch2PlusLazy_sound (matches_stays subexpr) (matchNode_sound subexpr h)
  | .plus false subexpr =>
    rw [matchNode_plus]
    exact reMatch2Plus_sound (matches_stays subexpr) (matchNode_sound subexpr h)
  | .star true subexpr =>
    exact reMatch2StarLazy_sound (matches_stays subexpr) (matchNode_sound subexpr h)
  | .star false subexpr =>
    exact reMatch2Star_sound (matches_stays subexpr) (matchNode_sound subexpr h)
  | .question true subexpr => exact reMatch2QuestionLazy_sound (matchNode_sound subexpr h)
  | .question false subexpr => exact reMatch2Question_sound (matchNode_sound subexpr h)
  | .concat left right =>
    exact reMatch2Concat_sound (matches_stays left) (matchNode_sound left fun hs => (h hs).1)
      (matchNode_sound right fun hs => (h hs).2)
  | .union all => exact matchNodes_sound all h
  | .repeated minRep maxRep true subexpr =>
    exact reMatch2RepeatLazy_sound (matches_stays subexpr) (matchNode_sound subexpr h) _ _ _
  | .repeated minRep maxRep false subexpr =>
    exact reMatch2Repeat_sound (matches_stays subexpr) (matchNode_sound subexpr h) _ _ _
  | .lookahead subexpr => exact reMatch2Lookahead_sound (matchNode_sound subexpr h)
  | .negativeLookahead subexpr =>
    refine reMatch2NegativeLookahead_sound ?_
    rintro rfl
    exact (h rfl).2

theorem matchNodes_sound (nodes : List ReNode)
    (h : strict = true → EachNegatives (Decided regex s lo fuel) nodes) :
    Sound (Set.Icc lo s.length) (MatchesOne regex s strict nodes)
      (reMatch2Union (matchNodes regex s fuel nodes)) := by
  intro next i hi k hk
  match nodes with
  | [] => cases hk
  | node :: nodes =>
    obtain hk | ⟨-, hk⟩ := Found.orElse_eq_pos.mp hk
    · obtain ⟨j, hj, hk⟩ := matchNode_sound node (fun hs => (h hs).1) next i hi k hk
      exact ⟨j, Or.inl hj, hk⟩
    · obtain ⟨j, hj, hk⟩ := matchNodes_sound nodes (fun hs => (h hs).2) next i hi k hk
      exact ⟨j, Or.inr hj, hk⟩

end

theorem matchNode_sound_loose (node : ReNode) :
    Sound (Set.Icc lo s.length) (Matches regex s false node) (matchNode regex s fuel node) :=
  matchNode_sound node fun h => by cases h

end DaScript.Regex
