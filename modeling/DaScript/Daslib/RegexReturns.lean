import DaScript.Daslib.RegexLanguage

/-!
# Daslib/RegexReturns — when matching ends

The loops of `*` and `+` go round until their part or what is next fails, and do not look whether
the part has moved; those of `{n,m}` do.  So matching ends where no such part matches the empty text
(`Moves`): every time round then starts further on.
-/

namespace DaScript.Regex

open Searching Text

section

variable (regex : Regex) (s : List UInt8) (lo : ℕ)

mutual

/-- **No loop can stay where it is**: no part of a `*` or `+` matches the empty text from `lo` on,
unless the loop is lazy and nothing follows it. -/
def Moves : ReNode → Bool → Prop
  | .group _ _ subexpr, followed => Moves subexpr followed
  | .concat left right, followed => Moves left true ∧ Moves right followed
  | .union all, followed => MovesAll all followed
  | .plus lazy subexpr, followed =>
    Moves subexpr false ∧
      (lazy = false ∨ followed = true →
        ∀ p ∈ Set.Icc lo s.length, ¬Matches regex s false subexpr p p)
  | .star lazy subexpr, followed =>
    lazy = false ∨ followed = true →
      Moves subexpr false ∧ ∀ p ∈ Set.Icc lo s.length, ¬Matches regex s false subexpr p p
  | .question _ subexpr, _ | .repeated _ _ _ subexpr, _ | .lookahead subexpr, _
  | .negativeLookahead subexpr, _ => Moves subexpr false
  | .char _ _, _ | .set _, _ | .any, _ | .eos, _ | .bos, _ | .wordBoundary, _
  | .nonWordBoundary, _ => True

def MovesAll : List ReNode → Bool → Prop
  | [], _ => True
  | node :: nodes, followed => Moves node followed ∧ MovesAll nodes followed

end

end

variable {regex : Regex} {s : List UInt8} {lo fuel : ℕ} {nsub left right : Search}
  {L R : ℕ → ℕ → Prop} {followed : Bool}

/-! ## The match functions -/

section Ends

variable {W : Set ℕ}

theorem reMatch2Concat_ends (hl : Ends W true left) (hr : Ends W followed right) :
    Ends W followed (reMatch2Concat left right) := by
  intro next hfollowed hnext i hi
  refine hl _ rfl ?_ i hi
  rintro g hg p hp
  obtain rfl := Option.some.inj hg
  exact hr next hfollowed hnext p hp

end Ends

section Loops

variable (hstays : Stays (Set.Icc lo s.length) R) (hsub : Sound (Set.Icc lo s.length) R nsub)
  (hends : Ends (Set.Icc lo s.length) false nsub)
include hstays hsub hends

theorem reMatch2Question_ends :
    Ends (Set.Icc lo s.length) followed (reMatch2Question nsub) := by
  intro next _ hnext i hi
  rw [reMatch2Question]
  cases htail : nsub none i with
  | pos tail => exact proceed_ends hnext (hstays i hi tail (hsub.body i hi tail htail)).2
  | null => exact proceed_ends hnext hi
  | hang => exact absurd htail (hends.body i hi)

theorem reMatch2QuestionLazy_ends :
    Ends (Set.Icc lo s.length) followed (reMatch2QuestionLazy nsub) := by
  intro next _ hnext i hi
  cases next with
  | some node2 =>
    refine Found.orElse_ne_hang (hnext node2 rfl i hi) ?_
    cases htail : nsub none i with
    | pos tail => exact hnext node2 rfl tail (hstays i hi tail (hsub.body i hi tail htail)).2
    | null => exact fun h => by cases h
    | hang => exact absurd htail (hends.body i hi)
  | none =>
    rw [reMatch2QuestionLazy]
    split
    next hhang => exact absurd hhang (hends.body i hi)
    next => exact fun h => by cases h

variable (hfuel : s.length < fuel)
include hfuel

theorem reMatch2Star_ends (hmoves : ∀ p ∈ Set.Icc lo s.length, ¬R p p) :
    Ends (Set.Icc lo s.length) followed (reMatch2Star fuel nsub) := by
  intro next _ hnext i hi
  cases next with
  | some node2 =>
    exact fewestFirst_ends hstays hsub.body hends.body hmoves (hnext node2 rfl) hi (by omega)
  | none => exact takeAll_ends hstays hsub.body hends.body hmoves hi (by omega)

theorem reMatch2Plus_ends (hmoves : ∀ p ∈ Set.Icc lo s.length, ¬R p p) :
    Ends (Set.Icc lo s.length) followed (reMatch2Plus s fuel nsub) := by
  intro next hfollowed hnext i hi
  rw [reMatch2Plus]
  split
  next => exact fun h => by cases h
  next =>
    cases hosym : nsub none i with
    | pos osym =>
      have hW := (hstays i hi osym (hsub.body i hi osym hosym)).2
      exact reMatch2Star_ends hstays hsub hends hfuel hmoves next hfollowed hnext osym hW
    | null => exact fun h => by cases h
    | hang => exact absurd hosym (hends.body i hi)

theorem reMatch2PlusLazy_ends
    (hmoves : followed = true → ∀ p ∈ Set.Icc lo s.length, ¬R p p) :
    Ends (Set.Icc lo s.length) followed (reMatch2PlusLazy s fuel nsub) := by
  intro next hfollowed hnext i hi
  rw [reMatch2PlusLazy]
  split
  next => exact fun h => by cases h
  next =>
    cases hosym : nsub none i with
    | pos osym =>
      have hW := (hstays i hi osym (hsub.body i hi osym hosym)).2
      cases next with
      | some node2 =>
        exact fewestFirst_ends hstays hsub.body hends.body (hmoves hfollowed.symm)
          (hnext node2 rfl) hW (by omega)
      | none => exact fun h => by cases h
    | null => exact fun h => by cases h
    | hang => exact absurd hosym (hends.body i hi)

theorem reMatch2Repeat_ends (zeroWidth : Bool) (minRep maxRep : ℤ) :
    Ends (Set.Icc lo s.length) followed
      (reMatch2Repeat s fuel zeroWidth minRep maxRep nsub) := by
  intro next _ hnext i hi
  rw [reMatch2Repeat]
  cases hofs : exactly (endsRepeat s zeroWidth) (nsub none) minRep.toNat i with
  | pos ofs =>
    have hW := (hstays.times _ i hi ofs (exactly_sound hstays hsub.body hi hofs)).2
    have hcount : decide (maxRep ≠ -1) = true ∨
        s.length < ofs + remaining fuel minRep maxRep := by
      by_cases hmax : maxRep = -1
      · rw [remaining, if_pos hmax]
        exact Or.inr (by omega)
      · exact Or.inl (decide_eq_true hmax)
    cases next with
    | some node2 =>
      obtain ⟨l, hl⟩ := positions_ends hstays hsub.body hends.body hW hcount
      rw [Found.andThen_pos]
      dsimp only
      rw [hl]
      refine tryEach_ends fun q hq => hnext node2 rfl q ?_
      obtain hofs | ⟨m, -, hn⟩ := positions_sound hstays hsub.body hW hl hq
      · exact List.mem_singleton.mp hofs ▸ hW
      · exact (hstays.times m ofs hW q hn).2
    | none => exact furthest_ends hstays hsub.body hends.body hW hcount
  | null => exact fun h => by cases h
  | hang => exact absurd hofs (exactly_ends hstays hsub.body hends.body hi)

theorem reMatch2RepeatLazy_ends (zeroWidth : Bool) (minRep maxRep : ℤ) :
    Ends (Set.Icc lo s.length) followed
      (reMatch2RepeatLazy s fuel zeroWidth minRep maxRep nsub) := by
  intro next _ hnext i hi
  rw [reMatch2RepeatLazy]
  cases hofs : exactly (endsRepeat s zeroWidth) (nsub none) minRep.toNat i with
  | pos ofs =>
    have hW := (hstays.times _ i hi ofs (exactly_sound hstays hsub.body hi hofs)).2
    have hcount : decide (maxRep ≠ -1) = true ∨
        s.length < ofs + remainingLazy fuel minRep maxRep := by
      by_cases hmax : maxRep = -1
      · rw [remainingLazy, if_pos hmax]
        exact Or.inr (by omega)
      · exact Or.inl (decide_eq_true hmax)
    cases next with
    | some node2 =>
      exact nearest_ends hstays hsub.body hends.body (hnext node2 rfl) hW hcount
    | none => exact fun h => by cases h
  | null => exact fun h => by cases h
  | hang => exact absurd hofs (exactly_ends hstays hsub.body hends.body hi)

omit hfuel hstays hsub in
theorem reMatch2Lookahead_ends :
    Ends (Set.Icc lo s.length) followed (reMatch2Lookahead nsub) := by
  intro next _ hnext i hi
  rw [reMatch2Lookahead]
  cases hosub : nsub none i with
  | pos osub => exact proceed_ends hnext hi
  | null => exact fun h => by cases h
  | hang => exact absurd hosub (hends.body i hi)

omit hfuel hstays hsub in
theorem reMatch2NegativeLookahead_ends :
    Ends (Set.Icc lo s.length) followed (reMatch2NegativeLookahead nsub) := by
  intro next _ hnext i hi
  rw [reMatch2NegativeLookahead]
  cases hosub : nsub none i with
  | pos osub => exact fun h => by cases h
  | null => exact proceed_ends hnext hi
  | hang => exact absurd hosub (hends.body i hi)

end Loops

theorem reMatch2StarLazy_ends (hfuel : s.length < fuel)
    (hstays : Stays (Set.Icc lo s.length) R)
    (h : followed = true → Sound (Set.Icc lo s.length) R nsub ∧
      Ends (Set.Icc lo s.length) false nsub ∧ ∀ p ∈ Set.Icc lo s.length, ¬R p p) :
    Ends (Set.Icc lo s.length) followed (reMatch2StarLazy fuel nsub) := by
  intro next hfollowed hnext i hi
  cases next with
  | some node2 =>
    obtain ⟨hsub, hends, hmoves⟩ := h hfollowed.symm
    exact fewestFirst_ends hstays hsub.body hends.body hmoves (hnext node2 rfl) hi (by omega)
  | none => exact fun h => by cases h

/-! ## The bytes of the subject -/

theorem reMatch2Char_looks (text : List UInt8) : Looks (reMatch2Char regex s text) := by
  intro i
  by_cases hend : s.length ≤ i
  · exact Or.inl fun _ => if_pos hend
  · by_cases heq : ((s.drop i).take text.length).map regex.fold = text.map regex.fold
    · exact Or.inr ⟨_, fun _ => (if_neg hend).trans (if_pos heq)⟩
    · exact Or.inl fun _ => (if_neg hend).trans (if_neg heq)

theorem setStep_ne_hang (cset : CharSet) (i : ℕ) : setStep s cset i ≠ .hang := by
  rw [setStep]
  split
  next => split <;> exact fun h => by cases h
  next => exact fun h => by cases h

theorem reMatch2Set_looks (cset : CharSet) : Looks (reMatch2Set s cset) := by
  intro i
  cases hstep : setStep s cset i with
  | pos j => exact Or.inr ⟨j, fun _ => by rw [reMatch2Set, hstep, Found.andThen_pos]⟩
  | null => exact Or.inl fun _ => by rw [reMatch2Set, hstep, Found.andThen_null]
  | hang => exact absurd hstep (setStep_ne_hang cset i)

theorem reMatch2Any_looks : Looks (reMatch2Any regex s) := by
  intro i
  cases hc : s[i]? with
  | none => exact Or.inl fun _ => by rw [reMatch2Any, hc]
  | some c =>
    by_cases hdot : (!regex.dotAll && decide (c = ch '\n')) = true
    · exact Or.inl fun _ => by rw [reMatch2Any, hc]; exact if_pos hdot
    · exact Or.inr ⟨i + 1, fun _ => by rw [reMatch2Any, hc]; exact if_neg hdot⟩

theorem reMatch2Eos_looks : Looks (reMatch2Eos s) := by
  intro i
  by_cases hlt : i < s.length
  · exact Or.inl fun _ => if_pos hlt
  · exact Or.inr ⟨i, fun _ => if_neg hlt⟩

theorem reMatch2Bos_looks : Looks reMatch2Bos := by
  intro i
  by_cases hne : i ≠ 0
  · exact Or.inl fun _ => if_pos hne
  · exact Or.inr ⟨i, fun _ => if_neg hne⟩

theorem reMatch2WordBoundary_looks : Looks (reMatch2WordBoundary s) := by
  intro i
  by_cases hat : atWordBoundary s i = true
  · exact Or.inr ⟨i, fun _ => if_pos hat⟩
  · exact Or.inl fun _ => if_neg hat

theorem reMatch2NonWordBoundary_looks : Looks (reMatch2NonWordBoundary s) := by
  intro i
  by_cases hat : atWordBoundary s i = true
  · exact Or.inl fun _ => if_pos hat
  · exact Or.inr ⟨i, fun _ => if_neg hat⟩

/-! ## Matching ends -/

theorem looks_ends (node : ReNode) (h : Looks (matchNode regex s fuel node)) :
    Ends (Set.Icc lo s.length) followed (matchNode regex s fuel node) :=
  h.ends (matchNode_sound_loose node) (matches_stays node)

mutual

theorem matchNode_ends (hfuel : s.length < fuel) (node : ReNode) (followed : Bool)
    (h : Moves regex s lo node followed) :
    Ends (Set.Icc lo s.length) followed (matchNode regex s fuel node) := by
  match node with
  | .char first others => exact looks_ends (.char first others) (reMatch2Char_looks _)
  | .set cset => exact looks_ends (.set cset) (reMatch2Set_looks cset)
  | .any => exact looks_ends .any reMatch2Any_looks
  | .eos => exact looks_ends .eos reMatch2Eos_looks
  | .bos => exact looks_ends .bos reMatch2Bos_looks
  | .wordBoundary => exact looks_ends .wordBoundary reMatch2WordBoundary_looks
  | .nonWordBoundary => exact looks_ends .nonWordBoundary reMatch2NonWordBoundary_looks
  | .group _ _ subexpr => exact matchNode_ends hfuel subexpr followed h
  | .plus true subexpr =>
    exact reMatch2PlusLazy_ends (matches_stays subexpr) (matchNode_sound_loose subexpr)
      (matchNode_ends hfuel subexpr false h.1) hfuel fun hf => h.2 (Or.inr hf)
  | .plus false subexpr =>
    rw [matchNode_plus]
    exact reMatch2Plus_ends (matches_stays subexpr) (matchNode_sound_loose subexpr)
      (matchNode_ends hfuel subexpr false h.1) hfuel (h.2 (Or.inl rfl))
  | .star true subexpr =>
    exact reMatch2StarLazy_ends hfuel (matches_stays subexpr) fun hf =>
      ⟨matchNode_sound_loose subexpr, matchNode_ends hfuel subexpr false (h (Or.inr hf)).1,
        (h (Or.inr hf)).2⟩
  | .star false subexpr =>
    exact reMatch2Star_ends (matches_stays subexpr) (matchNode_sound_loose subexpr)
      (matchNode_ends hfuel subexpr false (h (Or.inl rfl)).1) hfuel (h (Or.inl rfl)).2
  | .question true subexpr =>
    exact reMatch2QuestionLazy_ends (matches_stays subexpr) (matchNode_sound_loose subexpr)
      (matchNode_ends hfuel subexpr false h)
  | .question false subexpr =>
    exact reMatch2Question_ends (matches_stays subexpr) (matchNode_sound_loose subexpr)
      (matchNode_ends hfuel subexpr false h)
  | .concat left right =>
    exact reMatch2Concat_ends (matchNode_ends hfuel left true h.1)
      (matchNode_ends hfuel right followed h.2)
  | .union all => exact matchNodes_ends hfuel all followed h
  | .repeated minRep maxRep true subexpr =>
    exact reMatch2RepeatLazy_ends (matches_stays subexpr) (matchNode_sound_loose subexpr)
      (matchNode_ends hfuel subexpr false h) hfuel _ _ _
  | .repeated minRep maxRep false subexpr =>
    exact reMatch2Repeat_ends (matches_stays subexpr) (matchNode_sound_loose subexpr)
      (matchNode_ends hfuel subexpr false h) hfuel _ _ _
  | .lookahead subexpr =>
    exact reMatch2Lookahead_ends (matchNode_ends hfuel subexpr false h)
  | .negativeLookahead subexpr =>
    exact reMatch2NegativeLookahead_ends (matchNode_ends hfuel subexpr false h)

theorem matchNodes_ends (hfuel : s.length < fuel) (nodes : List ReNode) (followed : Bool)
    (h : MovesAll regex s lo nodes followed) :
    Ends (Set.Icc lo s.length) followed (reMatch2Union (matchNodes regex s fuel nodes)) := by
  intro next hfollowed hnext i hi
  match nodes with
  | [] => exact fun h => by cases h
  | node :: nodes =>
    exact Found.orElse_ne_hang (matchNode_ends hfuel node followed h.1 next hfollowed hnext i hi)
      (matchNodes_ends hfuel nodes followed h.2 next hfollowed hnext i hi)

end

theorem matchAt_stays {str k : ℕ} (hstr : str ≤ s.length)
    (h : matchAt regex s fuel str = .pos k) : str ≤ k ∧ k ≤ s.length := by
  have hstr' : str ∈ Set.Icc str s.length := ⟨le_rfl, hstr⟩
  have hmatch := (matchNode_sound_loose regex.root).body str hstr' k h
  obtain ⟨hle, hk⟩ := matches_stays regex.root str hstr' k hmatch
  exact ⟨hle, hk.2⟩

end DaScript.Regex
