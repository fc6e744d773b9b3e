import Mathlib.Tactic

/-!
# Daslib/GlobMatch — a glob is matched with one star to go back to

`glob_match` of `strings_boost.das`.  Where a byte does not match, the last star takes one more
byte, and what is after it is tried again.

The stars before it are never gone back to: what they could still reach, the last one reaches too.
-/

namespace DaScript.GlobMatch

/-- `'*'` -/
def star : UInt8 := 42

/-- `'?'` -/
def question : UInt8 := 63

/-! ## The meaning of a pattern -/

/-- A piece of text for a byte of a pattern. -/
def SymbolMatches (c : UInt8) (piece : List UInt8) : Prop :=
  if c = star then True else if c = question then piece.length = 1 else piece = [c]

/-- **The text can be cut into pieces for the bytes of the pattern**, in order. -/
def Matches (pattern text : List UInt8) : Prop :=
  ∃ pieces, List.Forall₂ SymbolMatches pattern pieces ∧ pieces.flatten = text

/-! ## `glob_match` -/

/-- The state of the loop; a cursor is what is left from there on. -/
structure Cursors where
  pp : List UInt8
  tp : List UInt8
  /-- `star_pp` and `star_tp` -/
  last : Option (List UInt8 × List UInt8)

/-- The loop over stars, and the end of the pattern. -/
def onlyStars (pp : List UInt8) : Bool := (pp.dropWhile (· = star)).isEmpty

/-- No match here: back to the last star, which takes one more byte. -/
def back (s : Cursors) : Cursors ⊕ Bool :=
  match s.last with
  | some (starPp, starTp) =>
    .inl { pp := starPp.tail, tp := starTp.tail, last := some (starPp, starTp.tail) }
  | none => .inr false

/-- A round of the loop. -/
def step (s : Cursors) : Cursors ⊕ Bool :=
  match s.tp with
  | [] => .inr (onlyStars s.pp)
  | t :: tp =>
    if s.pp.head? = some question then .inl { s with pp := s.pp.tail, tp := tp }
    else if s.pp.head? = some star then
      .inl { s with pp := s.pp.tail, last := some (s.pp, s.tp) }
    else if s.pp.head? = some t then .inl { s with pp := s.pp.tail, tp := tp }
    else back s

/-- The loop, of so many rounds at most. -/
def run : ℕ → Cursors → Option Bool
  | 0, _ => none
  | fuel + 1, s =>
    match step s with
    | .inl s => run fuel s
    | .inr b => some b

/-- `glob_match`, of so many rounds at most. -/
def globMatch (fuel : ℕ) (pattern text : List UInt8) : Option Bool :=
  if pattern = [] then some text.isEmpty
  else if text = [] then some (onlyStars pattern)
  else run fuel ⟨pattern, text, none⟩

/-! ## Cutting texts -/

section Matches

variable {c : UInt8} {p u w x y : List UInt8}

theorem matches_nil : Matches [] w ↔ w = [] := by
  constructor
  · rintro ⟨pieces, hpieces, rfl⟩
    cases hpieces
    rfl
  · rintro rfl
    exact ⟨[], .nil, rfl⟩

theorem matches_cons :
    Matches (c :: p) w ↔ ∃ x y, w = x ++ y ∧ SymbolMatches c x ∧ Matches p y := by
  constructor
  · rintro ⟨pieces, hpieces, rfl⟩
    cases hpieces with
    | cons hc hp => exact ⟨_, _, List.flatten_cons, hc, _, hp, rfl⟩
  · rintro ⟨x, y, rfl, hc, pieces, hp, rfl⟩
    exact ⟨x :: pieces, .cons hc hp, List.flatten_cons⟩

theorem matches_append :
    Matches (u ++ p) w ↔ ∃ x y, w = x ++ y ∧ Matches u x ∧ Matches p y := by
  induction u generalizing w with
  | nil => simp [matches_nil]
  | cons c u ih =>
    simp only [List.cons_append, matches_cons, ih]
    constructor
    · rintro ⟨x, -, rfl, hc, y, z, rfl, hu, hp⟩
      exact ⟨x ++ y, z, (List.append_assoc x y z).symm, ⟨x, y, rfl, hc, hu⟩, hp⟩
    · rintro ⟨-, z, rfl, ⟨x, y, rfl, hc, hu⟩, hp⟩
      exact ⟨x, y ++ z, List.append_assoc x y z, hc, y, z, rfl, hu, hp⟩

theorem Matches.length (h : Matches u w) (hu : star ∉ u) : w.length = u.length := by
  induction u generalizing w with
  | nil => rw [matches_nil.1 h]
  | cons c u ih =>
    obtain ⟨x, y, rfl, hc, hy⟩ := matches_cons.1 h
    have hx : x.length = 1 := by
      rw [SymbolMatches, if_neg (by rintro rfl; exact hu List.mem_cons_self)] at hc
      split at hc
      · exact hc
      · rw [hc, List.length_singleton]
    rw [List.length_append, List.length_cons, hx, ih hy fun h => hu (List.mem_cons_of_mem c h),
      add_comm]

theorem matches_star : Matches (star :: p) w ↔ ∃ y, y <:+ w ∧ Matches p y := by
  rw [matches_cons]
  constructor
  · rintro ⟨x, y, rfl, -, hp⟩
    exact ⟨y, List.suffix_append x y, hp⟩
  · rintro ⟨y, ⟨x, rfl⟩, hp⟩
    exact ⟨x, y, rfl, by rw [SymbolMatches, if_pos rfl]; trivial, hp⟩

theorem Matches.of_suffix (h : Matches (star :: p) y) (hy : y <:+ w) : Matches (star :: p) w := by
  obtain ⟨z, hz, hp⟩ := matches_star.1 h
  exact matches_star.2 ⟨z, hz.trans hy, hp⟩

theorem matches_star_iff :
    Matches (star :: p) w ↔ Matches p w ∨ w ≠ [] ∧ Matches (star :: p) w.tail := by
  constructor
  · intro h
    obtain ⟨y, hy, hp⟩ := matches_star.1 h
    cases w with
    | nil =>
      rw [List.suffix_nil.mp hy] at hp
      exact .inl hp
    | cons t w =>
      rcases List.suffix_cons_iff.mp hy with rfl | hy
      · exact .inl hp
      · exact .inr ⟨List.cons_ne_nil t w, matches_star.2 ⟨y, hy, hp⟩⟩
  · rintro (h | ⟨-, h⟩)
    · exact matches_star.2 ⟨w, List.suffix_rfl, h⟩
    · exact h.of_suffix (List.tail_suffix w)

theorem matches_question {t : UInt8} : Matches (question :: p) (t :: w) ↔ Matches p w := by
  rw [matches_cons]
  constructor
  · rintro ⟨x, y, hxy, hc, hp⟩
    obtain ⟨d, rfl⟩ := List.length_eq_one_iff.mp (show x.length = 1 from hc)
    rwa [(List.cons.inj hxy).2]
  · intro hp
    exact ⟨[t], w, rfl, rfl, hp⟩

theorem matches_byte {t : UInt8} (hstar : c ≠ star) (hquestion : c ≠ question) :
    Matches (c :: p) (t :: w) ↔ c = t ∧ Matches p w := by
  have hsymbol : ∀ x, SymbolMatches c x ↔ x = [c] := fun x => by
    rw [SymbolMatches, if_neg hstar, if_neg hquestion]
  rw [matches_cons]
  constructor
  · rintro ⟨x, y, hxy, hc, hp⟩
    rw [(hsymbol x).mp hc] at hxy
    obtain ⟨rfl, rfl⟩ := List.cons.inj hxy
    exact ⟨rfl, hp⟩
  · rintro ⟨rfl, hp⟩
    exact ⟨[c], w, rfl, (hsymbol _).mpr rfl, hp⟩

theorem onlyStars_iff : onlyStars p = true ↔ Matches p [] := by
  induction p with
  | nil => simp [onlyStars, matches_nil]
  | cons c p ih =>
    by_cases hc : c = star
    · subst hc
      rw [matches_star_iff, ← ih, onlyStars, List.dropWhile_cons_of_pos (by simp)]
      simp [onlyStars]
    · rw [onlyStars, List.dropWhile_cons_of_neg (by simpa using hc)]
      refine iff_of_false (by simp) fun h => ?_
      obtain ⟨x, y, hxy, hx, -⟩ := matches_cons.1 h
      obtain ⟨rfl, -⟩ := List.append_eq_nil_iff.mp hxy.symm
      rw [SymbolMatches, if_neg hc] at hx
      split at hx <;> simp at hx

end Matches

/-! ## One star is enough -/

/-- **What the last star stands for**: since it, bytes without a star were matched one by one. -/
def Since (s : Cursors) : Prop :=
  ∀ starPp starTp, s.last = some (starPp, starTp) → s.tp <:+ starTp ∧
    ∃ u, starPp = star :: (u ++ s.pp) ∧ star ∉ u ∧ starTp.length = u.length + s.tp.length

/-- **The text can still match**: from here, or from the last star one byte further. -/
def Alive (s : Cursors) : Prop :=
  Matches s.pp s.tp ∨
    ∃ starPp starTp, s.last = some (starPp, starTp) ∧ starTp ≠ [] ∧ Matches starPp starTp.tail

section Steps

variable {s s' : Cursors}

theorem Since.later (h : Since s) {starPp starTp : List UInt8}
    (hlast : s.last = some (starPp, starTp)) (hmatch : Matches starPp starTp.tail)
    (hne : starTp ≠ []) : ∃ z, z <:+ s.tp ∧ z.length < s.tp.length ∧ Matches s.pp z := by
  obtain ⟨hsuffix, u, rfl, hu, hlength⟩ := h _ _ hlast
  obtain ⟨y, hy, hmatch⟩ := matches_star.1 hmatch
  obtain ⟨x, z, rfl, hx, hz⟩ := matches_append.1 hmatch
  have hzt : z <:+ starTp := (List.suffix_append x z).trans (hy.trans (List.tail_suffix starTp))
  have hlt : z.length < s.tp.length := by
    have hxy := hy.length_le
    have hpos := List.length_pos_iff.mpr hne
    rw [List.length_append, hx.length hu, List.length_tail] at hxy
    omega
  exact ⟨z, List.suffix_of_suffix_length_le hzt hsuffix hlt.le, hlt, hz⟩

theorem Since.advance {c t : UInt8} {pp tp : List UInt8} (h : Since s) (hpp : s.pp = c :: pp)
    (htp : s.tp = t :: tp) (hc : c ≠ star) : Since { s with pp := pp, tp := tp } := by
  intro starPp starTp hlast
  obtain ⟨hsuffix, u, rfl, hu, hlength⟩ := h _ _ hlast
  rw [htp] at hsuffix hlength
  refine ⟨(List.suffix_cons t tp).trans hsuffix, u ++ [c], ?_, ?_, ?_⟩
  · rw [hpp, List.append_assoc, List.singleton_append]
  · rw [List.mem_append, List.mem_singleton]
    exact not_or.mpr ⟨hu, hc.symm⟩
  · rw [hlength, List.length_append, List.length_cons, List.length_singleton, add_assoc,
      add_comm 1]

theorem Since.alive_star {pp : List UInt8} (h : Since s) (hpp : s.pp = star :: pp) :
    Alive s ↔ Matches (star :: pp) s.tp := by
  rw [Alive, hpp]
  refine or_iff_left_of_imp ?_
  rintro ⟨starPp, starTp, hlast, hne, hmatch⟩
  obtain ⟨z, hz, -, hp⟩ := h.later hlast hmatch hne
  exact (hpp ▸ hp).of_suffix hz

/-- What a round is measured by. -/
def measure (s : Cursors) : ℕ ×ₗ ℕ ×ₗ ℕ :=
  toLex (s.last.elim (s.tp.length + 1) (List.length ∘ Prod.snd), toLex (s.tp.length, s.pp.length))

/-- **A round**: the text can match just where it could before, and there is less to do. -/
def Goes (s s' : Cursors) : Prop := Since s' ∧ (Alive s ↔ Alive s') ∧ measure s' < measure s

theorem goes_advance {c t : UInt8} {pp tp : List UInt8} (h : Since s) (hpp : s.pp = c :: pp)
    (htp : s.tp = t :: tp) (hc : c ≠ star) (hmatch : Matches (c :: pp) (t :: tp) ↔ Matches pp tp) :
    Goes s { s with pp := pp, tp := tp } := by
  refine ⟨h.advance hpp htp hc, ?_, ?_⟩
  · rw [Alive, Alive, hpp, htp, hmatch]
  · rw [measure, measure, htp, hpp, Prod.Lex.toLex_lt_toLex, Prod.Lex.toLex_lt_toLex]
    cases s.last with
    | none => exact .inl (Nat.lt_succ_self _)
    | some last => exact .inr ⟨rfl, .inl (Nat.lt_succ_self _)⟩

theorem goes_star {pp : List UInt8} (h : Since s) (hpp : s.pp = star :: pp) :
    Goes s { s with pp := pp, last := some (s.pp, s.tp) } := by
  refine ⟨?_, ?_, ?_⟩
  · rintro _ _ ⟨⟩
    exact ⟨List.suffix_rfl, [], hpp, List.not_mem_nil, (Nat.zero_add _).symm⟩
  · rw [h.alive_star hpp, matches_star_iff, Alive]
    refine or_congr_right ?_
    constructor
    · exact fun ⟨hne, hmatch⟩ => ⟨_, _, rfl, hne, hpp ▸ hmatch⟩
    · rintro ⟨_, _, ⟨⟩, hne, hmatch⟩
      exact ⟨hne, hpp ▸ hmatch⟩
  · rw [measure, measure, hpp, Prod.Lex.toLex_lt_toLex, Prod.Lex.toLex_lt_toLex]
    cases hlast : s.last with
    | none => exact .inl (Nat.lt_succ_self _)
    | some last =>
      rcases (h _ _ hlast).1.length_le.lt_or_eq with hlt | heq
      · exact .inl hlt
      · exact .inr ⟨heq, .inr ⟨rfl, Nat.lt_succ_self _⟩⟩

theorem goes_back {starPp starTp : List UInt8} (h : Since s)
    (hlast : s.last = some (starPp, starTp)) (hne : s.tp ≠ []) (hmatch : ¬ Matches s.pp s.tp) :
    Goes s { pp := starPp.tail, tp := starTp.tail, last := some (starPp, starTp.tail) } := by
  obtain ⟨hsuffix, u, hstarPp, -, -⟩ := h _ _ hlast
  have hne' : starTp ≠ [] := fun heq => hne (List.suffix_nil.mp (heq ▸ hsuffix))
  have htail : starPp = star :: starPp.tail := by rw [hstarPp, List.tail_cons]
  refine ⟨?_, ?_, ?_⟩
  · rintro _ _ ⟨⟩
    exact ⟨List.suffix_rfl, [], htail, List.not_mem_nil, (Nat.zero_add _).symm⟩
  · have hnow : Alive s ↔ Matches starPp starTp.tail := by
      rw [Alive, or_iff_right hmatch]
      constructor
      · rintro ⟨_, _, heq, -, hmatch⟩
        obtain ⟨rfl, rfl⟩ := Prod.mk.inj (Option.some.inj (hlast.symm.trans heq))
        exact hmatch
      · exact fun hmatch => ⟨_, _, hlast, hne', hmatch⟩
    rw [hnow, htail, matches_star_iff, Alive, ← htail]
    refine or_congr_right ?_
    constructor
    · exact fun ⟨hne, hmatch⟩ => ⟨_, _, rfl, hne, hmatch⟩
    · rintro ⟨_, _, ⟨⟩, hne, hmatch⟩
      exact ⟨hne, hmatch⟩
  · rw [measure, measure, hlast, Prod.Lex.toLex_lt_toLex]
    refine .inl ?_
    rw [Option.elim_some, Option.elim_some, Function.comp, Function.comp, List.length_tail]
    exact Nat.sub_lt (List.length_pos_iff.mpr hne') Nat.one_pos

theorem back_spec (h : Since s) (hne : s.tp ≠ []) (hmatch : ¬ Matches s.pp s.tp) :
    (∃ s', back s = .inl s' ∧ Goes s s') ∨ ∃ b, back s = .inr b ∧ (b = true ↔ Alive s) := by
  rw [back]
  cases hlast : s.last with
  | some last => exact .inl ⟨_, rfl, goes_back h hlast hne hmatch⟩
  | none =>
    refine .inr ⟨false, rfl, iff_of_false Bool.false_ne_true ?_⟩
    rw [Alive, or_iff_right hmatch]
    rintro ⟨_, _, heq, -⟩
    exact Option.some_ne_none _ (heq.symm.trans hlast)

theorem step_spec (h : Since s) :
    (∃ s', step s = .inl s' ∧ Goes s s') ∨ ∃ b, step s = .inr b ∧ (b = true ↔ Alive s) := by
  rw [step]
  cases htp : s.tp with
  | nil =>
    refine .inr ⟨_, rfl, ?_⟩
    rw [onlyStars_iff, Alive, htp]
    refine (or_iff_left_of_imp ?_).symm
    rintro ⟨starPp, starTp, hlast, hne, hmatch⟩
    obtain ⟨z, -, hlt, -⟩ := h.later hlast hmatch hne
    rw [htp] at hlt
    exact absurd hlt (Nat.not_lt_zero _)
  | cons t tp =>
    have hne : s.tp ≠ [] := by rw [htp]; exact List.cons_ne_nil t tp
    dsimp only
    cases hpp : s.pp with
    | nil =>
      simp only [List.head?_nil, reduceCtorEq, if_false]
      refine back_spec h hne ?_
      rw [hpp, htp, matches_nil]
      exact List.cons_ne_nil t tp
    | cons c pp =>
      simp only [List.head?_cons, Option.some.injEq, List.tail_cons]
      by_cases hquestion : c = question
      · subst hquestion
        rw [if_pos rfl]
        exact .inl ⟨_, rfl, goes_advance h hpp htp (by decide) matches_question⟩
      rw [if_neg hquestion]
      by_cases hstar : c = star
      · subst hstar
        rw [if_pos rfl]
        refine .inl ⟨_, rfl, ?_⟩
        have := goes_star h hpp
        rwa [hpp, htp] at this
      rw [if_neg hstar]
      by_cases hbyte : c = t
      · subst hbyte
        rw [if_pos rfl]
        refine .inl ⟨_, rfl, goes_advance h hpp htp hstar ?_⟩
        rw [matches_byte hstar hquestion, and_iff_right rfl]
      · rw [if_neg hbyte]
        refine back_spec h hne ?_
        rw [hpp, htp, matches_byte hstar hquestion]
        exact fun h => hbyte h.1

theorem run_spec (h : Since s) :
    ∃ b, (∃ n, ∀ fuel ≥ n, run fuel s = some b) ∧ (b = true ↔ Alive s) := by
  induction hm : measure s using WellFoundedLT.induction generalizing s with
  | ind m ih =>
    subst hm
    rcases step_spec h with ⟨s', hstep, hsince, halive, hless⟩ | ⟨b, hstep, hb⟩
    · obtain ⟨b, ⟨n, hn⟩, hb⟩ := ih _ hless hsince rfl
      refine ⟨b, ⟨n + 1, fun fuel hfuel => ?_⟩, hb.trans halive.symm⟩
      obtain ⟨fuel, rfl⟩ := Nat.exists_eq_add_one_of_ne_zero (by omega : fuel ≠ 0)
      rw [run, hstep]
      exact hn fuel (Nat.le_of_succ_le_succ hfuel)
    · refine ⟨b, ⟨1, fun fuel hfuel => ?_⟩, hb⟩
      obtain ⟨fuel, rfl⟩ := Nat.exists_eq_add_one_of_ne_zero (by omega : fuel ≠ 0)
      rw [run, hstep]

end Steps

/-- **`glob_match` ends, and it is exact.** -/
theorem globMatch_exact (pattern text : List UInt8) :
    ∃ b, (∃ n, ∀ fuel ≥ n, globMatch fuel pattern text = some b) ∧
      (b = true ↔ Matches pattern text) := by
  by_cases hpattern : pattern = []
  · refine ⟨text.isEmpty, ⟨0, fun fuel _ => if_pos hpattern⟩, ?_⟩
    rw [hpattern, matches_nil, List.isEmpty_iff]
  by_cases htext : text = []
  · refine ⟨onlyStars pattern, ⟨0, fun fuel _ => ?_⟩, htext ▸ onlyStars_iff⟩
    rw [globMatch, if_neg hpattern, if_pos htext]
  · obtain ⟨b, ⟨n, hn⟩, hb⟩ := run_spec (s := ⟨pattern, text, none⟩) (by simp [Since])
    refine ⟨b, ⟨n, fun fuel hfuel => ?_⟩, hb.trans (or_iff_left ?_)⟩
    · rw [globMatch, if_neg hpattern, if_neg htext, hn fuel hfuel]
    · rintro ⟨_, _, h, -⟩
      exact Option.some_ne_none _ h.symm

/-! ## How many rounds there are -/

section Rounds

variable {m n : ℕ} {s s' : Cursors}

/-- The cursors are in texts of such lengths. -/
structure Bounded (m n : ℕ) (s : Cursors) : Prop where
  pp : s.pp.length ≤ m
  tp : s.tp.length ≤ n
  last : ∀ starPp starTp, s.last = some (starPp, starTp) → starPp.length ≤ m ∧ starTp.length ≤ n

/-- How far the last star can be moved yet. -/
def room (n : ℕ) (s : Cursors) : ℕ := s.last.elim (n + 1) (List.length ∘ Prod.snd)

/-- The rounds that are left, at most. -/
def roundsLeft (m n : ℕ) (s : Cursors) : ℕ :=
  room n s * (m + n + 1) + (s.tp.length + s.pp.length)

theorem roundsLeft_of_room (h : Bounded m n s') (hroom : room n s' < room n s) :
    roundsLeft m n s' < roundsLeft m n s := by
  have hmul := Nat.mul_le_mul_right (m + n + 1) (Nat.succ_le_of_lt hroom)
  have hp := h.pp
  have ht := h.tp
  rw [Nat.succ_mul] at hmul
  rw [roundsLeft, roundsLeft]
  omega

theorem roundsLeft_of_cursors (hroom : room n s' = room n s)
    (hless : s'.tp.length + s'.pp.length < s.tp.length + s.pp.length) :
    roundsLeft m n s' < roundsLeft m n s := by
  rw [roundsLeft, roundsLeft, hroom]
  omega

/-- A byte of the text is taken. -/
theorem Bounded.advance {t : UInt8} {tp : List UInt8} (h : Bounded m n s) (htp : s.tp = t :: tp) :
    Bounded m n { s with pp := s.pp.tail, tp := tp } ∧
      roundsLeft m n { s with pp := s.pp.tail, tp := tp } < roundsLeft m n s := by
  have hpp := h.pp
  have ht := h.tp
  rw [htp, List.length_cons] at ht
  refine ⟨⟨?_, (Nat.le_succ _).trans ht, h.last⟩, roundsLeft_of_cursors rfl ?_⟩
  · rw [List.length_tail]
    omega
  · dsimp only
    rw [htp, List.length_cons, List.length_tail]
    omega

/-- A star is passed: it is the one to go back to. -/
theorem Bounded.star {pp : List UInt8} (hsince : Since s) (h : Bounded m n s)
    (hpp : s.pp = star :: pp) :
    Bounded m n { s with pp := s.pp.tail, last := some (s.pp, s.tp) } ∧
      roundsLeft m n { s with pp := s.pp.tail, last := some (s.pp, s.tp) } <
        roundsLeft m n s := by
  have hbound : Bounded m n { s with pp := s.pp.tail, last := some (s.pp, s.tp) } := by
    refine ⟨?_, h.tp, ?_⟩
    · rw [List.length_tail]
      exact (Nat.sub_le _ _).trans h.pp
    · rintro _ _ ⟨⟩
      exact ⟨h.pp, h.tp⟩
  refine ⟨hbound, ?_⟩
  have hroom : room n { s with pp := s.pp.tail, last := some (s.pp, s.tp) } = s.tp.length := rfl
  have hle : s.tp.length ≤ room n s := by
    rw [room]
    cases hlast : s.last with
    | none => exact h.tp.trans (Nat.le_succ n)
    | some last => exact (hsince _ _ hlast).1.length_le
  rcases hle.lt_or_eq with hlt | heq
  · exact roundsLeft_of_room hbound (hroom.trans_lt hlt)
  · refine roundsLeft_of_cursors (hroom.trans heq) ?_
    dsimp only
    rw [hpp, List.tail_cons, List.length_cons]
    omega

/-- The last star takes one more byte. -/
theorem Bounded.back (hsince : Since s) (h : Bounded m n s) (hne : s.tp ≠ [])
    (hback : back s = .inl s') : Bounded m n s' ∧ roundsLeft m n s' < roundsLeft m n s := by
  rw [GlobMatch.back] at hback
  cases hlast : s.last with
  | none =>
    rw [hlast] at hback
    cases hback
  | some last =>
    obtain ⟨starPp, starTp⟩ := last
    rw [hlast] at hback
    obtain rfl := Sum.inl.inj hback
    obtain ⟨hpp, htp⟩ := h.last _ _ hlast
    have hlt : 0 < starTp.length :=
      (List.length_pos_iff.mpr hne).trans_le (hsince _ _ hlast).1.length_le
    have htail : starTp.tail.length < starTp.length := by
      rw [List.length_tail]
      exact Nat.sub_lt hlt Nat.one_pos
    have hbound : Bounded m n ⟨starPp.tail, starTp.tail, some (starPp, starTp.tail)⟩ := by
      refine ⟨?_, htail.le.trans htp, ?_⟩
      · rw [List.length_tail]
        exact (Nat.sub_le _ _).trans hpp
      · rintro _ _ ⟨⟩
        exact ⟨hpp, htail.le.trans htp⟩
    refine ⟨hbound, roundsLeft_of_room hbound ?_⟩
    rw [room, room, hlast]
    exact htail

theorem step_rounds (hsince : Since s) (h : Bounded m n s) (hstep : step s = .inl s') :
    Bounded m n s' ∧ roundsLeft m n s' < roundsLeft m n s := by
  rw [step] at hstep
  cases htp : s.tp with
  | nil =>
    rw [htp] at hstep
    cases hstep
  | cons t tp =>
    have hne : s.tp ≠ [] := by rw [htp]; exact List.cons_ne_nil t tp
    simp only [htp] at hstep
    split_ifs at hstep with hquestion hstar hbyte
    · obtain rfl := Sum.inl.inj hstep
      exact h.advance htp
    · obtain rfl := Sum.inl.inj hstep
      obtain ⟨pp, hpp⟩ := List.head?_eq_some_iff.mp hstar
      rw [← htp]
      exact h.star hsince hpp
    · obtain rfl := Sum.inl.inj hstep
      exact h.advance htp
    · exact h.back hsince hne hstep

theorem run_rounds (hsince : Since s) (h : Bounded m n s) :
    ∃ b, (∀ fuel > roundsLeft m n s, run fuel s = some b) ∧ (b = true ↔ Alive s) := by
  induction hk : roundsLeft m n s using Nat.strong_induction_on generalizing s with
  | _ k ih =>
    rcases step_spec hsince with ⟨s', hstep, hsince', halive, -⟩ | ⟨b, hstep, hb⟩
    · obtain ⟨h', hless⟩ := step_rounds hsince h hstep
      obtain ⟨b, hrun, hb⟩ := ih _ (hk ▸ hless) hsince' h' rfl
      refine ⟨b, fun fuel hfuel => ?_, hb.trans halive.symm⟩
      obtain ⟨fuel, rfl⟩ := Nat.exists_eq_add_one_of_ne_zero (by omega : fuel ≠ 0)
      rw [run, hstep]
      exact hrun fuel (by omega)
    · refine ⟨b, fun fuel hfuel => ?_, hb⟩
      obtain ⟨fuel, rfl⟩ := Nat.exists_eq_add_one_of_ne_zero (by omega : fuel ≠ 0)
      rw [run, hstep]

end Rounds

/-- **`glob_match` does not go back without end**: its rounds are at most as many as one for each
byte of both texts, once for each place of the text, whatever the stars are. -/
theorem globMatch_rounds (pattern text : List UInt8) :
    ∃ b, (∀ fuel ≥ (text.length + 2) * (pattern.length + text.length + 1),
        globMatch fuel pattern text = some b) ∧ (b = true ↔ Matches pattern text) := by
  by_cases hpattern : pattern = []
  · refine ⟨text.isEmpty, fun fuel _ => if_pos hpattern, ?_⟩
    rw [hpattern, matches_nil, List.isEmpty_iff]
  by_cases htext : text = []
  · refine ⟨onlyStars pattern, fun fuel _ => ?_, htext ▸ onlyStars_iff⟩
    rw [globMatch, if_neg hpattern, if_pos htext]
  · obtain ⟨b, hrun, hb⟩ := run_rounds (s := ⟨pattern, text, none⟩) (by simp [Since])
      ⟨le_refl pattern.length, le_refl text.length, fun _ _ h => absurd h.symm (by simp)⟩
    refine ⟨b, fun fuel hfuel => ?_, hb.trans (or_iff_left ?_)⟩
    · rw [globMatch, if_neg hpattern, if_neg htext]
      refine hrun fuel ?_
      rw [roundsLeft, room, Option.elim_none]
      dsimp only
      rw [show text.length + 2 = text.length + 1 + 1 from rfl, Nat.succ_mul] at hfuel
      omega
    · rintro ⟨_, _, h, -⟩
      exact Option.some_ne_none _ h.symm

/-- A star that is gone back to, in `a*bc` and `abbc`. -/
example : globMatch 20 [97, 42, 98, 99] [97, 98, 98, 99] = some true := by decide

end DaScript.GlobMatch
