import DaScript.Simulate.JsonSkip

/-!
# Simulate/JsonSpaced — texts of the same tokens

Two texts are `Spaced` if they are the same tokens, with other blanks between them: punctuation,
strings, and literals such as numbers, which blanks or punctuation keep apart.

A reader is `Steady` if it reads the same from both, and leaves the same tokens of both.  The
helpers that skip a value are (`skipValue_steady`).
-/

namespace DaScript

open Text

namespace JsonScanner

/-- What `skipWS` skips. -/
def isBlank (c : UInt8) : Bool := c = 32 || c = 9 || c = 10 || c = 13

/-- The punctuation of JSON. -/
def isPunct (c : UInt8) : Bool := decide (c ∈ text "\x7b\x7d[]:,")

/-- What numbers and words are made of: anything else but a quote. -/
def isLiteral (c : UInt8) : Bool := !isBlank c && !isPunct c && c ≠ ch '"'

/-- What stands between the quotes of a string: the first quote that is not escaped ends it. -/
def Closed (chars : List UInt8) : Prop := skipChars false (chars ++ [ch '"']) = some []

/-- What may stand behind a literal. -/
def Parted (cur : List UInt8) : Prop := ∀ c ∈ cur.head?, isLiteral c = false

mutual

/-- **The same tokens**, with blanks in front. -/
inductive Spaced : List UInt8 → List UInt8 → Prop
  | mk {b b' cur cur' : List UInt8} (hb : ∀ c ∈ b, isBlank c = true)
      (hb' : ∀ c ∈ b', isBlank c = true) (h : Start cur cur') : Spaced (b ++ cur) (b' ++ cur')

/-- The same tokens, from the first one on. -/
inductive Start : List UInt8 → List UInt8 → Prop
  | nil : Start [] []
  | punct {c : UInt8} {cur cur' : List UInt8} (hc : isPunct c = true) (h : Spaced cur cur') :
      Start (c :: cur) (c :: cur')
  | string {chars cur cur' : List UInt8} (hchars : Closed chars) (h : Spaced cur cur') :
      Start (ch '"' :: (chars ++ ch '"' :: cur)) (ch '"' :: (chars ++ ch '"' :: cur'))
  | literal {l cur cur' : List UInt8} (hne : l ≠ []) (hl : ∀ c ∈ l, isLiteral c = true)
      (hp : Parted cur) (hp' : Parted cur') (h : Spaced cur cur') : Start (l ++ cur) (l ++ cur')

end

theorem Start.spaced {cur cur' : List UInt8} (h : Start cur cur') : Spaced cur cur' :=
  @Spaced.mk [] [] cur cur' (by simp) (by simp) h

theorem isLiteral_iff {c : UInt8} :
    isLiteral c = true ↔ isBlank c = false ∧ isPunct c = false ∧ c ≠ ch '"' := by
  simp [isLiteral, and_assoc]

theorem isBlank_of_isPunct {c : UInt8} (h : isPunct c = true) : isBlank c = false := by
  have hall : (text "\x7b\x7d[]:,").all (fun c => !isBlank c) = true := by decide
  simpa using List.all_eq_true.mp hall c (of_decide_eq_true h)

theorem Start.uncons {cur cur' : List UInt8} (h : Start cur cur') :
    cur = [] ∧ cur' = [] ∨ ∃ c tail tail', cur = c :: tail ∧ cur' = c :: tail' ∧
      isBlank c = false ∧ (isPunct c = true → Spaced tail tail') := by
  cases h with
  | nil => exact Or.inl ⟨rfl, rfl⟩
  | punct hc h => exact Or.inr ⟨_, _, _, rfl, rfl, isBlank_of_isPunct hc, fun _ => h⟩
  | string hchars h =>
    exact Or.inr ⟨_, _, _, rfl, rfl, by decide, fun hc => absurd hc (by decide)⟩
  | @literal l cur cur' hne hl hp hp' h =>
    obtain ⟨c, l, rfl⟩ := List.exists_cons_of_ne_nil hne
    obtain ⟨hblank, hpunct, -⟩ := isLiteral_iff.mp (hl c List.mem_cons_self)
    refine Or.inr ⟨c, l ++ cur, l ++ cur', rfl, rfl, hblank, fun hc => ?_⟩
    rw [hpunct] at hc
    cases hc

theorem skipWS_append {b : List UInt8} (hb : ∀ c ∈ b, isBlank c = true) (cur : List UInt8) :
    skipWS (b ++ cur) = skipWS cur :=
  List.dropWhile_append_of_pos hb

theorem Start.skipWS {cur cur' : List UInt8} (h : Start cur cur') :
    skipWS cur = cur ∧ skipWS cur' = cur' := by
  rcases h.uncons with ⟨rfl, rfl⟩ | ⟨c, tail, tail', rfl, rfl, hblank, -⟩
  · exact ⟨rfl, rfl⟩
  · have hpos : ¬isBlank c = true := by rw [hblank]; exact Bool.false_ne_true
    exact ⟨List.dropWhile_cons_of_neg hpos, List.dropWhile_cons_of_neg hpos⟩

theorem Spaced.skipWS {cur cur' : List UInt8} (h : Spaced cur cur') :
    Start (skipWS cur) (skipWS cur') := by
  obtain ⟨hb, hb', h⟩ := h
  rw [skipWS_append hb, skipWS_append hb', h.skipWS.1, h.skipWS.2]
  exact h

theorem spaced_suffix {l l' cur cur' : List UInt8} (hl : ∀ c ∈ l, isLiteral c = true)
    (hsuffix : l' <:+ l) (hp : Parted cur) (hp' : Parted cur') (h : Spaced cur cur') :
    Spaced (l' ++ cur) (l' ++ cur') := by
  by_cases hne : l' = []
  · subst hne
    exact h
  · exact (Start.literal hne (fun c hc => hl c (hsuffix.subset hc)) hp hp' h).spaced

/-! ## Readers -/

/-- A reader of a text: what it reads, and what it leaves. -/
abbrev Reader := StateT (List UInt8) Option

/-- Two outcomes that read the same, and leave the same tokens. -/
inductive SameRead {α : Type} : Option (α × List UInt8) → Option (α × List UInt8) → Prop
  | none : SameRead none none
  | some (a : α) {cur cur' : List UInt8} (h : Spaced cur cur') :
      SameRead (some (a, cur)) (some (a, cur'))

/-- **A reader for which blanks between tokens make no difference.** -/
def Steady {α : Type} (f : Reader α) : Prop :=
  ∀ ⦃cur cur' : List UInt8⦄, Spaced cur cur' → SameRead (f cur) (f cur')

/-- The same, where a token starts. -/
def SteadyAt {α : Type} (f : Reader α) : Prop :=
  ∀ ⦃cur cur' : List UInt8⦄, Start cur cur' → SameRead (f cur) (f cur')

section

variable {α β : Type}

theorem Steady.at {f : Reader α} (hf : Steady f) : SteadyAt f := fun _ _ h => hf h.spaced

theorem SameRead.bind {x x' : Option (α × List UInt8)} {f : α → Reader β} (h : SameRead x x')
    (hf : ∀ a, Steady (f a)) :
    SameRead (x.bind fun p => f p.1 p.2) (x'.bind fun p => f p.1 p.2) := by
  cases h with
  | none => exact .none
  | some a h => exact hf a h

theorem Steady.pure (a : α) : Steady (Pure.pure a : Reader α) := fun _ _ h => .some a h

theorem Steady.bind {f : Reader α} {g : α → Reader β} (hf : Steady f) (hg : ∀ a, Steady (g a)) :
    Steady (f >>= g) := fun _ _ h => (hf h).bind hg

theorem SteadyAt.skipWS {f : Reader α} (hf : SteadyAt f) : Steady fun cur => f (skipWS cur) :=
  fun _ _ h => hf h.skipWS

/-- A helper that only skips, as a reader. -/
def skips (f : List UInt8 → Option (List UInt8)) : Reader Unit :=
  fun cur => (f cur).map (Prod.mk ())

theorem Steady.skips_bind {f g : List UInt8 → Option (List UInt8)} (hf : Steady (skips f))
    (hg : Steady (skips g)) : Steady (skips fun cur => (f cur).bind g) := by
  intro cur cur' h
  have hbind := (hf h).bind fun _ => hg
  have heq : ∀ cur, skips (fun cur => (f cur).bind g) cur
      = (skips f cur).bind fun p => skips g p.2 := by
    intro cur
    change ((f cur).bind g).map (Prod.mk ()) = ((f cur).map (Prod.mk ())).bind fun p => skips g p.2
    cases f cur <;> rfl
  rw [heq, heq]
  exact hbind

/-- A byte, if it is the one asked for, and whether it was. -/
def test (c : UInt8) : Reader Bool := fun cur =>
  match skipWS cur with
  | [] => some (false, [])
  | c' :: cur => if c' = c then some (true, cur) else some (false, c' :: cur)

/-- `peek() == c` -/
def look (c : UInt8) : Reader Bool := fun cur => some (peek cur = c, skipWS cur)

theorem test_steady {c : UInt8} (hc : isPunct c = true) : Steady (test c) := by
  intro cur cur' h
  have hstart := h.skipWS
  unfold test
  rcases hstart.uncons with ⟨hcur, hcur'⟩ | ⟨d, tail, tail', hcur, hcur', -, hpunct⟩
  · rw [hcur, hcur']
    exact .some false (Start.nil.spaced)
  · rw [hcur, hcur'] at hstart ⊢
    by_cases hd : d = c
    · subst hd
      simp only [if_true]
      exact .some true (hpunct hc)
    · simp only [if_neg hd]
      exact .some false hstart.spaced

theorem look_steady (c : UInt8) : Steady (look c) := by
  intro cur cur' h
  have hpeek : peek cur = peek cur' := by
    unfold peek
    rcases h.skipWS.uncons with ⟨hcur, hcur'⟩ | ⟨d, tail, tail', hcur, hcur', -, -⟩
    · rw [hcur, hcur']
    · rw [hcur, hcur']
      rfl
  unfold look
  rw [hpeek]
  exact .some _ h.skipWS.spaced

theorem expect_steady {c : UInt8} (hc : isPunct c = true) : Steady (skips (expect c)) := by
  intro cur cur' h
  unfold skips expect
  rcases h.skipWS.uncons with ⟨hcur, hcur'⟩ | ⟨d, tail, tail', hcur, hcur', -, hpunct⟩
  · rw [hcur, hcur']
    exact .none
  · rw [hcur, hcur']
    by_cases hd : d = c
    · subst hd
      simp only [if_true]
      exact .some () (hpunct hc)
    · simp only [if_neg hd]
      exact .none

/-! ## Strings -/

theorem skipChars_append {s : Bool} {chars tail : List UInt8} (rest : List UInt8)
    (h : skipChars s chars = some tail) : skipChars s (chars ++ rest) = some (tail ++ rest) := by
  induction chars generalizing s with
  | nil => cases s <;> cases h
  | cons c chars ih =>
    cases s with
    | true => exact ih h
    | false =>
      rw [skipChars] at h
      rw [List.cons_append, skipChars]
      by_cases hc : c = ch '"'
      · rw [if_pos hc] at h ⊢
        cases h
        rfl
      · rw [if_neg hc] at h ⊢
        exact ih h

theorem Closed.skipChars {chars : List UInt8} (h : Closed chars) (rest : List UInt8) :
    skipChars false (chars ++ ch '"' :: rest) = some rest := by
  have hskip := skipChars_append rest h
  rwa [List.append_assoc] at hskip

theorem skipString_steady : SteadyAt (skips skipString) := by
  intro cur cur' h
  unfold skips
  cases h with
  | nil => exact .none
  | @punct c _ _ hc =>
    have hne : c ≠ ch '"' := by
      rintro rfl
      exact absurd hc (by decide)
    rw [skipString, skipString, if_neg hne, if_neg hne]
    exact .none
  | @string chars cur cur' hchars h =>
    rw [skipString, skipString, if_pos rfl, if_pos rfl, hchars.skipChars, hchars.skipChars]
    exact .some () h
  | @literal l cur cur' hne hl =>
    obtain ⟨c, l, rfl⟩ := List.exists_cons_of_ne_nil hne
    have hquote := (isLiteral_iff.mp (hl c List.mem_cons_self)).2.2
    rw [List.cons_append, List.cons_append, skipString, skipString, if_neg hquote, if_neg hquote]
    exact .none

/-! ## Literals -/

/-- **A reader that stays within a literal.** -/
structure Local (f : Reader α) : Prop where
  nil : f [] = none
  other : ∀ c cur, isLiteral c = false → f (c :: cur) = none
  append : ∀ l, (∀ c ∈ l, isLiteral c = true) → ∀ rest, Parted rest →
    f (l ++ rest) = (f l).map fun p => (p.1, p.2 ++ rest)
  suffix : ∀ l a tail, f l = some (a, tail) → tail <:+ l

theorem Local.steady {f : Reader α} (hf : Local f) : SteadyAt f := by
  intro cur cur' h
  cases h with
  | nil =>
    rw [hf.nil]
    exact .none
  | @punct c _ _ hc =>
    have hliteral : isLiteral c = false := by
      rw [Bool.eq_false_iff]
      exact fun h => absurd hc (by rw [(isLiteral_iff.mp h).2.1]; exact Bool.false_ne_true)
    rw [hf.other _ _ hliteral, hf.other _ _ hliteral]
    exact .none
  | string =>
    rw [hf.other _ _ (by decide), hf.other _ _ (by decide)]
    exact .none
  | @literal l cur cur' hne hl hp hp' h =>
    rw [hf.append l hl cur hp, hf.append l hl cur' hp']
    cases hread : f l with
    | none => exact .none
    | some p => exact .some p.1 (spaced_suffix hl (hf.suffix l _ _ hread) hp hp' h)

theorem not_literal_of_parted {c : UInt8} {rest : List UInt8} (h : Parted (c :: rest)) :
    isLiteral c = false := h c rfl

theorem word_local {w : List UInt8} (hne : w ≠ []) (hw : ∀ c ∈ w, isLiteral c = true) :
    Local (skips (word w)) := by
  obtain ⟨b, w, rfl⟩ := List.exists_cons_of_ne_nil hne
  have hskips : ∀ cur, skips (word (b :: w)) cur
      = if cur.take (b :: w).length = b :: w then some ((), cur.drop (b :: w).length)
        else none := by
    intro cur
    unfold skips word
    split <;> rfl
  refine ⟨rfl, fun c cur hc => ?_, fun l hl rest hp => ?_, fun l a tail h => ?_⟩
  · rw [hskips, if_neg]
    intro h
    rw [(List.cons.inj h).1, hw b List.mem_cons_self] at hc
    cases hc
  · rw [hskips, hskips]
    by_cases hlength : (b :: w).length ≤ l.length
    · rw [List.take_append_of_le_length hlength, List.drop_append_of_le_length hlength]
      split <;> rfl
    · have hshort : ¬l.take (b :: w).length = b :: w := by
        intro h
        have := congrArg List.length h
        rw [List.length_take] at this
        omega
      have hlong : ¬(l ++ rest).take (b :: w).length = b :: w := by
        intro h
        cases rest with
        | nil => exact hshort (by rwa [List.append_nil] at h)
        | cons c rest =>
          have hmem : c ∈ (l ++ c :: rest).take (b :: w).length := by
            rw [List.take_append]
            refine List.mem_append_right _ ?_
            obtain ⟨n, hn⟩ := Nat.exists_eq_succ_of_ne_zero
              (by omega : (b :: w).length - l.length ≠ 0)
            rw [hn]
            exact List.mem_cons_self
          rw [h] at hmem
          have hliteral := not_literal_of_parted hp
          rw [hw c hmem] at hliteral
          cases hliteral
      rw [if_neg hshort, if_neg hlong]
      rfl
  · rw [hskips] at h
    split at h
    · cases h
      exact List.drop_suffix _ _
    · cases h

theorem isLiteral_of_isDigit {c : UInt8} (h : isDigit c = true) : isLiteral c = true := by
  have hbounds : 48 ≤ c.toNat ∧ c.toNat ≤ 57 := by
    simpa [isDigit, UInt8.le_iff_toNat_le] using h
  have hsmall : ∀ n : ℕ, 48 ≤ n → n ≤ 57 → isLiteral n.toUInt8 = true := by
    intro n hn hn'
    interval_cases n
    all_goals rfl
  have hliteral := hsmall c.toNat hbounds.1 hbounds.2
  rwa [Nat.toUInt8_eq, UInt8.ofNat_toNat] at hliteral

theorem not_isDigit_other {c : UInt8} (hc : isLiteral c = false) : ¬isDigit c = true := by
  intro h
  rw [isLiteral_of_isDigit h] at hc
  cases hc

theorem ne_of_parted {c d : UInt8} {rest : List UInt8} (h : Parted (c :: rest))
    (hd : isLiteral d = true) : c ≠ d := by
  rintro rfl
  have hliteral := h c rfl
  rw [hd] at hliteral
  cases hliteral

section

variable {rest : List UInt8}

theorem skipDigits_append (hp : Parted rest) (l : List UInt8) :
    skipDigits (l ++ rest) = skipDigits l ++ rest := by
  unfold skipDigits
  rw [List.dropWhile_append]
  split
  · rename_i hempty
    rw [List.isEmpty_iff.mp hempty, List.nil_append]
    cases rest with
    | nil => rfl
    | cons c rest =>
      exact List.dropWhile_cons_of_neg (not_isDigit_other (not_literal_of_parted hp))
  · rfl

theorem skipSign_append {signs : List UInt8} (hsigns : ∀ c ∈ signs, isLiteral c = true)
    (hp : Parted rest) (l : List UInt8) :
    skipSign signs (l ++ rest) = skipSign signs l ++ rest := by
  cases l with
  | nil =>
    cases rest with
    | nil => rfl
    | cons c rest => exact if_neg fun h => ne_of_parted hp (hsigns c h) rfl
  | cons c l =>
    rw [List.cons_append, skipSign, skipSign]
    split <;> rfl

theorem skipFraction_append (hp : Parted rest) (l : List UInt8) :
    skipFraction (l ++ rest) = skipFraction l ++ rest := by
  cases l with
  | nil =>
    cases rest with
    | nil => rfl
    | cons c rest => exact if_neg (ne_of_parted hp rfl)
  | cons c l =>
    rw [List.cons_append, skipFraction, skipFraction]
    split
    · exact skipDigits_append hp l
    · rfl

theorem signs_literal : ∀ c ∈ [ch '+', ch '-'], isLiteral c = true := by
  intro c hc
  rcases List.mem_pair.mp hc with rfl | rfl <;> rfl

theorem skipExponent_append (hp : Parted rest) (l : List UInt8) :
    skipExponent (l ++ rest) = skipExponent l ++ rest := by
  cases l with
  | nil =>
    cases rest with
    | nil => rfl
    | cons c rest => exact if_neg fun h => h.elim (ne_of_parted hp rfl) (ne_of_parted hp rfl)
  | cons c l =>
    rw [List.cons_append, skipExponent, skipExponent]
    split
    · rw [skipSign_append signs_literal hp, skipDigits_append hp]
    · rfl

theorem minus_literal : ∀ c ∈ [ch '-'], isLiteral c = true := by
  intro c hc
  rw [List.mem_singleton.mp hc]
  rfl

theorem skipNumber_append (hp : Parted rest) (l : List UInt8) :
    skipNumber (l ++ rest) = (skipNumber l).map (· ++ rest) := by
  unfold skipNumber
  rw [skipSign_append minus_literal hp]
  cases skipSign [ch '-'] l with
  | nil =>
    cases rest with
    | nil => rfl
    | cons c rest => exact if_neg (not_isDigit_other (not_literal_of_parted hp))
  | cons c l =>
    rw [List.cons_append]
    dsimp only
    split
    · rw [← List.cons_append, skipDigits_append hp, skipFraction_append hp, skipExponent_append hp]
      rfl
    · rfl

end

theorem skipDigits_suffix (l : List UInt8) : skipDigits l <:+ l := List.dropWhile_suffix _

theorem skipSign_suffix (signs l : List UInt8) : skipSign signs l <:+ l := by
  cases l with
  | nil => exact List.suffix_refl _
  | cons c l =>
    rw [skipSign]
    split
    · exact List.suffix_cons c l
    · exact List.suffix_refl _

theorem skipFraction_suffix (l : List UInt8) : skipFraction l <:+ l := by
  cases l with
  | nil => exact List.suffix_refl _
  | cons c l =>
    rw [skipFraction]
    split
    · exact (skipDigits_suffix l).trans (List.suffix_cons c l)
    · exact List.suffix_refl _

theorem skipExponent_suffix (l : List UInt8) : skipExponent l <:+ l := by
  cases l with
  | nil => exact List.suffix_refl _
  | cons c l =>
    rw [skipExponent]
    split
    · exact ((skipDigits_suffix _).trans (skipSign_suffix _ l)).trans (List.suffix_cons c l)
    · exact List.suffix_refl _

theorem skipNumber_suffix {l tail : List UInt8} (h : skipNumber l = some tail) : tail <:+ l := by
  have hsign := skipSign_suffix [ch '-'] l
  rw [skipNumber] at h
  cases hcur : skipSign [ch '-'] l with
  | nil =>
    rw [hcur] at h
    cases h
  | cons c cur =>
    rw [hcur] at h hsign
    dsimp only at h
    split at h
    · cases h
      exact (((skipExponent_suffix _).trans (skipFraction_suffix _)).trans
        (skipDigits_suffix _)).trans hsign
    · cases h

theorem skipSign_other {c : UInt8} (hc : isLiteral c = false) (cur : List UInt8) :
    skipSign [ch '-'] (c :: cur) = c :: cur := by
  refine if_neg fun h => ?_
  rw [minus_literal c h] at hc
  cases hc

theorem skipNumber_other {c : UInt8} (hc : isLiteral c = false) (cur : List UInt8) :
    skipNumber (c :: cur) = none := by
  rw [skipNumber, skipSign_other hc]
  exact if_neg (not_isDigit_other hc)

theorem skipNumber_local : Local (skips skipNumber) := by
  refine ⟨rfl, fun c cur hc => ?_, fun l _ rest hp => ?_, fun l a tail h => ?_⟩
  · unfold skips
    rw [skipNumber_other hc]
    rfl
  · unfold skips
    rw [skipNumber_append hp]
    cases skipNumber l <;> rfl
  · unfold skips at h
    obtain ⟨tail', htail, heq⟩ := Option.map_eq_some_iff.mp h
    cases heq
    exact skipNumber_suffix htail

/-! ## What is skipped -/

theorem afterEntry_steady {close : UInt8} (hclose : isPunct close = true) {done more : Reader α}
    (hdone : Steady done) (hmore : Steady more) :
    Steady (afterEntry close done more : Reader α) := by
  intro cur cur' h
  unfold afterEntry
  rcases h.skipWS.uncons with ⟨hcur, hcur'⟩ | ⟨c, tail, tail', hcur, hcur', -, hpunct⟩
  · rw [hcur, hcur']
    exact .none
  · rw [hcur, hcur']
    dsimp only
    by_cases hc : c = close
    · subst hc
      rw [if_pos rfl, if_pos rfl]
      exact hdone (hpunct hclose)
    by_cases hcomma : c = ch ','
    · subst hcomma
      rw [if_neg hc, if_neg hc, if_neg (not_not.mpr rfl), if_neg (not_not.mpr rfl)]
      exact hmore (hpunct rfl)
    · rw [if_neg hc, if_neg hc, if_pos hcomma, if_pos hcomma]
      exact .none

theorem afterEntry_skips {close : UInt8} (hclose : isPunct close = true)
    {more : List UInt8 → Option (List UInt8)} (hmore : Steady (skips more)) :
    Steady (skips (afterEntry close some more)) := by
  have heq : skips (afterEntry close some more)
      = (afterEntry close (fun cur => some ((), cur)) (skips more) : Reader Unit) := by
    funext cur
    change (afterEntry close some more cur).map (Prod.mk ()) = _
    unfold afterEntry skips
    cases skipWS cur with
    | nil => rfl
    | cons c cur =>
      dsimp only
      split
      · rfl
      · split <;> rfl
  rw [heq]
  exact afterEntry_steady hclose (fun _ _ h => .some () h) hmore

theorem closed_steady {close : UInt8} (hclose : isPunct close = true) (a : α) {more : Reader α}
    (hmore : Steady more) : Steady (fun cur =>
      if peek cur = close then some (a, (skipWS cur).tail) else more cur : Reader α) := by
  intro cur cur' h
  dsimp only
  unfold peek
  rcases h.skipWS.uncons with ⟨hcur, hcur'⟩ | ⟨c, tail, tail', hcur, hcur', -, hpunct⟩
  · have hzero : ¬([] : List UInt8).headD 0 = close := by
      rintro rfl
      cases hclose
    rw [hcur, hcur', if_neg hzero, if_neg hzero]
    exact hmore h
  · rw [hcur, hcur', List.headD_cons, List.headD_cons, List.tail_cons, List.tail_cons]
    by_cases hc : c = close
    · subst hc
      rw [if_pos rfl, if_pos rfl]
      exact .some a (hpunct hclose)
    · rw [if_neg hc, if_neg hc]
      exact hmore h

theorem closed_skips {close : UInt8} (hclose : isPunct close = true)
    {more : List UInt8 → Option (List UInt8)} (hmore : Steady (skips more)) :
    Steady (skips fun cur => if peek cur = close then some (skipWS cur).tail else more cur) := by
  have heq : skips (fun cur => if peek cur = close then some (skipWS cur).tail else more cur)
      = (fun cur => if peek cur = close then some ((), (skipWS cur).tail)
        else skips more cur : Reader Unit) := by
    funext cur
    change Option.map _ (if peek cur = close then some (skipWS cur).tail else more cur) = _
    split <;> rfl
  rw [heq]
  exact closed_steady hclose () hmore

section

variable {skip : List UInt8 → Option (List UInt8)}

theorem skipElems_steady (hskip : Steady (skips skip)) (turns : ℕ) :
    Steady (skips (skipElems skip turns)) := by
  induction turns with
  | zero => exact fun _ _ _ => .none
  | succ turns ih => exact hskip.skips_bind (afterEntry_skips rfl ih)

theorem skipArray_steady (hskip : Steady (skips skip)) (turns : ℕ) :
    Steady (skips (skipArray skip turns)) :=
  (expect_steady rfl).skips_bind (closed_skips rfl (skipElems_steady hskip turns))

theorem skipFields_steady (hskip : Steady (skips skip)) (turns : ℕ) :
    Steady (skips (skipFields skip turns)) := by
  induction turns with
  | zero => exact fun _ _ _ => .none
  | succ turns ih =>
    have hname : Steady (skips fun cur => skipString (skipWS cur)) := skipString_steady.skipWS
    exact hname.skips_bind
      ((expect_steady rfl).skips_bind (hskip.skips_bind (afterEntry_skips rfl ih)))

theorem skipObject_steady (hskip : Steady (skips skip)) (turns : ℕ) :
    Steady (skips (skipObject skip turns)) :=
  (expect_steady rfl).skips_bind (closed_skips rfl (skipFields_steady hskip turns))

end

theorem word_steady {w : List UInt8} (hne : w ≠ []) (hw : w.all isLiteral = true) :
    SteadyAt (skips (word w)) :=
  (word_local hne (List.all_eq_true.mp hw)).steady

theorem skipValue_steady (depth : ℕ) : Steady (skips (skipValue depth)) := by
  induction depth with
  | zero => exact fun _ _ _ => .none
  | succ depth ih =>
    intro cur cur' h
    have hstart := h.skipWS
    change SameRead ((skipValue (depth + 1) cur).map _) ((skipValue (depth + 1) cur').map _)
    unfold skipValue
    rcases hstart.uncons with ⟨hcur, hcur'⟩ | ⟨c, tail, tail', hcur, hcur', -, -⟩
    · rw [hcur, hcur']
      exact .none
    rw [hcur, hcur'] at hstart ⊢
    dsimp only
    split_ifs
    · exact skipString_steady hstart
    · exact (skipObject_steady ih depth).at hstart
    · exact (skipArray_steady ih depth).at hstart
    · exact word_steady (List.cons_ne_nil _ _) rfl hstart
    · exact word_steady (List.cons_ne_nil _ _) rfl hstart
    · exact word_steady (List.cons_ne_nil _ _) rfl hstart
    · exact skipNumber_local.steady hstart
    · exact .none

end

end JsonScanner

end DaScript
