import DaScript.Simulate.JsonSpaced

/-!
# Simulate/JsonReaders — numbers, words and strings are read

The `read` helpers of `JsonScanner` (`simulate/json_scan.cpp`).  They skip blanks first and then
stay within one token, so none of them tells one text of the same tokens from another.
-/

namespace DaScript

open Text

namespace JsonScanner

variable {α β : Type}

/-! ## Numbers and words -/

/-- What was read of a text. -/
def numberText (cur rest : List UInt8) : List UInt8 := cur.take (cur.length - rest.length)

/-- `readDouble` behind the blanks, with the `atof` of the library. -/
def doubleAt (atof : List UInt8 → α) : Reader α :=
  fun cur => (skipNumber cur).map fun rest => (atof (numberText cur rest), rest)

def readDouble (atof : List UInt8 → α) : Reader α := fun cur => doubleAt atof (skipWS cur)

/-- A dot, or an exponent. -/
def isReal (cur : List UInt8) : Bool :=
  cur.head? = some (ch '.') || cur.head? = some (ch 'e') || cur.head? = some (ch 'E')

/-- `readInt64` behind the blanks: what has a dot or an exponent is a `double`. -/
def intAt (atoll : List UInt8 → ℤ) (atof : List UInt8 → α) (toInt64 : α → ℤ) : Reader ℤ :=
  fun cur =>
    match skipSign [ch '-'] cur with
    | [] => none
    | c :: digits =>
      if isDigit c then
        if isReal (skipDigits (c :: digits)) then
          (doubleAt atof cur).map fun p => (toInt64 p.1, p.2)
        else some (atoll (numberText cur (skipDigits (c :: digits))), skipDigits (c :: digits))
      else none

def readInt64 (atoll : List UInt8 → ℤ) (atof : List UInt8 → α) (toInt64 : α → ℤ) : Reader ℤ :=
  fun cur => intAt atoll atof toInt64 (skipWS cur)

def readBool : Reader Bool := fun cur =>
  match word (text "true") (skipWS cur) with
  | some cur => some (true, cur)
  | none => (word (text "false") (skipWS cur)).map (Prod.mk false)

/-- `isNull`, and whether it was. -/
def testNull : Reader Bool := fun cur =>
  match isNull cur with
  | some cur => some (true, cur)
  | none => some (false, skipWS cur)

theorem numberText_append {l tail : List UInt8} (h : tail <:+ l) (rest : List UInt8) :
    numberText (l ++ rest) (tail ++ rest) = numberText l tail := by
  have hlength := h.length_le
  rw [numberText, numberText, List.length_append, List.length_append, Nat.add_sub_add_right]
  exact List.take_append_of_le_length (Nat.sub_le _ _)

theorem doubleAt_local (atof : List UInt8 → α) : Local (doubleAt atof) := by
  refine ⟨rfl, fun c cur hc => ?_, fun l _ rest hp => ?_, fun l a tail h => ?_⟩
  · unfold doubleAt
    rw [skipNumber_other hc]
    rfl
  · unfold doubleAt
    rw [skipNumber_append hp]
    cases hskip : skipNumber l with
    | none => rfl
    | some tail =>
      simp only [Option.map_some, numberText_append (skipNumber_suffix hskip)]
  · unfold doubleAt at h
    obtain ⟨tail', htail, heq⟩ := Option.map_eq_some_iff.mp h
    cases heq
    exact skipNumber_suffix htail

theorem isReal_append {rest : List UInt8} (hp : Parted rest) (l : List UInt8) :
    isReal (l ++ rest) = isReal l := by
  cases l with
  | cons => rfl
  | nil =>
    cases rest with
    | nil => rfl
    | cons c rest =>
      have hdot : c ≠ ch '.' := ne_of_parted hp rfl
      have he : c ≠ ch 'e' := ne_of_parted hp rfl
      have hE : c ≠ ch 'E' := ne_of_parted hp rfl
      simp [isReal, hdot, he, hE]

theorem intAt_local (atoll : List UInt8 → ℤ) (atof : List UInt8 → α) (toInt64 : α → ℤ) :
    Local (intAt atoll atof toInt64) := by
  refine ⟨rfl, fun c cur hc => ?_, fun l hl rest hp => ?_, fun l a tail h => ?_⟩
  · unfold intAt
    rw [skipSign_other hc]
    exact if_neg (not_isDigit_other hc)
  · have hsign := skipSign_suffix [ch '-'] l
    unfold intAt
    rw [skipSign_append minus_literal hp]
    cases hcur : skipSign [ch '-'] l with
    | nil =>
      cases rest with
      | nil => rfl
      | cons c rest => exact if_neg (not_isDigit_other (not_literal_of_parted hp))
    | cons c digits =>
      rw [hcur] at hsign
      rw [List.cons_append]
      dsimp only
      rw [← List.cons_append, skipDigits_append hp, isReal_append hp, (doubleAt_local atof).append
        l hl rest hp, numberText_append ((skipDigits_suffix _).trans hsign)]
      split_ifs
      · cases doubleAt atof l <;> rfl
      · rfl
      · rfl
  · have hsign := skipSign_suffix [ch '-'] l
    unfold intAt at h
    cases hcur : skipSign [ch '-'] l with
    | nil =>
      rw [hcur] at h
      cases h
    | cons c digits =>
      rw [hcur] at h hsign
      dsimp only at h
      split_ifs at h
      · obtain ⟨p, hp, heq⟩ := Option.map_eq_some_iff.mp h
        cases heq
        exact (doubleAt_local atof).suffix l p.1 p.2 hp
      · cases h
        exact (skipDigits_suffix _).trans hsign

theorem readDouble_steady (atof : List UInt8 → α) : Steady (readDouble atof) :=
  (doubleAt_local atof).steady.skipWS

theorem readInt64_steady (atoll : List UInt8 → ℤ) (atof : List UInt8 → α) (toInt64 : α → ℤ) :
    Steady (readInt64 atoll atof toInt64) :=
  (intAt_local atoll atof toInt64).steady.skipWS

theorem sameRead_skips {f : List UInt8 → Option (List UInt8)} {cur cur' : List UInt8}
    (h : SameRead (skips f cur) (skips f cur')) : f cur = none ∧ f cur' = none ∨
      ∃ tail tail', f cur = some tail ∧ f cur' = some tail' ∧ Spaced tail tail' := by
  unfold skips at h
  cases hcur : f cur with
  | none =>
    cases hcur' : f cur' with
    | none => exact Or.inl ⟨rfl, rfl⟩
    | some tail' =>
      rw [hcur, hcur'] at h
      cases h
  | some tail =>
    cases hcur' : f cur' with
    | none =>
      rw [hcur, hcur'] at h
      cases h
    | some tail' =>
      rw [hcur, hcur'] at h
      cases h with
      | some a h => exact Or.inr ⟨tail, tail', rfl, rfl, h⟩

theorem readBool_steady : Steady readBool := by
  intro cur cur' h
  have hstart := h.skipWS
  unfold readBool
  rcases sameRead_skips (word_steady (w := text "true") (List.cons_ne_nil _ _) rfl hstart) with
    ⟨hcur, hcur'⟩ | ⟨tail, tail', hcur, hcur', htail⟩
  · rw [hcur, hcur']
    dsimp only
    rcases sameRead_skips (word_steady (w := text "false") (List.cons_ne_nil _ _) rfl hstart) with
      ⟨hcur, hcur'⟩ | ⟨tail, tail', hcur, hcur', htail⟩
    · rw [hcur, hcur']
      exact .none
    · rw [hcur, hcur']
      exact .some false htail
  · rw [hcur, hcur']
    exact .some true htail

theorem testNull_steady : Steady testNull := by
  intro cur cur' h
  have hstart := h.skipWS
  unfold testNull isNull
  rcases sameRead_skips (word_steady (w := text "null") (List.cons_ne_nil _ _) rfl hstart) with
    ⟨hcur, hcur'⟩ | ⟨tail, tail', hcur, hcur', htail⟩
  · rw [hcur, hcur']
    exact .some false hstart.spaced
  · rw [hcur, hcur']
    exact .some true htail

/-! ## Strings -/

/-- **What a reader does within a string**: it fails, or leaves what ends the string. -/
def Within (f : Reader α) (chars : List UInt8) : Prop :=
  (∀ rest, f (chars ++ ch '"' :: rest) = none) ∨
    ∃ a chars', Closed chars' ∧ chars'.length ≤ chars.length ∧
      ∀ rest, f (chars ++ ch '"' :: rest) = some (a, chars' ++ ch '"' :: rest)

theorem closed_nil : Closed [] := rfl

theorem Closed.uncons {c : UInt8} {chars : List UInt8} (h : Closed (c :: chars)) :
    c ≠ ch '"' ∧ (c ≠ ch '\\' → Closed chars) ∧
      (c = ch '\\' → ∃ e chars', chars = e :: chars' ∧ Closed chars') := by
  have hquote : c ≠ ch '"' := by
    rintro rfl
    have hnil : some (chars ++ [ch '"']) = some [] := h
    exact List.append_ne_nil_of_right_ne_nil chars (List.cons_ne_nil _ _) (Option.some.inj hnil)
  have hskip : JsonScanner.skipChars (decide (c = ch '\\')) (chars ++ [ch '"']) = some [] :=
    (if_neg hquote).symm.trans h
  refine ⟨hquote, fun hescape => ?_, fun hescape => ?_⟩
  · rwa [decide_eq_false hescape] at hskip
  · rw [decide_eq_true hescape] at hskip
    cases chars with
    | nil => cases hskip
    | cons e chars => exact ⟨e, chars, rfl, hskip⟩

theorem Within.map {f : Reader α} {chars : List UInt8} (g : α → β) (h : Within f chars) :
    Within (fun cur => (f cur).map fun p => (g p.1, p.2) : Reader β) chars := by
  rcases h with h | ⟨a, chars', hclosed, hlength, h⟩
  · exact Or.inl fun rest => congrArg (Option.map fun p => (g p.1, p.2)) (h rest)
  · exact Or.inr ⟨g a, chars', hclosed, hlength, fun rest =>
      congrArg (Option.map fun p => (g p.1, p.2)) (h rest)⟩

theorem within_pure (a : α) {chars : List UInt8} (h : Closed chars) :
    Within (fun cur => some (a, cur) : Reader α) chars :=
  Or.inr ⟨a, chars, h, le_rfl, fun _ => rfl⟩

theorem readHex_cons (n : ℕ) (cp : UInt32) (c : UInt8) (cur : List UInt8) :
    readHex (n + 1) cp (c :: cur)
      = match hexChar c with
        | none => none
        | some h => readHex n ((cp <<< 4) ||| h.toUInt32) cur := rfl

theorem readHex_within (n : ℕ) (cp : UInt32) {chars : List UInt8} (h : Closed chars) :
    Within (readHex n cp) chars := by
  induction n generalizing cp chars with
  | zero => exact within_pure cp h
  | succ n ih =>
    cases chars with
    | nil => exact Or.inl fun _ => rfl
    | cons c chars =>
      cases hc : hexChar c with
      | none => exact Or.inl fun rest => by rw [List.cons_append, readHex_cons, hc]
      | some d =>
        have hescape : c ≠ ch '\\' := by
          rintro rfl
          cases hc
        rcases ih ((cp <<< 4) ||| d.toUInt32) (h.uncons.2.1 hescape) with
          hnone | ⟨a, chars', hclosed, hlength, hsome⟩
        · exact Or.inl fun rest => by
            rw [List.cons_append, readHex_cons, hc]
            exact hnone rest
        · exact Or.inr ⟨a, chars', hclosed, hlength.trans (Nat.le_succ _), fun rest => by
            rw [List.cons_append, readHex_cons, hc]
            exact hsome rest⟩

theorem readSurrogate_within (cp : UInt32) {chars : List UInt8} (h : Closed chars) :
    Within (readSurrogate cp) chars := by
  by_cases hhigh : 0xD800 ≤ cp ∧ cp ≤ 0xDBFF
  swap
  · exact Or.inr ⟨cp, chars, h, le_rfl, fun _ => if_neg hhigh⟩
  match chars, h with
  | [], h =>
    refine Or.inr ⟨cp, [], h, le_rfl, fun rest => (if_pos hhigh).trans ?_⟩
    cases rest <;> rfl
  | [c], h =>
    refine Or.inr ⟨cp, [c], h, le_rfl, fun rest => (if_pos hhigh).trans (if_neg ?_)⟩
    exact fun h => absurd h.2 (by decide)
  | c :: c' :: chars, h =>
    by_cases hescape : c = ch '\\' ∧ c' = ch 'u'
    · obtain ⟨e, chars', heq, hclosed⟩ := h.uncons.2.2 hescape.1
      obtain ⟨-, rfl⟩ := List.cons.inj heq
      have hread : ∀ rest, readSurrogate cp (c :: c' :: chars ++ ch '"' :: rest)
          = (readHex 4 0 (chars ++ ch '"' :: rest)).map fun p =>
            ((0x10000 : UInt32) + ((cp - 0xD800) <<< 10) + (p.1 - 0xDC00), p.2) :=
        fun rest => (if_pos hhigh).trans (if_pos hescape)
      rcases (readHex_within 4 0 hclosed).map
        (fun lo => (0x10000 : UInt32) + ((cp - 0xD800) <<< 10) + (lo - 0xDC00)) with
        hnone | ⟨a, chars', hclosed', hlength, hsome⟩
      · exact Or.inl fun rest => (hread rest).trans (hnone rest)
      · refine Or.inr ⟨a, chars', hclosed', ?_, fun rest => (hread rest).trans (hsome rest)⟩
        simp only [List.length_cons]
        omega
    · exact Or.inr ⟨cp, c :: c' :: chars, h, le_rfl, fun rest =>
        (if_pos hhigh).trans (if_neg hescape)⟩

theorem readEscape_within (c : UInt8) {chars : List UInt8} (h : Closed chars) :
    Within (readEscape c) chars := by
  by_cases hu : c = ch 'u'
  · subst hu
    have hread : ∀ cur, readEscape (ch 'u') cur = (readHex 4 0 cur).bind fun p =>
        (readSurrogate p.1 p.2).map fun p => (appendUtf8 p.1, p.2) := fun _ => rfl
    rcases readHex_within 4 0 h with hnone | ⟨cp, chars', hclosed, hlength, hsome⟩
    · exact Or.inl fun rest => by rw [hread, hnone]; rfl
    · rcases (readSurrogate_within cp hclosed).map appendUtf8 with
        hnone | ⟨a, chars'', hclosed', hlength', hsome'⟩
      · exact Or.inl fun rest => by rw [hread, hsome]; exact hnone rest
      · exact Or.inr ⟨a, chars'', hclosed', hlength'.trans hlength, fun rest => by
          rw [hread, hsome]
          exact hsome' rest⟩
  · unfold readEscape
    split_ifs
    iterate 8 exact within_pure _ h
    exact Or.inl fun _ => rfl

theorem readChars_within : ∀ (n : ℕ) (chars : List UInt8), chars.length ≤ n → Closed chars →
    (∀ rest turns, chars.length < turns → readChars turns (chars ++ ch '"' :: rest) = none) ∨
      ∃ v, ∀ rest turns, chars.length < turns →
        readChars turns (chars ++ ch '"' :: rest) = some (v, rest)
  | _, [], _, _ => Or.inr ⟨[], fun rest turns hturns => by
      obtain ⟨turns, rfl⟩ := Nat.exists_eq_succ_of_ne_zero hturns.ne'
      rfl⟩
  | n + 1, c :: chars, hn, h => by
    rw [List.length_cons] at hn
    obtain ⟨hquote, hplain, hescape⟩ := h.uncons
    by_cases hc : c = ch '\\'
    · obtain ⟨e, chars', rfl, hclosed⟩ := hescape hc
      rw [List.length_cons] at hn
      have hread : ∀ rest turns, readChars (turns + 1) (c :: e :: chars' ++ ch '"' :: rest)
          = (readEscape e (chars' ++ ch '"' :: rest)).bind fun p =>
            (readChars turns p.2).map fun q => (p.1 ++ q.1, q.2) :=
        fun rest turns => (if_neg hquote).trans (if_pos hc)
      rcases readEscape_within e hclosed with hnone | ⟨a, chars'', hclosed', hlength, hsome⟩
      · refine Or.inl fun rest turns hturns => ?_
        obtain ⟨turns, rfl⟩ := Nat.exists_eq_succ_of_ne_zero (Nat.ne_zero_of_lt hturns)
        rw [hread, hnone]
        rfl
      · rcases readChars_within n chars'' (by omega) hclosed' with hnone | ⟨v, hsome'⟩
        · refine Or.inl fun rest turns hturns => ?_
          obtain ⟨turns, rfl⟩ := Nat.exists_eq_succ_of_ne_zero (Nat.ne_zero_of_lt hturns)
          simp only [List.length_cons] at hturns
          rw [hread, hsome, Option.bind_some, hnone rest turns (by omega)]
          rfl
        · refine Or.inr ⟨a ++ v, fun rest turns hturns => ?_⟩
          obtain ⟨turns, rfl⟩ := Nat.exists_eq_succ_of_ne_zero (Nat.ne_zero_of_lt hturns)
          simp only [List.length_cons] at hturns
          rw [hread, hsome, Option.bind_some, hsome' rest turns (by omega)]
          rfl
    · rcases readChars_within n chars (by omega) (hplain hc) with hnone | ⟨v, hsome⟩
      · refine Or.inl fun rest turns hturns => ?_
        obtain ⟨turns, rfl⟩ := Nat.exists_eq_succ_of_ne_zero (Nat.ne_zero_of_lt hturns)
        rw [List.cons_append, readChars_plain hquote hc,
          hnone rest turns (Nat.lt_of_succ_lt_succ hturns)]
        rfl
      · refine Or.inr ⟨c :: v, fun rest turns hturns => ?_⟩
        obtain ⟨turns, rfl⟩ := Nat.exists_eq_succ_of_ne_zero (Nat.ne_zero_of_lt hturns)
        rw [List.cons_append, readChars_plain hquote hc,
          hsome rest turns (Nat.lt_of_succ_lt_succ hturns)]
        rfl

theorem readString_steady : Steady (readString : Reader (List UInt8)) := by
  intro cur cur' h
  have hstart := h.skipWS
  unfold readString
  generalize skipWS cur = x, skipWS cur' = x' at hstart ⊢
  cases hstart with
  | nil => exact .none
  | @punct c _ _ hc =>
    have hne : c ≠ ch '"' := by
      rintro rfl
      exact absurd hc (by decide)
    dsimp only
    rw [if_neg hne, if_neg hne]
    exact .none
  | @literal l cur cur' hne hl =>
    obtain ⟨c, l, rfl⟩ := List.exists_cons_of_ne_nil hne
    have hquote := (isLiteral_iff.mp (hl c List.mem_cons_self)).2.2
    rw [List.cons_append, List.cons_append]
    dsimp only
    rw [if_neg hquote, if_neg hquote]
    exact .none
  | @string chars cur cur' hchars h =>
    dsimp only
    rw [if_pos rfl, if_pos rfl]
    have hlength : ∀ rest, chars.length < (chars ++ ch '"' :: rest).length := by
      intro rest
      rw [List.length_append, List.length_cons]
      omega
    rcases readChars_within chars.length chars le_rfl hchars with hnone | ⟨v, hsome⟩
    · rw [hnone _ _ (hlength _), hnone _ _ (hlength _)]
      exact .none
    · rw [hsome _ _ (hlength _), hsome _ _ (hlength _)]
      exact .some v h

end JsonScanner

end DaScript
