import DaScript.Daslib.Utf8Utils

/-!
# Daslib/Utf8Exact — the automaton accepts UTF-8, and decodes it

A codepoint is a `Char`, and its bytes are `String.utf8EncodeChar`.  Between the two and the
automaton stand the well-formed byte sequences, each with the number it spells (`Spells`).
-/

namespace DaScript.Utf8Utils

/-- **A well-formed sequence of bytes, and the number it spells.** -/
inductive Spells : List UInt8 → ℕ → Prop
  | one (a : UInt8) (ha : a.toNat < 0x80) : Spells [a] a.toNat
  | two (a b : UInt8) (ha : 0xC2 ≤ a.toNat ∧ a.toNat ≤ 0xDF) (hb : Continues b.toNat) :
      Spells [a, b] ((a.toNat - 0xC0) * 64 + (b.toNat - 0x80))
  | three (a b c : UInt8) (ha : 0xE0 ≤ a.toNat ∧ a.toNat ≤ 0xEF) (hb : Continues b.toNat)
      (hlong : a.toNat = 0xE0 → 0xA0 ≤ b.toNat) (hsurrogate : a.toNat = 0xED → b.toNat ≤ 0x9F)
      (hc : Continues c.toNat) :
      Spells [a, b, c] (((a.toNat - 0xE0) * 64 + (b.toNat - 0x80)) * 64 + (c.toNat - 0x80))
  | four (a b c d : UInt8) (ha : 0xF0 ≤ a.toNat ∧ a.toNat ≤ 0xF4) (hb : Continues b.toNat)
      (hlong : a.toNat = 0xF0 → 0x90 ≤ b.toNat) (hlarge : a.toNat = 0xF4 → b.toNat ≤ 0x8F)
      (hc : Continues c.toNat) (hd : Continues d.toNat) :
      Spells [a, b, c, d] ((((a.toNat - 0xF0) * 64 + (b.toNat - 0x80)) * 64 + (c.toNat - 0x80)) *
        64 + (d.toNat - 0x80))

/-! ## Codepoints -/

theorem and_low (n : ℕ) : n &&& 0x3F = n % 64 := Nat.and_two_pow_sub_one_eq_mod n 6

theorem Codepoint.bounds (c : Char) :
    c.val.toNat < 0xD800 ∨ 0xDFFF < c.val.toNat ∧ c.val.toNat < 0x110000 := c.valid

theorem encoded_eq (c : Char) : encoded c.val.toNat = String.utf8EncodeChar c := by
  have hbounds := Codepoint.bounds c
  unfold encoded String.utf8EncodeChar
  generalize c.val.toNat = v at hbounds
  simp only [and_low, Nat.shiftRight_eq_div_pow]
  by_cases hone : v < 0x80
  · rw [if_pos hone, if_pos (show v ≤ 0x7F by omega)]
  rw [if_neg hone, if_neg (show ¬ v ≤ 0x7F by omega)]
  by_cases htwo : v < 0x800
  · rw [if_pos htwo, if_pos (show v ≤ 0x7FF by omega),
      show 0xC0 + v / 2 ^ 6 = v / 64 % 0x20 + 0xC0 by omega,
      Nat.add_comm 0x80]
  rw [if_neg htwo, if_neg (show ¬ v ≤ 0x7FF by omega)]
  by_cases hthree : v < 0x10000
  · rw [if_pos hthree, if_pos (show v ≤ 0xFFFF by omega),
      show 0xE0 + v / 2 ^ 12 = v / 4096 % 0x10 + 0xE0 by omega,
      show 0x80 + v / 2 ^ 6 % 64 = v / 64 % 0x40 + 0x80 by omega, Nat.add_comm 0x80]
  · rw [if_neg hthree, if_neg (show ¬ v ≤ 0xFFFF by omega),
      show 0xF0 + v / 2 ^ 18 = v / 262144 % 0x08 + 0xF0 by omega,
      show 0x80 + v / 2 ^ 12 % 64 = v / 4096 % 0x40 + 0x80 by omega,
      show 0x80 + v / 2 ^ 6 % 64 = v / 64 % 0x40 + 0x80 by omega, Nat.add_comm 0x80]

theorem spells_encoded {v : ℕ} (hv : v < 0xD800 ∨ 0xDFFF < v ∧ v < 0x110000) :
    Spells (encoded v) v := by
  have hbyte : ∀ n < 256, (UInt8.ofNat n).toNat = n := fun n hn => UInt8.toNat_ofNat_of_lt' hn
  unfold encoded
  simp only [and_low, Nat.shiftRight_eq_div_pow]
  by_cases hone : v < 0x80
  · have hspells := Spells.one (UInt8.ofNat v) (by rw [hbyte v (by omega)]; exact hone)
    rw [hbyte v (by omega)] at hspells
    rw [if_pos hone]
    exact hspells
  rw [if_neg hone]
  have hlow := hbyte (0x80 + v % 64) (by omega)
  by_cases htwo : v < 0x800
  · have hfirst := hbyte (0xC0 + v / 2 ^ 6) (by omega)
    have hspells := Spells.two (UInt8.ofNat (0xC0 + v / 2 ^ 6)) (UInt8.ofNat (0x80 + v % 64))
      (by omega) (by rw [Continues]; omega)
    rw [hfirst, hlow, show (0xC0 + v / 2 ^ 6 - 0xC0) * 64 + (0x80 + v % 64 - 0x80) = v by omega]
      at hspells
    rw [if_pos htwo]
    exact hspells
  rw [if_neg htwo]
  have hmiddle := hbyte (0x80 + v / 2 ^ 6 % 64) (by omega)
  by_cases hthree : v < 0x10000
  · have hfirst := hbyte (0xE0 + v / 2 ^ 12) (by omega)
    have hspells := Spells.three (UInt8.ofNat (0xE0 + v / 2 ^ 12))
      (UInt8.ofNat (0x80 + v / 2 ^ 6 % 64)) (UInt8.ofNat (0x80 + v % 64)) (by omega)
      (by rw [Continues]; omega) (by omega) (by omega) (by rw [Continues]; omega)
    rw [hfirst, hmiddle, hlow, show ((0xE0 + v / 2 ^ 12 - 0xE0) * 64 +
      (0x80 + v / 2 ^ 6 % 64 - 0x80)) * 64 + (0x80 + v % 64 - 0x80) = v by omega] at hspells
    rw [if_pos hthree]
    exact hspells
  · have hfirst := hbyte (0xF0 + v / 2 ^ 18) (by omega)
    have hsecond := hbyte (0x80 + v / 2 ^ 12 % 64) (by omega)
    have hspells := Spells.four (UInt8.ofNat (0xF0 + v / 2 ^ 18))
      (UInt8.ofNat (0x80 + v / 2 ^ 12 % 64)) (UInt8.ofNat (0x80 + v / 2 ^ 6 % 64))
      (UInt8.ofNat (0x80 + v % 64)) (by omega) (by rw [Continues]; omega) (by omega) (by omega)
      (by rw [Continues]; omega) (by rw [Continues]; omega)
    rw [hfirst, hsecond, hmiddle, hlow, show (((0xF0 + v / 2 ^ 18 - 0xF0) * 64 +
      (0x80 + v / 2 ^ 12 % 64 - 0x80)) * 64 + (0x80 + v / 2 ^ 6 % 64 - 0x80)) * 64 +
      (0x80 + v % 64 - 0x80) = v by omega] at hspells
    rw [if_neg hthree]
    exact hspells

theorem Spells.encoded {bs : List UInt8} {v : ℕ} (h : Spells bs v) :
    (v < 0xD800 ∨ 0xDFFF < v ∧ v < 0x110000) ∧ Utf8Utils.encoded v = bs := by
  have hbyte : ∀ {n : ℕ} {b : UInt8}, n = b.toNat → UInt8.ofNat n = b := by
    rintro n b rfl
    exact UInt8.ofNat_toNat
  unfold Utf8Utils.encoded
  simp only [and_low, Nat.shiftRight_eq_div_pow]
  cases h with
  | one a ha => exact ⟨Or.inl (by omega), by rw [if_pos ha, hbyte rfl]⟩
  | two a b ha hb =>
    rw [Continues] at hb
    refine ⟨Or.inl (by omega), ?_⟩
    rw [if_neg (by omega), if_pos (by omega), hbyte (b := a) (by omega), hbyte (b := b) (by omega)]
  | three a b c ha hb hlong hsurrogate hc =>
    rw [Continues] at hb hc
    refine ⟨by omega, ?_⟩
    rw [if_neg (by omega), if_neg (by omega), if_pos (by omega), hbyte (b := a) (by omega),
      hbyte (b := b) (by omega), hbyte (b := c) (by omega)]
  | four a b c d ha hb hlong hlarge hc hd =>
    rw [Continues] at hb hc hd
    refine ⟨Or.inr (by omega), ?_⟩
    rw [if_neg (by omega), if_neg (by omega), if_neg (by omega), hbyte (b := a) (by omega),
      hbyte (b := b) (by omega), hbyte (b := c) (by omega), hbyte (b := d) (by omega)]

theorem spells_iff {bs : List UInt8} {v : ℕ} :
    Spells bs v ↔ ∃ c : Char, c.val.toNat = v ∧ String.utf8EncodeChar c = bs := by
  constructor
  · intro h
    obtain ⟨hv, hbs⟩ := h.encoded
    have hval : (UInt32.ofNat v).toNat = v := UInt32.toNat_ofNat_of_lt' (by
      show v < 2 ^ 32
      omega)
    have hvalid : (UInt32.ofNat v).isValidChar := by
      show Nat.isValidChar (UInt32.ofNat v).toNat
      rw [hval]
      exact hv
    refine ⟨⟨UInt32.ofNat v, hvalid⟩, hval, ?_⟩
    rw [← encoded_eq]
    exact (congrArg _ hval).trans hbs
  · rintro ⟨c, rfl, rfl⟩
    rw [← encoded_eq]
    exact spells_encoded (Codepoint.bounds c)

/-! ## Steps of the automaton -/

theorem nextState_byte {state : ℕ} (hstate : state ∈ states) (b : UInt8) :
    nextState state b.toNat = row state (classInRanges b.toNat) :=
  nextState_eq hstate b.toNat_lt

theorem nextCodepoint_first (codepoint : ℕ) (b : UInt8) :
    nextCodepoint 0 codepoint b.toNat = (0xFF >>> classInRanges b.toNat) &&& b.toNat := by
  rw [nextCodepoint, utf8Accept, if_neg (not_not.mpr rfl), classOf_eq _ b.toNat_lt]

theorem nextCodepoint_later {state codepoint : ℕ} {b : UInt8} (hstate : state ≠ 0)
    (hb : Continues b.toNat) (hcodepoint : codepoint < 2 ^ 26) :
    nextCodepoint state codepoint b.toNat = codepoint * 64 + (b.toNat - 0x80) := by
  rw [nextCodepoint, utf8Accept, if_pos hstate, later_bits hb hcodepoint]

/-- Running through `bs` brings one from a state to another; `out` is what is decoded. -/
def Advances (bs : List UInt8) (state codepoint state' codepoint' : ℕ) (out : List ℕ) : Prop :=
  ∀ rest, lastState state codepoint (bs ++ rest) = lastState state' codepoint' rest ∧
    decodeFrom state codepoint (bs ++ rest) = out ++ decodeFrom state' codepoint' rest

namespace Advances

variable {bs bs' : List UInt8} {out out' : List ℕ}
  {state codepoint state' codepoint' state'' codepoint'' : ℕ}

theorem trans (h : Advances bs state codepoint state' codepoint' out)
    (h' : Advances bs' state' codepoint' state'' codepoint'' out') :
    Advances (bs ++ bs') state codepoint state'' codepoint'' (out ++ out') := by
  intro rest
  obtain ⟨hlast, hdecode⟩ := h (bs' ++ rest)
  obtain ⟨hlast', hdecode'⟩ := h' rest
  rw [List.append_assoc, List.append_assoc, hlast, hlast', hdecode, hdecode']
  exact ⟨rfl, rfl⟩

theorem more {b : UInt8} (hstate : nextState state b.toNat = state') (hne : state' ≠ 0)
    (hcodepoint : nextCodepoint state codepoint b.toNat = codepoint') :
    Advances [b] state codepoint state' codepoint' [] := by
  subst hstate hcodepoint
  exact fun rest => ⟨rfl, if_neg hne⟩

theorem last {b : UInt8} (hstate : nextState state b.toNat = 0)
    (hcodepoint : nextCodepoint state codepoint b.toNat = codepoint') :
    Advances [b] state codepoint 0 codepoint' [codepoint'] := by
  subst hcodepoint
  intro rest
  refine ⟨?_, ?_⟩
  · rw [← hstate]
    rfl
  · rw [← hstate]
    exact if_pos hstate

theorem last_continues {b : UInt8} (hb : Continues b.toNat) (hcodepoint : codepoint < 2 ^ 26) :
    Advances [b] 24 codepoint 0 (codepoint * 64 + (b.toNat - 0x80))
      [codepoint * 64 + (b.toNat - 0x80)] := by
  refine last ?_ (nextCodepoint_later (by decide) hb hcodepoint)
  rw [nextState_byte (by decide), row_one _ b.toNat_lt, if_pos hb]

theorem two_continue {b c : UInt8} (hb : Continues b.toNat) (hc : Continues c.toNat)
    (hcodepoint : codepoint < 2 ^ 20) :
    Advances [b, c] 36 codepoint 0
      ((codepoint * 64 + (b.toNat - 0x80)) * 64 + (c.toNat - 0x80))
      [(codepoint * 64 + (b.toNat - 0x80)) * 64 + (c.toNat - 0x80)] := by
  have hfirst : Advances [b] 36 codepoint 24 (codepoint * 64 + (b.toNat - 0x80)) [] := by
    refine more ?_ (by decide) (nextCodepoint_later (by decide) hb (by omega))
    rw [nextState_byte (by decide), row_two _ b.toNat_lt, if_pos hb]
  have := hb.2
  exact hfirst.trans (last_continues hc (by omega))

theorem first_two {bits : ℕ} {a b : UInt8}
    (hbits : (0xFF >>> classInRanges a.toNat) &&& a.toNat = bits) (hlt : bits < 2 ^ 26)
    (hne : state ≠ 0) (hne' : state' ≠ 0) (hstate : nextState 0 a.toNat = state)
    (hb : Continues b.toNat) (hnext : nextState state b.toNat = state') :
    Advances [a, b] 0 codepoint state' (bits * 64 + (b.toNat - 0x80)) [] := by
  have hone : Advances [a] 0 codepoint state bits [] :=
    more hstate hne ((nextCodepoint_first codepoint a).trans hbits)
  exact hone.trans (more hnext hne' (nextCodepoint_later hne hb hlt))

end Advances

theorem row_first (b : UInt8) : nextState 0 b.toNat =
    if b.toNat < 0x80 then 0
    else if 0xC2 ≤ b.toNat ∧ b.toNat ≤ 0xDF then 24
    else if b.toNat = 0xE0 then 48
    else if b.toNat = 0xED then 60
    else if 0xE1 ≤ b.toNat ∧ b.toNat ≤ 0xEF then 36
    else if b.toNat = 0xF0 then 72
    else if b.toNat = 0xF4 then 96
    else if 0xF1 ≤ b.toNat ∧ b.toNat ≤ 0xF3 then 84
    else 12 := by
  rw [nextState_byte (by decide), row_accept _ b.toNat_lt]

theorem advances_three (codepoint : ℕ) {a b : UInt8} (ha : 0xE0 ≤ a.toNat ∧ a.toNat ≤ 0xEF)
    (hb : Continues b.toNat) (hlong : a.toNat = 0xE0 → 0xA0 ≤ b.toNat)
    (hsurrogate : a.toNat = 0xED → b.toNat ≤ 0x9F) :
    Advances [a, b] 0 codepoint 24 ((a.toNat - 0xE0) * 64 + (b.toNat - 0x80)) [] := by
  have hfirst := (first_bits _ a.toNat_lt).2.2.1 ha
  have hrow := row_first a
  rw [if_neg (by omega), if_neg (by omega)] at hrow
  by_cases he0 : a.toNat = 0xE0
  · rw [if_pos he0] at hrow
    refine Advances.first_two hfirst (by omega) (by decide) (by decide) hrow hb ?_
    rw [nextState_byte (by decide), row_afterE0 _ b.toNat_lt, if_pos ⟨hb, hlong he0⟩]
  rw [if_neg he0] at hrow
  by_cases hed : a.toNat = 0xED
  · rw [if_pos hed] at hrow
    refine Advances.first_two hfirst (by omega) (by decide) (by decide) hrow hb ?_
    rw [nextState_byte (by decide), row_afterED _ b.toNat_lt, if_pos ⟨hb, hsurrogate hed⟩]
  · rw [if_neg hed, if_pos (by omega)] at hrow
    refine Advances.first_two hfirst (by omega) (by decide) (by decide) hrow hb ?_
    rw [nextState_byte (by decide), row_two _ b.toNat_lt, if_pos hb]

theorem advances_four (codepoint : ℕ) {a b : UInt8} (ha : 0xF0 ≤ a.toNat ∧ a.toNat ≤ 0xF4)
    (hb : Continues b.toNat) (hlong : a.toNat = 0xF0 → 0x90 ≤ b.toNat)
    (hlarge : a.toNat = 0xF4 → b.toNat ≤ 0x8F) :
    Advances [a, b] 0 codepoint 36 ((a.toNat - 0xF0) * 64 + (b.toNat - 0x80)) [] := by
  have hfirst := (first_bits _ a.toNat_lt).2.2.2 ha
  have hrow := row_first a
  rw [if_neg (by omega), if_neg (by omega), if_neg (by omega), if_neg (by omega),
    if_neg (by omega)] at hrow
  by_cases hf0 : a.toNat = 0xF0
  · rw [if_pos hf0] at hrow
    refine Advances.first_two hfirst (by omega) (by decide) (by decide) hrow hb ?_
    rw [nextState_byte (by decide), row_afterF0 _ b.toNat_lt, if_pos ⟨hb, hlong hf0⟩]
  rw [if_neg hf0] at hrow
  by_cases hf4 : a.toNat = 0xF4
  · rw [if_pos hf4] at hrow
    refine Advances.first_two hfirst (by omega) (by decide) (by decide) hrow hb ?_
    rw [nextState_byte (by decide), row_afterF4 _ b.toNat_lt, if_pos ⟨hb, hlarge hf4⟩]
  · rw [if_neg hf4, if_pos (by omega)] at hrow
    refine Advances.first_two hfirst (by omega) (by decide) (by decide) hrow hb ?_
    rw [nextState_byte (by decide), row_three _ b.toNat_lt, if_pos hb]

theorem Spells.advances {bs : List UInt8} {v : ℕ} (h : Spells bs v) (codepoint : ℕ) :
    Advances bs 0 codepoint 0 v [v] := by
  cases h with
  | one a ha =>
    refine Advances.last ?_ ?_
    · rw [row_first, if_pos ha]
    · rw [nextCodepoint_first]
      exact (first_bits _ a.toNat_lt).1 ha
  | two a b ha hb =>
    have hrow : nextState 0 a.toNat = 24 := by rw [row_first, if_neg (by omega), if_pos ha]
    have hone : Advances [a] 0 codepoint 24 (nextCodepoint 0 codepoint a.toNat) [] :=
      Advances.more hrow (by decide) rfl
    rw [nextCodepoint_first, (first_bits _ a.toNat_lt).2.1 ha] at hone
    exact hone.trans (Advances.last_continues hb (by omega))
  | three a b c ha hb hlong hsurrogate hc =>
    have := hb.2
    exact (advances_three codepoint ha hb hlong hsurrogate).trans
      (Advances.last_continues hc (by omega))
  | four a b c d ha hb hlong hlarge hc hd =>
    have := hb.2
    exact (advances_four codepoint ha hb hlong hlarge).trans
      (Advances.two_continue hc hd (by omega))

/-! ## What is accepted -/

theorem lastState_reject (bs : List UInt8) : ∀ codepoint, lastState 12 codepoint bs = 12 := by
  induction bs with
  | nil => exact fun _ => rfl
  | cons b bs ih =>
    intro codepoint
    have hrow : nextState 12 b.toNat = 12 := by
      rw [nextState_byte (by decide), row_reject]
    rw [lastState, hrow]
    exact ih _

theorem lastState_more {state state' codepoint : ℕ} {p : ℕ → Prop} [DecidablePred p]
    {bs : List UInt8} (hstate : state ∈ states) (hne : state ≠ 0)
    (hrow : ∀ byte < 256, row state (classInRanges byte) = if p byte then state' else 12)
    (h : lastState state codepoint bs = 0) :
    ∃ b rest codepoint', bs = b :: rest ∧ p b.toNat ∧ lastState state' codepoint' rest = 0 := by
  cases bs with
  | nil => exact absurd h hne
  | cons b rest =>
    rw [lastState, nextState_byte hstate, hrow _ b.toNat_lt] at h
    by_cases hb : p b.toNat
    · rw [if_pos hb] at h
      exact ⟨b, rest, _, rfl, hb, h⟩
    · rw [if_neg hb, lastState_reject] at h
      cases h

theorem exists_spells_three {state codepoint : ℕ} {p : ℕ → Prop} [DecidablePred p] {a : UInt8}
    {bs : List UInt8} (hstate : state ∈ states) (hne : state ≠ 0)
    (hrow : ∀ byte < 256,
      row state (classInRanges byte) = if Continues byte ∧ p byte then 24 else 12)
    (h : lastState state codepoint bs = 0) (ha : 0xE0 ≤ a.toNat ∧ a.toNat ≤ 0xEF)
    (hp : ∀ b, p b → (a.toNat = 0xE0 → 0xA0 ≤ b) ∧ (a.toNat = 0xED → b ≤ 0x9F)) :
    ∃ w v rest, Spells w v ∧ a :: bs = w ++ rest ∧
      ∃ codepoint', lastState 0 codepoint' rest = 0 := by
  obtain ⟨b, rest, codepoint', rfl, hb, h⟩ := lastState_more hstate hne hrow h
  obtain ⟨c, rest, codepoint', rfl, hc, h⟩ := lastState_more (by decide) (by decide) row_one h
  exact ⟨[a, b, c], _, rest,
    .three a b c ha hb.1 (hp _ hb.2).1 (hp _ hb.2).2 hc, rfl, codepoint', h⟩

theorem exists_spells_four {state codepoint : ℕ} {p : ℕ → Prop} [DecidablePred p] {a : UInt8}
    {bs : List UInt8} (hstate : state ∈ states) (hne : state ≠ 0)
    (hrow : ∀ byte < 256,
      row state (classInRanges byte) = if Continues byte ∧ p byte then 36 else 12)
    (h : lastState state codepoint bs = 0) (ha : 0xF0 ≤ a.toNat ∧ a.toNat ≤ 0xF4)
    (hp : ∀ b, p b → (a.toNat = 0xF0 → 0x90 ≤ b) ∧ (a.toNat = 0xF4 → b ≤ 0x8F)) :
    ∃ w v rest, Spells w v ∧ a :: bs = w ++ rest ∧
      ∃ codepoint', lastState 0 codepoint' rest = 0 := by
  obtain ⟨b, rest, codepoint', rfl, hb, h⟩ := lastState_more hstate hne hrow h
  obtain ⟨c, rest, codepoint', rfl, hc, h⟩ := lastState_more (by decide) (by decide) row_two h
  obtain ⟨d, rest, codepoint', rfl, hd, h⟩ := lastState_more (by decide) (by decide) row_one h
  exact ⟨[a, b, c, d], _, rest,
    .four a b c d ha hb.1 (hp _ hb.2).1 (hp _ hb.2).2 hc hd, rfl, codepoint', h⟩

theorem exists_spells {codepoint : ℕ} {a : UInt8} {bs : List UInt8}
    (h : lastState 0 codepoint (a :: bs) = 0) :
    ∃ w v rest, Spells w v ∧ a :: bs = w ++ rest ∧
      ∃ codepoint', lastState 0 codepoint' rest = 0 := by
  rw [lastState, row_first] at h
  by_cases hone : a.toNat < 0x80
  · rw [if_pos hone] at h
    exact ⟨[a], _, bs, .one a hone, rfl, _, h⟩
  rw [if_neg hone] at h
  by_cases htwo : 0xC2 ≤ a.toNat ∧ a.toNat ≤ 0xDF
  · rw [if_pos htwo] at h
    obtain ⟨b, rest, codepoint', rfl, hb, h⟩ := lastState_more (by decide) (by decide) row_one h
    exact ⟨[a, b], _, rest, .two a b htwo hb, rfl, codepoint', h⟩
  rw [if_neg htwo] at h
  by_cases he0 : a.toNat = 0xE0
  · rw [if_pos he0] at h
    exact exists_spells_three (by decide) (by decide) row_afterE0 h (by omega)
      fun b hb => ⟨fun _ => hb, by omega⟩
  rw [if_neg he0] at h
  by_cases hed : a.toNat = 0xED
  · rw [if_pos hed] at h
    exact exists_spells_three (by decide) (by decide) row_afterED h (by omega)
      fun b hb => ⟨by omega, fun _ => hb⟩
  rw [if_neg hed] at h
  by_cases hrest : 0xE1 ≤ a.toNat ∧ a.toNat ≤ 0xEF
  · rw [if_pos hrest] at h
    refine exists_spells_three (p := fun _ => True) (by decide) (by decide) (fun byte hbyte => ?_) h
      (by omega) fun b _ => ⟨by omega, by omega⟩
    rw [row_two byte hbyte]
    exact if_congr (by rw [and_true]) rfl rfl
  rw [if_neg hrest] at h
  by_cases hf0 : a.toNat = 0xF0
  · rw [if_pos hf0] at h
    exact exists_spells_four (by decide) (by decide) row_afterF0 h (by omega)
      fun b hb => ⟨fun _ => hb, by omega⟩
  rw [if_neg hf0] at h
  by_cases hf4 : a.toNat = 0xF4
  · rw [if_pos hf4] at h
    exact exists_spells_four (by decide) (by decide) row_afterF4 h (by omega)
      fun b hb => ⟨by omega, fun _ => hb⟩
  rw [if_neg hf4] at h
  by_cases hlast : 0xF1 ≤ a.toNat ∧ a.toNat ≤ 0xF3
  · rw [if_pos hlast] at h
    refine exists_spells_four (p := fun _ => True) (by decide) (by decide) (fun byte hbyte => ?_) h
      (by omega) fun b _ => ⟨by omega, by omega⟩
    rw [row_three byte hbyte]
    exact if_congr (by rw [and_true]) rfl rfl
  · rw [if_neg hlast, lastState_reject] at h
    cases h

/-! ## The codec -/

/-- The encoding of some codepoints. -/
def utf8Of (cs : List Char) : List UInt8 := cs.flatMap String.utf8EncodeChar

/-- Codepoints as `array<uint>`. -/
def codepoints (cs : List Char) : List ℕ := cs.map fun c => c.val.toNat

theorem spells_char (c : Char) : Spells (String.utf8EncodeChar c) c.val.toNat :=
  spells_iff.mpr ⟨c, rfl, rfl⟩

theorem advances_utf8Of (cs : List Char) : ∀ codepoint,
    ∃ codepoint', Advances (utf8Of cs) 0 codepoint 0 codepoint' (codepoints cs) := by
  induction cs with
  | nil => exact fun codepoint => ⟨codepoint, fun _ => ⟨rfl, rfl⟩⟩
  | cons c cs ih =>
    intro codepoint
    obtain ⟨codepoint', h⟩ := ih c.val.toNat
    exact ⟨codepoint', ((spells_char c).advances codepoint).trans h⟩

theorem exists_utf8Of (n : ℕ) : ∀ (codepoint : ℕ) (bs : List UInt8), bs.length ≤ n →
    lastState 0 codepoint bs = 0 → ∃ cs, bs = utf8Of cs := by
  induction n with
  | zero =>
    intro _ bs hn _
    exact ⟨[], List.length_eq_zero_iff.mp (Nat.le_zero.mp hn)⟩
  | succ n ih =>
    intro codepoint bs hn h
    cases bs with
    | nil => exact ⟨[], rfl⟩
    | cons a bs =>
      obtain ⟨w, v, rest, hspells, heq, codepoint', hrest⟩ := exists_spells h
      have hw : w ≠ [] := by
        rintro rfl
        cases hspells
      obtain ⟨c, -, rfl⟩ := spells_iff.mp hspells
      have hlength := congrArg List.length heq
      rw [List.length_append] at hlength
      have hpos := List.length_pos_iff.mpr hw
      obtain ⟨cs, rfl⟩ := ih codepoint' rest (by omega) hrest
      exact ⟨c :: cs, heq⟩

theorem isUtf8StringValid_iff (bs : List UInt8) :
    isUtf8StringValid bs = true ↔ ∃ cs, bs = utf8Of cs := by
  rw [isUtf8StringValid, decide_eq_true_iff]
  constructor
  · exact exists_utf8Of bs.length 0 bs le_rfl
  · rintro ⟨cs, rfl⟩
    obtain ⟨codepoint', h⟩ := advances_utf8Of cs 0
    have hlast := (h []).1
    rw [List.append_nil] at hlast
    exact hlast

theorem utf8Encode_codepoints (cs : List Char) : utf8Encode (codepoints cs) = utf8Of cs := by
  rw [utf8Encode, ← List.flatMap_eq_foldl, codepoints, List.flatMap_map, utf8Of]
  exact congrArg (cs.flatMap ·) (funext encoded_eq)

theorem head_of_containsUtf8Bom {cs : List Char} (h : containsUtf8Bom (utf8Of cs) = true) :
    cs.head? = some '\uFEFF' := by
  cases cs with
  | nil => cases h
  | cons c cs =>
    have hfirst : ∀ {a : UInt8} {rest : List UInt8}, containsUtf8Bom (a :: rest) = true →
        a.toNat = 0xEF ∧ [0xBB, 0xBF].isPrefixOf rest = true := by
      intro a rest h
      rw [containsUtf8Bom, List.isPrefixOf_cons_cons, Bool.and_eq_true, beq_iff_eq] at h
      exact ⟨congrArg UInt8.toNat h.1.symm, h.2⟩
    have hspells := spells_char c
    rw [utf8Of, List.flatMap_cons] at h
    generalize hbs : String.utf8EncodeChar c = bs at hspells h
    generalize hv : c.val.toNat = v at hspells
    cases hspells with
    | one a ha =>
      have := (hfirst h).1
      omega
    | two a b ha hb =>
      have := (hfirst h).1
      omega
    | three a b d ha hb hlong hsurrogate hd =>
      obtain ⟨hea, hrest⟩ := hfirst h
      have hrest : ([0xBB, 0xBF] : List UInt8).isPrefixOf
          (b :: d :: cs.flatMap String.utf8EncodeChar) = true := hrest
      rw [List.isPrefixOf_cons_cons, Bool.and_eq_true, beq_iff_eq,
        List.isPrefixOf_cons_cons, Bool.and_eq_true, beq_iff_eq] at hrest
      have heb : b.toNat = 0xBB := congrArg UInt8.toNat hrest.1.symm
      have hed : d.toNat = 0xBF := congrArg UInt8.toNat hrest.2.1.symm
      rw [hea, heb, hed] at hv
      exact congrArg some (Char.ext (UInt32.toNat_inj.mp hv))
    | four a b d e ha hb hlong hlarge hd he =>
      have := (hfirst h).1
      omega

theorem decodeFrom_utf8Of (cs : List Char) : decodeFrom 0 0 (utf8Of cs) = codepoints cs := by
  obtain ⟨codepoint', h⟩ := advances_utf8Of cs 0
  have hdecode := (h []).2
  rw [List.append_nil, decodeFrom, List.append_nil] at hdecode
  exact hdecode

theorem utf8Decode_utf8Of {cs : List Char} (h : containsUtf8Bom (utf8Of cs) = false) :
    utf8Decode (utf8Of cs) = codepoints cs := by
  rw [utf8Decode, h, if_neg Bool.false_ne_true, decodeFrom_utf8Of]

theorem Spells.foldl_length {bs : List UInt8} {v : ℕ} (h : Spells bs v) (rest : List UInt8)
    (n : ℕ) :
    (bs ++ rest).foldl (fun n ch => if ch.toNat &&& 0xC0 ≠ 0x80 then n + 1 else n) n =
      rest.foldl (fun n ch => if ch.toNat &&& 0xC0 ≠ 0x80 then n + 1 else n) (n + 1) := by
  have hbegins : ∀ {b : UInt8} (n : ℕ), ¬ Continues b.toNat →
      (if b.toNat &&& 0xC0 ≠ 0x80 then n + 1 else n) = n + 1 := fun n hb =>
    if_pos fun h => hb ((continues_iff _ (UInt8.toNat_lt _)).mp h)
  have hcontinues : ∀ {b : UInt8} (n : ℕ), Continues b.toNat →
      (if b.toNat &&& 0xC0 ≠ 0x80 then n + 1 else n) = n := fun n hb =>
    if_neg (not_not.mpr ((continues_iff _ (UInt8.toNat_lt _)).mpr hb))
  cases h with
  | one a ha =>
    rw [List.cons_append, List.foldl_cons, hbegins n (by rw [Continues]; omega), List.nil_append]
  | two a b ha hb =>
    rw [List.cons_append, List.foldl_cons, hbegins n (by rw [Continues]; omega), List.cons_append,
      List.foldl_cons, hcontinues _ hb, List.nil_append]
  | three a b c ha hb hlong hsurrogate hc =>
    rw [List.cons_append, List.foldl_cons, hbegins n (by rw [Continues]; omega), List.cons_append,
      List.foldl_cons, hcontinues _ hb, List.cons_append, List.foldl_cons, hcontinues _ hc,
      List.nil_append]
  | four a b c d ha hb hlong hlarge hc hd =>
    rw [List.cons_append, List.foldl_cons, hbegins n (by rw [Continues]; omega), List.cons_append,
      List.foldl_cons, hcontinues _ hb, List.cons_append, List.foldl_cons, hcontinues _ hc,
      List.cons_append, List.foldl_cons, hcontinues _ hd, List.nil_append]

theorem utf8Length_utf8Of (cs : List Char) : utf8Length (utf8Of cs) = cs.length := by
  suffices h : ∀ n, (utf8Of cs).foldl
      (fun n ch => if ch.toNat &&& 0xC0 ≠ 0x80 then n + 1 else n) n = n + cs.length by
    exact (h 0).trans (Nat.zero_add _)
  induction cs with
  | nil => exact fun n => rfl
  | cons c cs ih =>
    intro n
    rw [utf8Of, List.flatMap_cons, (spells_char c).foldl_length, ← utf8Of, ih, List.length_cons]
    omega

end DaScript.Utf8Utils
