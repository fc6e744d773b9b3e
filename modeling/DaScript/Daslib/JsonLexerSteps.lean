import DaScript.Daslib.JsonLexer

/-!
# Daslib/JsonLexerSteps — a token at a time

Between two tokens the lexer holds one character in `ahead`; with what is left of the string that is
its pending text, and a turn takes white space and a token off the front of it.

Every turn reads a character at least, so the generator comes to an end (`lexOne_left`).
-/

namespace DaScript.Json

open Text

/-- What the generator has still to look at. -/
def Cursor.pending (s : Cursor) : List UInt8 :=
  match s.tin with
  | none => []
  | some cs => s.head.ahead :: cs

/-- How often the generator may still read. -/
def Cursor.left (s : Cursor) : ℕ := s.pending.length

theorem Head.ahead_read (h : Head) (c : UInt8) : (h.read c).ahead = c := by
  rw [Head.read]
  split_ifs <;> rfl

theorem Cursor.pending_skip (s : Cursor) : s.skip.pending = s.pending.tail := by
  obtain ⟨tin, h⟩ := s
  cases tin with
  | none => rfl
  | some cs => cases cs <;> rfl

/-! ## White space and runs of characters -/

theorem skipWhite_left (cs : List UInt8) (h : Head) : (skipWhite cs h).left ≤ cs.length + 1 := by
  induction cs generalizing h with
  | nil =>
    rw [skipWhite]
    split_ifs
    · exact Nat.zero_le _
    · exact le_rfl
  | cons c cs ih =>
    rw [skipWhite]
    split_ifs
    · exact (ih _).trans (Nat.le_succ _)
    · exact le_rfl

theorem skipWhite_pending {white : List UInt8} {c : UInt8} {rest cs : List UInt8} {h : Head}
    (hpending : h.ahead :: cs = white ++ c :: rest) (hwhite : ∀ w ∈ white, isWhiteSpace w = true)
    (hc : isWhiteSpace c = false) : ∃ h', h'.ahead = c ∧ skipWhite cs h = ⟨some rest, h'⟩ := by
  induction white generalizing cs h with
  | nil =>
    obtain ⟨rfl, rfl⟩ := List.cons.inj hpending
    refine ⟨h, rfl, ?_⟩
    cases cs <;> exact if_neg (by rw [hc]; exact Bool.false_ne_true)
  | cons w white ih =>
    obtain ⟨hw, hcs⟩ := List.cons.inj hpending
    have hwhite' : isWhiteSpace h.ahead = true := hw ▸ hwhite w List.mem_cons_self
    cases cs with
    | nil => exact absurd hcs.symm (List.append_ne_nil_of_right_ne_nil _ (List.cons_ne_nil _ _))
    | cons c' cs =>
      rw [skipWhite, if_pos hwhite']
      exact ih (by rw [Head.ahead_read]; exact hcs)
        fun w' hw' => hwhite w' (List.mem_cons_of_mem _ hw')

theorem pushWhile_left (p : UInt8 → Bool) (cs : List UInt8) (h : Head) :
    (pushWhile p cs h).2.left ≤ cs.length := by
  induction cs generalizing h with
  | nil => exact le_rfl
  | cons c cs ih =>
    rw [pushWhile]
    split_ifs
    · exact (ih _).trans (Nat.le_succ _)
    · exact le_rfl

theorem Cursor.pushWhile_left (p : UInt8 → Bool) (s : Cursor) :
    (s.pushWhile p).2.left ≤ s.left := by
  obtain ⟨tin, h⟩ := s
  cases tin with
  | none => exact le_rfl
  | some cs => exact (Json.pushWhile_left p cs h).trans (Nat.le_succ _)

theorem pushWhile_pending {p : UInt8 → Bool} {run rest : List UInt8} (h : Head)
    (hrun : ∀ c ∈ run, p c = true) (hrest : ∀ c, rest.head? = some c → p c = false) :
    ∃ s, pushWhile p (run ++ rest) h = (run, s) ∧ s.pending = rest := by
  induction run generalizing h with
  | nil =>
    cases rest with
    | nil => exact ⟨_, rfl, rfl⟩
    | cons c rest =>
      refine ⟨⟨some rest, h.read c⟩, ?_, by rw [Cursor.pending, Head.ahead_read]⟩
      rw [List.nil_append, pushWhile, if_neg (by rw [hrest c rfl]; exact Bool.false_ne_true)]
  | cons c run ih =>
    obtain ⟨s, hs, hpending⟩ := ih (h.read c) fun c' hc' => hrun c' (List.mem_cons_of_mem _ hc')
    refine ⟨s, ?_, hpending⟩
    rw [List.cons_append, pushWhile, if_pos (hrun c List.mem_cons_self), hs]

/-! ## Every turn reads -/

theorem stringLoop_left {cs : List UInt8} {h h' : Head} {w : Within} {str str' cs' : List UInt8}
    (hloop : stringLoop cs h w str = .ok (str', cs', h')) : cs'.length < cs.length := by
  induction cs generalizing h w str with
  | nil => cases w <;> exact nomatch hloop
  | cons c cs ih =>
    have hless : ∀ {h w str}, stringLoop cs h w str = .ok (str', cs', h') →
        cs'.length < (c :: cs).length := fun hl => (ih hl).trans (Nat.lt_succ_self _)
    cases w with
    | plain =>
      rw [stringLoop] at hloop
      split_ifs at hloop
      · cases hloop
        exact Nat.lt_succ_self _
      · exact hless hloop
      · exact hless hloop
    | escape =>
      rw [stringLoop] at hloop
      split_ifs at hloop <;> exact hless hloop
    | hex seen =>
      rw [stringLoop] at hloop
      split_ifs at hloop <;> exact hless hloop

theorem readNumber_left (s : Cursor) (hs : s.tin ≠ none) : (readNumber s).cursor.left < s.left := by
  have hnext : ∀ s : Cursor, s.next.left ≤ s.left := by
    rintro ⟨tin, h⟩
    cases tin with
    | none => exact le_rfl
    | some cs => cases cs <;> exact Nat.le_succ _
  have hdigits : (s.pushWhile isDigit).2.left < s.left := by
    obtain ⟨tin, h⟩ := s
    cases tin with
    | none => exact absurd rfl hs
    | some cs => exact Nat.lt_succ_of_le (Json.pushWhile_left _ cs h)
  have hfraction : ∀ n : Numeral, (readFraction n).cursor.left ≤ n.cursor.left := by
    intro n
    rw [readFraction]
    split_ifs
    · exact Cursor.pushWhile_left _ _
    · exact le_rfl
  have hexponent : ∀ n : Numeral, (readExponent n).cursor.left ≤ n.cursor.left := by
    intro n
    rw [readExponent]
    dsimp only
    split_ifs
    · exact (Cursor.pushWhile_left _ _).trans (hnext _)
    · exact (Cursor.pushWhile_left _ _).trans (hnext _)
    · exact le_rfl
  exact (hexponent _).trans_lt ((hfraction _).trans_lt hdigits)

variable {R : Reals}

theorem Head.yields_eq {h : Head} {t : Token R} {s s' : Cursor} {l : Lexed R}
    (hy : h.yields t s = (l, some s')) : s' = s := by
  obtain ⟨-, hs⟩ := Prod.mk.inj hy
  split_ifs at hs
  exact (Option.some.inj hs).symm

theorem lexOne_left {s s' : Cursor} {l : Lexed R} (h : lexOne R s = some (l, some s')) :
    s'.left < s.left := by
  obtain ⟨tin, head⟩ := s
  cases tin with
  | none => exact nomatch h
  | some cs =>
    refine lt_of_lt_of_le ?_ (skipWhite_left cs head)
    rw [lexOne] at h
    dsimp only at h
    generalize skipWhite cs head = s at h ⊢
    obtain ⟨tin, head⟩ := s
    cases tin with
    | none => exact nomatch h
    | some cs =>
      dsimp only at h
      split_ifs at h with hsym hquote hnum halpha
      · rw [Head.yields_eq (Option.some.inj h), Cursor.left, Cursor.pending_skip]
        exact Nat.lt_succ_self _
      · split at h
        · exact nomatch (Option.some.inj h)
        · rename_i str cs' h' hloop
          rw [Head.yields_eq (Option.some.inj h), Cursor.left, Cursor.pending_skip]
          exact (stringLoop_left hloop).trans (Nat.lt_succ_self _)
      · split at h
        · exact nomatch (Prod.mk.inj (Option.some.inj h)).2
        · rw [Head.yields_eq (Option.some.inj h)]
          exact readNumber_left _ fun h => nomatch h
      · rw [Head.yields_eq (Option.some.inj h)]
        exact Nat.lt_succ_of_le (pushWhile_left _ cs head)
      · exact nomatch (Option.some.inj h)

/-! ## Runs of the generator -/

/-- **The generator reads some tokens**, from a cursor to a cursor. -/
inductive Runs : Cursor → List (Lexed R) → Cursor → Prop
  | refl (s : Cursor) : Runs s [] s
  | step {s s₁ s' : Cursor} {t : Lexed R} {ts : List (Lexed R)}
      (h : lexOne R s = some (t, some s₁)) (hs : Runs s₁ ts s') : Runs s (t :: ts) s'

theorem Runs.trans {s s₁ s' : Cursor} {ts ts' : List (Lexed R)} (h : Runs s ts s₁)
    (h' : Runs s₁ ts' s') : Runs s (ts ++ ts') s' := by
  induction h with
  | refl s => exact h'
  | step hone _ ih => exact .step hone (ih h')

theorem Runs.lexTurns {s s' : Cursor} {ts : List (Lexed R)} (h : Runs s ts s')
    (hs' : s'.pending = []) : ∀ turns, s.left ≤ turns → lexTurns R turns s = ts := by
  induction h with
  | refl s =>
    intro turns _
    have hdone : lexOne R s = none := by
      obtain ⟨tin, head⟩ := s
      cases tin with
      | none => rfl
      | some cs => exact nomatch hs'
    cases turns with
    | zero => rfl
    | succ turns => rw [Json.lexTurns, hdone]
  | step hone _ ih =>
    intro turns hturns
    have hless := lexOne_left hone
    cases turns with
    | zero => exact absurd (hless.trans_le hturns) (Nat.not_lt_zero _)
    | succ turns => rw [Json.lexTurns, hone]; exact congrArg _ (ih hs' turns (by omega))

/-! ## One token -/

/-- **A turn takes the token** off the front of the pending text. -/
def Reads (s : Cursor) (t : Token R) (rest : List UInt8) : Prop :=
  ∃ line row s', lexOne R s = some (.token ⟨t, line, row⟩, some s') ∧ s'.pending = rest

variable {s : Cursor} {white rest : List UInt8}

theorem lexOne_of_pending {c : UInt8} {cs : List UInt8} (hs : s.pending = white ++ c :: cs)
    (hwhite : ∀ w ∈ white, isWhiteSpace w = true) (hc : isWhiteSpace c = false) :
    ∃ h : Head, h.ahead = c ∧ skipWhite cs h = ⟨some cs, h⟩ ∧
      lexOne R s = lexOne R ⟨some cs, h⟩ := by
  obtain ⟨tin, head⟩ := s
  cases tin with
  | none => exact absurd hs.symm (List.append_ne_nil_of_right_ne_nil _ (List.cons_ne_nil _ _))
  | some cs' =>
    obtain ⟨h, hahead, hskip⟩ := skipWhite_pending hs hwhite hc
    have hstay : skipWhite cs h = ⟨some cs, h⟩ := by
      have hno : ¬ isWhiteSpace h.ahead = true := by rw [hahead, hc]; exact Bool.false_ne_true
      cases cs <;> exact if_neg hno
    refine ⟨h, hahead, hstay, ?_⟩
    rw [lexOne, lexOne]
    dsimp only
    rw [hskip, hstay]

theorem Head.yields_goesOn (h : Head) {t : Token R} (s : Cursor) (ht : t.goesOn = true) :
    h.yields t s = (.token ⟨t, h.line, h.row⟩, some s) := by
  rw [Head.yields, if_pos ht]

theorem reads_symbol {c : UInt8} (hs : s.pending = white ++ c :: rest)
    (hwhite : ∀ w ∈ white, isWhiteSpace w = true) (hc : isSymbol c = true)
    (hcw : isWhiteSpace c = false) : Reads (R := R) s (.symbol c) rest := by
  obtain ⟨h, hahead, hskip, hone⟩ := lexOne_of_pending (R := R) hs hwhite hcw
  refine ⟨h.line, h.row, Cursor.skip ⟨some rest, h⟩, ?_, Cursor.pending_skip _⟩
  rw [hone, lexOne]
  dsimp only
  rw [hskip]
  dsimp only
  rw [hahead, if_pos hc, Head.yields_goesOn _ _ rfl]

end DaScript.Json
