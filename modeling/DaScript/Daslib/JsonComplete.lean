import DaScript.Daslib.JsonSound

/-!
# Daslib/JsonComplete — what the parser makes of what the grammar allows

The other half of `Daslib/JsonSound`: a derivation is a run of the parser.  Every call takes a token
or two, so a text of so many tokens is parsed in twice as many calls, and where a container is open
the rest of the calls is left for what follows (`Inside.parses`).

`readTokens_meets` puts the halves together: where exactly the parser keeps to the grammar of JSON.
-/

namespace DaScript.Json

open Text

variable {R : Reals} {allow : Bool} {ts ts₁ : List (Lexed R)} {f : Frame R}

/-! ## The slip only adds -/

mutual

theorem Denotes.mono {p q : Prop} (hpq : p → q) {ts rest : List (Lexed R)} {v : Value R} :
    Denotes allow p ts v rest → Denotes allow q ts v rest
  | .string => .string
  | .number => .number
  | .longint => .longint
  | .bool => .bool
  | .null => .null
  | .array h => .array (h.mono hpq)
  | .emptyArray h => .emptyArray (h.mono hpq)
  | .object h => .object (h.mono hpq)
  | .emptyObject h => .emptyObject (h.mono hpq)
  | .slipped hslip h hb => .slipped (hpq hslip) (h.mono hpq) (hb.mono hpq)

theorem Inside.mono {p q : Prop} (hpq : p → q) {ts ts₁ : List (Lexed R)} {f : Frame R} :
    Inside allow p ts f ts₁ → Inside allow q ts f ts₁
  | .openArray => .openArray
  | .element h hv => .element (h.mono hpq) (hv.mono hpq)
  | .elementComma h => .elementComma (h.mono hpq)
  | .openObject => .openObject
  | .key h => .key (h.mono hpq)
  | .colon h => .colon (h.mono hpq)
  | .pair h hv hk => .pair (h.mono hpq) (hv.mono hpq) hk
  | .pairComma h => .pairComma (h.mono hpq)

theorem Breaks.mono {p q : Prop} (hpq : p → q) {ts rest : List (Lexed R)} :
    Breaks allow p ts rest → Breaks allow q ts rest
  | .bracket => .bracket
  | .quoted h hf hs => .quoted (h.mono hpq) hf hs
  | .inside h hf hne hb => .inside (h.mono hpq) hf hne (hb.mono hpq)

end

/-! ## A frame and a token -/

theorem resume_element {arr : List (Value R)} {n : ℕ} :
    resume allow (.element arr) (n + 1) (at' ts) =
      (parseValue allow n (at' ts)).bind fun value s =>
        match value with
        | none => elementFailed arr s
        | some value => resume allow (.elementSep (arr ++ [value])) n s :=
  parseElements_succ allow n arr ts

theorem resume_pair {tab : List (List UInt8 × Value R)} {k : List UInt8} {colon : TokenAt R}
    {n : ℕ} {v : Value R} {rest : List (Lexed R)} (hk : allow = true ∨ k ∉ tab.map Prod.fst)
    (hv : parseValue allow n (at' ts) = .ok (some v) (at' rest)) :
    resume allow (.pair tab k colon) n (at' ts) =
      resume allow (.pairSep (insertPair k v tab)) n (at' rest) := by
  have hdup : (!allow && (tab.map Prod.fst).contains k) = false := by
    rcases hk with rfl | hk
    · rfl
    · rw [Bool.and_eq_false_iff]
      exact Or.inr (Bool.eq_false_iff.mpr fun h => hk (List.contains_iff_mem.mp h))
  rw [resume, afterColon, hv, Outcome.bind_ok]
  change (if _ then _ else _) = _
  rw [if_neg (by rw [hdup]; exact Bool.false_ne_true)]
  rfl

/-- What a value comes to is what the frame it is in comes to. -/
def PassesOn (f : Frame R) (o : Outcome (Parser R) (Option (Value R))) : Prop :=
  (∃ e s, o = .error e s) ∨
    ∃ s, o = .ok none s ∧ (aboutBracket s.error = false ∨ f ≠ .element [])

theorem resume_of_value {n : ℕ} (hf : f.valueDue) (hn : 0 < n)
    (hv : ∀ m, n ≤ m + 1 → PassesOn f (parseValue allow m (at' ts))) :
    ∃ m, n ≤ m + 1 ∧ resume allow f n (at' ts) = parseValue allow m (at' ts) := by
  cases f with
  | element arr =>
    obtain ⟨n, rfl⟩ := Nat.exists_eq_succ_of_ne_zero hn.ne'
    refine ⟨n, le_rfl, ?_⟩
    rw [resume_element]
    obtain ⟨e, s, ho⟩ | ⟨s, ho, hs⟩ := hv n le_rfl
    · rw [ho]
      rfl
    · rw [ho]
      have hkeep : ¬ (aboutBracket s.error && arr.isEmpty) = true := by
        rw [Bool.and_eq_true, List.isEmpty_iff]
        rintro ⟨hb, rfl⟩
        rcases hs with hs | hs
        · exact Bool.false_ne_true (hs.symm.trans hb)
        · exact hs rfl
      exact if_neg hkeep
  | elementSep arr => exact hf.elim
  | key tab => exact hf.elim
  | colon tab k => exact hf.elim
  | pair tab k colon =>
    refine ⟨n, Nat.le_succ n, ?_⟩
    rw [resume, afterColon]
    obtain ⟨e, s, ho⟩ | ⟨s, ho, -⟩ := hv n (Nat.le_succ n) <;> rw [ho] <;> rfl
  | pairSep tab => exact hf.elim

theorem resume_quoted {s : List UInt8} {l r n : ℕ} {rest : List (Lexed R)} (hf : f.symbolDue)
    (hs : s.head? = some (ch ']')) : ∃ e, aboutBracket e = true ∧
      resume allow f n (at' (.token ⟨.string s, l, r⟩ :: rest)) = .ok none ⟨some rest, e⟩ := by
  have hvariant := (aboutBracket_variant (⟨.string s, l, r⟩ : TokenAt R) 5).mpr ⟨s, rfl, hs⟩
  have hnoSymbol := (aboutBracket_noSymbol (⟨.string s, l, r⟩ : TokenAt R)).mpr ⟨s, rfl, hs⟩
  cases f with
  | element arr => exact hf.elim
  | elementSep arr => exact ⟨_, hvariant, rfl⟩
  | key tab => exact hf.elim
  | colon tab k => exact ⟨_, hnoSymbol, rfl⟩
  | pair tab k colon => exact hf.elim
  | pairSep tab => exact ⟨_, hvariant, rfl⟩

theorem parseValue_thrown {num : List UInt8} {rest : List (Lexed R)} {n : ℕ} (hn : 0 < n) :
    parseValue allow n (at' (.thrown num :: rest)) =
      .error (.throw (conversionFailed num)) (at' (.thrown num :: rest)) := by
  obtain ⟨n, rfl⟩ := Nat.exists_eq_succ_of_ne_zero hn.ne'
  rw [parseValue]
  rfl

theorem resume_thrown {num : List UInt8} {rest : List (Lexed R)} {n : ℕ} (hn : 2 ≤ n) :
    resume allow f n (at' (.thrown num :: rest)) =
      .error (.throw (conversionFailed num)) (at' (.thrown num :: rest)) := by
  have hdue : f.valueDue → resume allow f n (at' (.thrown num :: rest)) =
      .error (.throw (conversionFailed num)) (at' (.thrown num :: rest)) := by
    intro hf
    have hvalue : ∀ m, n ≤ m + 1 → parseValue allow m (at' (.thrown num :: rest)) =
        .error (.throw (conversionFailed num)) (at' (.thrown num :: rest)) :=
      fun m hm => parseValue_thrown (by omega)
    obtain ⟨m, hm, hrun⟩ := resume_of_value hf (by omega) fun m hm => Or.inl ⟨_, _, hvalue m hm⟩
    rw [hrun, hvalue m hm]
  cases f with
  | element arr => exact hdue trivial
  | elementSep arr => rfl
  | key tab =>
    obtain ⟨n, rfl⟩ := Nat.exists_eq_succ_of_ne_zero (show n ≠ 0 by omega)
    rw [resume, parsePairs_succ]
    rfl
  | colon tab k => rfl
  | pair tab k colon => exact hdue trivial
  | pairSep tab => rfl

/-! ## Derivations are runs -/

mutual

theorem Denotes.parses {ts rest : List (Lexed R)} {v : Value R} :
    Denotes allow True ts v rest → ∀ n, 2 * ts.length ≤ n + 1 →
      parseValue allow n (at' ts) = .ok (some v) (at' rest)
  | .string, n + 1, _ => by rw [parseValue]; rfl
  | .number, n + 1, _ => by rw [parseValue]; rfl
  | .longint, n + 1, _ => by rw [parseValue]; rfl
  | .bool, n + 1, _ => by rw [parseValue]; rfl
  | .null, n + 1, _ => by rw [parseValue]; rfl
  | .array h, n, hn => by
    obtain ⟨k, hk, hrun⟩ := h.parses
    obtain ⟨m, rfl⟩ : ∃ m, n = m + k := ⟨n - k, by omega⟩
    rw [hrun m hn]
    rfl
  | .emptyArray h, n, hn => by
    obtain ⟨k, hk, hrun⟩ := h.parses
    rw [List.length_cons] at hk
    obtain ⟨m, rfl⟩ : ∃ m, n = m + 2 + k := ⟨n - k - 2, by omega⟩
    rw [hrun (m + 2) hn, resume_element, parseValue]
    rfl
  | .object h, n, hn => by
    obtain ⟨k, hk, hrun⟩ := h.parses
    obtain ⟨m, rfl⟩ : ∃ m, n = m + k := ⟨n - k, by omega⟩
    rw [hrun m hn]
    rfl
  | .emptyObject h, n, hn => by
    obtain ⟨k, hk, hrun⟩ := h.parses
    rw [List.length_cons] at hk
    obtain ⟨m, rfl⟩ : ∃ m, n = m + 1 + k := ⟨n - k - 1, by omega⟩
    rw [hrun (m + 1) hn, resume, parsePairs_succ]
    rfl
  | .slipped _ h hb, n, hn => by
    obtain ⟨k, hk, hrun⟩ := h.parses
    have hlen := hb.length_lt
    obtain ⟨m, rfl⟩ : ∃ m, n = m + 1 + k := ⟨n - k - 1, by omega⟩
    obtain ⟨e, he, hbreaks⟩ := hb.parses m (by omega)
    rw [hrun (m + 1) hn, resume_element, hbreaks]
    exact if_pos (Bool.and_eq_true_iff.mpr ⟨he, rfl⟩)

theorem Inside.parses {ts ts₁ : List (Lexed R)} {f : Frame R} :
    Inside allow True ts f ts₁ → ∃ k, k + 2 * ts₁.length + 1 ≤ 2 * ts.length ∧
      ∀ n, 2 * ts.length ≤ n + k + 1 →
        parseValue allow (n + k) (at' ts) = resume allow f n (at' ts₁)
  | .openArray => by
    refine ⟨1, by rw [List.length_cons]; omega, fun n _ => ?_⟩
    rw [parseValue]
    rfl
  | .element h hv => by
    obtain ⟨k, hk, hrun⟩ := h.parses
    have hlen := hv.length_lt
    refine ⟨k + 1, by omega, fun n hn => ?_⟩
    rw [show n + (k + 1) = n + 1 + k by omega, hrun (n + 1) (by omega), resume_element,
      hv.parses n (by omega)]
    rfl
  | .elementComma h => by
    obtain ⟨k, hk, hrun⟩ := h.parses
    rw [List.length_cons] at hk
    exact ⟨k, by omega, fun n hn => hrun n hn⟩
  | .openObject => by
    refine ⟨1, by rw [List.length_cons]; omega, fun n _ => ?_⟩
    rw [parseValue]
    rfl
  | .key h => by
    obtain ⟨k, hk, hrun⟩ := h.parses
    rw [List.length_cons] at hk
    refine ⟨k + 1, by omega, fun n hn => ?_⟩
    rw [show n + (k + 1) = n + 1 + k by omega, hrun (n + 1) (by omega), resume, parsePairs_succ]
    rfl
  | .colon h => by
    obtain ⟨k, hk, hrun⟩ := h.parses
    rw [List.length_cons] at hk
    exact ⟨k, by omega, fun n hn => hrun n hn⟩
  | .pair h hv hkey => by
    obtain ⟨k, hk, hrun⟩ := h.parses
    have hlen := hv.length_lt
    refine ⟨k, by omega, fun n hn => ?_⟩
    rw [hrun n hn, resume_pair hkey (hv.parses n (by omega))]
  | .pairComma h => by
    obtain ⟨k, hk, hrun⟩ := h.parses
    rw [List.length_cons] at hk
    exact ⟨k, by omega, fun n hn => hrun n hn⟩

theorem Breaks.parses {ts rest : List (Lexed R)} :
    Breaks allow True ts rest → ∀ n, 2 * ts.length ≤ n + 1 → ∃ e, aboutBracket e = true ∧
      parseValue allow n (at' ts) = .ok none ⟨some rest, e⟩
  | .bracket, n + 1, _ => by
    rw [parseValue]
    exact ⟨_, aboutBracket_bracket _, rfl⟩
  | .quoted h hf hs, n, hn => by
    obtain ⟨k, hk, hrun⟩ := h.parses
    obtain ⟨m, rfl⟩ : ∃ m, n = m + k := ⟨n - k, by omega⟩
    rw [hrun m hn]
    exact resume_quoted hf hs
  | .inside h hf hne hb, n, hn => by
    obtain ⟨k, hk, hrun⟩ := h.parses
    have hlen := hb.length_lt
    obtain ⟨m, rfl⟩ : ∃ m, n = m + 1 + k := ⟨n - k - 1, by omega⟩
    obtain ⟨i, hi, hvalue⟩ := resume_of_value hf m.succ_pos fun i hi => by
      obtain ⟨e, -, hbreaks⟩ := hb.parses i (by omega)
      exact Or.inr ⟨_, hbreaks, Or.inr hne⟩
    rw [hrun (m + 1) hn, hvalue]
    exact hb.parses i (by omega)

end

theorem Comes.parses {o : Outcome (Parser R) (Option (Value R))} (hc : Comes allow ts ts₁)
    (ho : (∃ e s, o = .error e s) ∨ ∃ s, o = .ok none s ∧ aboutBracket s.error = false)
    (hend : ∀ n, 2 * ts₁.length < n → parseValue allow n (at' ts₁) = o) :
    ∀ n, 2 * ts.length < n → parseValue allow n (at' ts) = o := by
  induction hc with
  | here => exact hend
  | inside h hf _ ih =>
    intro n hn
    obtain ⟨k, hk, hrun⟩ := h.parses
    obtain ⟨m, rfl⟩ : ∃ m, n = m + k := ⟨n - k, by omega⟩
    obtain ⟨i, hi, hvalue⟩ := resume_of_value (n := m) hf (by omega) fun i hi => by
      rw [ih hend i (by omega)]
      exact ho.imp_right fun ⟨s, hs, hb⟩ => ⟨s, hs, Or.inl hb⟩
    rw [hrun m (by omega), hvalue, ih hend i (by omega)]

theorem EndsEarly.parses (h : EndsEarly allow ts) :
    readTokens allow ts = .ok none ⟨none, []⟩ := by
  refine Comes.parses h (Or.inr ⟨_, rfl, rfl⟩) (fun n hn => ?_) _ (Nat.lt_succ_self _)
  obtain ⟨n, rfl⟩ := Nat.exists_eq_succ_of_ne_zero (show n ≠ 0 by omega)
  rw [parseValue]
  rfl

theorem Throws.parses (h : Throws allow ts) : ∃ e s, readTokens allow ts = .error e s := by
  obtain ⟨ts₁, num, rest, hc, hthrown⟩ := h
  refine ⟨.throw (conversionFailed num), at' (.thrown num :: rest),
    Comes.parses hc (Or.inl ⟨_, _, rfl⟩) (fun n hn => ?_) _ (Nat.lt_succ_self _)⟩
  obtain rfl | ⟨f, h⟩ := hthrown
  · exact parseValue_thrown (by omega)
  · obtain ⟨k, hk, hrun⟩ := h.parses
    rw [List.length_cons] at hk
    obtain ⟨m, rfl⟩ : ∃ m, n = m + k := ⟨n - k, by omega⟩
    rw [hrun m (by omega), resume_thrown (by omega)]

theorem Denotes.reads {v : Value R} {rest : List (Lexed R)} (h : Denotes allow True ts v rest) :
    readTokens allow ts = .ok (some v) (at' rest) := h.parses _ (by omega)

/-! ## Where the parser keeps to the grammar of JSON -/

/-- **What is asked of `read_json`**: the value that the tokens denote by the grammar of JSON, with
no error, or none and an error. -/
def Meets (allow : Bool) (ts : List (Lexed R))
    (o : Outcome (Parser R) (Option (Value R))) : Prop :=
  (∃ v rest, Denotes allow False ts v rest ∧ ∃ s, o = .ok (some v) s ∧ s.error = []) ∨
    (¬ (∃ v rest, Denotes allow False ts v rest) ∧ ∃ s, o = .ok none s ∧ s.error ≠ [])

/-- **The parser keeps to the grammar of JSON**, on tokens that do not end where a value is due,
with no number that throws on the way, and where the slip makes no difference: on no others. -/
theorem readTokens_meets (allow : Bool) (ts : List (Lexed R)) :
    Meets allow ts (readTokens allow ts) ↔
      ¬ EndsEarly allow ts ∧ ¬ Slips allow ts ∧ ¬ Throws allow ts := by
  constructor
  · intro hmeets
    refine ⟨fun hends => ?_, fun hslips => ?_, fun hthrows => ?_⟩
    · rw [hends.parses] at hmeets
      obtain ⟨v, rest, -, s, ho, -⟩ | ⟨-, s, ho, herr⟩ := hmeets
      · exact nomatch ho
      · obtain ⟨-, rfl⟩ := Outcome.ok.inj ho
        exact herr rfl
    · obtain ⟨⟨v, rest, hv⟩, hno⟩ := hslips
      rw [hv.reads] at hmeets
      obtain ⟨v', rest', hv', -⟩ | ⟨-, s, ho, -⟩ := hmeets
      · exact hno ⟨v', rest', hv'⟩
      · exact nomatch ho
    · obtain ⟨e, s, ho⟩ := hthrows.parses
      rw [ho] at hmeets
      obtain ⟨v, rest, -, s, ho, -⟩ | ⟨-, s, ho, -⟩ := hmeets <;> exact nomatch ho
  · rintro ⟨hends, hslips, hthrows⟩
    have hsound := readTokens_sound allow ts
    by_cases hdenotes : ∃ v rest, Denotes allow False ts v rest
    · obtain ⟨v, rest, hv⟩ := hdenotes
      exact Or.inl ⟨v, rest, hv, _, (hv.mono False.elim).reads, rfl⟩
    · refine Or.inr ⟨hdenotes, ?_⟩
      cases ho : readTokens allow ts with
      | ok v s =>
        rw [ho] at hsound
        cases v with
        | none =>
          refine ⟨s, rfl, fun herr => ?_⟩
          obtain ⟨-, h⟩ | ⟨hb, -⟩ | hplain := hsound
          · exact hends h
          · rw [herr] at hb
            exact absurd hb (by decide)
          · exact hplain.1 herr
        | some v =>
          obtain ⟨rest, -, hv⟩ := hsound
          exact absurd ⟨⟨v, rest, hv⟩, hdenotes⟩ hslips
      | error e s =>
        rw [ho] at hsound
        exact absurd (Sound.throws hsound) hthrows

theorem Denotes.of_empty {v : Value R} {rest : List (Lexed R)} (h : Denotes allow False ts v rest)
    (hv : v = .array []) : ∃ l r l' r', ts = sym '[' l r :: sym ']' l' r' :: rest := by
  have hsep : ∀ {ts₁}, ¬ Inside allow False ts (.elementSep []) ts₁ := by
    intro ts₁ h
    generalize hf : (Frame.elementSep [] : Frame R) = f at h
    cases h with
    | element h hv =>
      exact absurd (Frame.elementSep.inj hf).symm
        (List.append_ne_nil_of_right_ne_nil _ (List.cons_ne_nil _ _))
    | _ => exact nomatch hf
  cases h with
  | array h =>
    cases hv
    exact absurd h hsep
  | emptyArray h =>
    cases h with
    | openArray => exact ⟨_, _, _, _, rfl⟩
    | elementComma h => exact absurd h hsep
  | slipped hslip => exact hslip.elim
  | _ => exact nomatch hv

/-- No number with a fraction or an exponent. -/
def noReals : Reals := ⟨Empty, fun _ => none, Empty.elim, fun d => d.elim⟩

theorem readJson_slips :
    ¬ Meets false (lexer noReals (text "[[1,]]")) (readJson false (text "[[1,]]")) := by
  have hread : readJson (R := noReals) false (text "[[1,]]") =
      .ok (some (.array [])) (at' [sym ']' 1 2]) := rfl
  rw [hread]
  rintro (⟨v, rest, hv, s, ho, -⟩ | ⟨-, s, ho, -⟩)
  · obtain ⟨hval, -⟩ := Outcome.ok.inj ho
    obtain ⟨l, r, l', r', hts⟩ := hv.of_empty (Option.some.inj hval).symm
    obtain ⟨-, hts⟩ := List.cons.inj hts
    obtain ⟨hsym, -⟩ := List.cons.inj hts
    cases hsym
  · exact nomatch ho

end DaScript.Json
