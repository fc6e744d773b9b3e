import DaScript.Daslib.JsonGrammar

/-!
# Daslib/JsonSound — the parser keeps to the grammar

What `parse_value` returns is what the tokens denote by the grammar with the slip, and what it
objects to is there: `Sound` says it of an outcome, and `parse_sound` of the parser, by the depth of
its calls.  A call in a frame is sound for the tokens the frame was opened at.
-/

namespace DaScript.Json

open Text

variable {R : Reals} {allow : Bool} {ts ts₁ : List (Lexed R)} {f : Frame R}

/-- **A call found no value**: the tokens end too early, with no error; or one breaks off at a
bracket; or there is an error of another kind. -/
def Fails (allow : Bool) (ts : List (Lexed R)) (s : Parser R) : Prop :=
  (s.error = [] ∧ EndsEarly allow ts) ∨
    (aboutBracket s.error = true ∧ ∃ rest, s.itv = some rest ∧ Breaks allow True ts rest) ∨
    Plain s.error

/-- **The outcome of `parse_value` is right** by the grammar with the slip. -/
def Sound (allow : Bool) (ts : List (Lexed R)) : Outcome (Parser R) (Option (Value R)) → Prop
  | .ok (some v) s => ∃ rest, s = at' rest ∧ Denotes allow True ts v rest
  | .ok none s => Fails allow ts s
  | .error (.hang _) _ => False
  | .error _ _ => Throws allow ts

/-! ## Inside a frame -/

theorem Throws.inside (h : Inside allow True ts f ts₁) (hf : f.valueDue)
    (ht : Throws allow ts₁) : Throws allow ts := by
  obtain ⟨ts₂, num, rest, hc, ht⟩ := ht
  exact ⟨ts₂, num, rest, .inside h hf hc, ht⟩

theorem Throws.thrown {num : List UInt8} {rest : List (Lexed R)}
    (h : Inside allow True ts f (.thrown num :: rest)) : Throws allow ts :=
  ⟨ts, num, rest, .here, Or.inr ⟨f, h⟩⟩

theorem Fails.inside {s : Parser R} (h : Inside allow True ts f ts₁) (hf : f.valueDue)
    (hne : f ≠ .element []) (hs : Fails allow ts₁ s) : Fails allow ts s := by
  obtain ⟨herr, hends⟩ | ⟨herr, rest, hitv, hb⟩ | hplain := hs
  · exact Or.inl ⟨herr, .inside h hf hends⟩
  · exact Or.inr (Or.inl ⟨herr, rest, hitv, .inside h hf hne hb⟩)
  · exact Or.inr (Or.inr hplain)

theorem Fails.plain {s : Parser R} (h : Plain s.error) : Fails allow ts s := Or.inr (Or.inr h)

theorem Sound.throws {e : Fault} {s : Parser R} (h : Sound allow ts (.error e s)) :
    Throws allow ts := by
  cases e with
  | hang loop => exact h.elim
  | throw msg => exact h
  | verify msg => exact h
  | assert msg => exact h
  | fatal msg => exact h
  | null pointer => exact h
  | undefined what => exact h

theorem Sound.bind_value {o : Outcome (Parser R) (Option (Value R))}
    {k : Option (Value R) → Parser R → Outcome (Parser R) (Option (Value R))}
    (h : Inside allow True ts f ts₁) (hf : f.valueDue) (ho : Sound allow ts₁ o)
    (hnone : ∀ s, Fails allow ts₁ s → Sound allow ts (k none s))
    (hsome : ∀ v rest, Denotes allow True ts₁ v rest → Sound allow ts (k (some v) (at' rest))) :
    Sound allow ts (o.bind k) := by
  cases o with
  | ok v s =>
    cases v with
    | none => exact hnone s ho
    | some v =>
      obtain ⟨rest, rfl, hv⟩ := ho
      exact hsome v rest hv
  | error e s =>
    have hthrows := Throws.inside h hf ho.throws
    cases e with
    | hang loop => exact ho.elim
    | throw msg => exact hthrows
    | verify msg => exact hthrows
    | assert msg => exact hthrows
    | fatal msg => exact hthrows
    | null pointer => exact hthrows
    | undefined what => exact hthrows

theorem Fails.symbolDue {t : TokenAt R} {rest : List (Lexed R)} {error : List UInt8}
    (h : Inside allow True ts f (.token t :: rest)) (hf : f.symbolDue) (hne : error ≠ [])
    (hb : aboutBracket error = true ↔ ∃ s, t.value = .string s ∧ s.head? = some (ch ']')) :
    Fails allow ts ⟨some rest, error⟩ := by
  by_cases hs : ∃ s, t.value = .string s ∧ s.head? = some (ch ']')
  · obtain ⟨s, hval, hhead⟩ := hs
    obtain ⟨t, l, r⟩ := t
    obtain rfl : t = .string s := hval
    exact Or.inr (Or.inl ⟨hb.mpr ⟨s, rfl, hhead⟩, rest, rfl, .quoted h hf hhead⟩)
  · exact Fails.plain ⟨hne, Bool.eq_false_iff.mpr fun h => hs (hb.mp h)⟩

theorem separator_sound {close : UInt8} {what : String} {v : Value R}
    {more : Parser R → Outcome (Parser R) (Option (Value R))}
    (h : Inside allow True ts f ts₁) (hf : f.symbolDue)
    (hwhat : (text what).head? ≠ some (ch ']'))
    (hclose : ∀ l r rest, ts₁ = .token ⟨.symbol close, l, r⟩ :: rest → Denotes allow True ts v rest)
    (hmore : ∀ l r rest, ts₁ = sym ',' l r :: rest → Sound allow ts (more (at' rest))) :
    Sound allow ts (separator close what v more (at' ts₁)) := by
  rw [separator, expectSymbolToken]
  cases ts₁ with
  | nil => exact Fails.plain plain_unexectedEos
  | cons t ts₁ =>
    cases t with
    | thrown num => exact Throws.thrown h
    | token t =>
      have hbad : Fails allow ts ⟨some ts₁, unexpectedVariant t 5⟩ :=
        Fails.symbolDue h hf (unexpectedVariant_ne_nil t 5) (aboutBracket_variant t 5)
      obtain ⟨t, l, r⟩ := t
      cases t with
      | symbol c =>
        change Sound allow ts (if c = close then _ else if c = ch ',' then _ else _)
        split_ifs with hc hcomma
        · exact ⟨ts₁, rfl, hclose l r ts₁ (by rw [hc])⟩
        · exact hmore l r ts₁ (by rw [hcomma])
        · exact Fails.plain (plain_symbol hwhat _ _)
      | string s => exact hbad
      | number d => exact hbad
      | longint i => exact hbad
      | bool b => exact hbad
      | null => exact hbad
      | error e => exact hbad

theorem colon_sound {tab : List (List UInt8 × Value R)} {k : List UInt8} {n : ℕ}
    (h : Inside allow True ts (.colon tab k) ts₁)
    (hmore : ∀ colon rest, ts₁.length = rest.length + 1 →
      Inside allow True ts (.pair tab k colon) rest →
      Sound allow ts (afterColon allow tab k colon n (at' rest))) :
    Sound allow ts (resume allow (.colon tab k) n (at' ts₁)) := by
  rw [resume, expectColon]
  cases ts₁ with
  | nil => exact Fails.plain plain_unexectedEos
  | cons t ts₁ =>
    cases t with
    | thrown num => exact Throws.thrown h
    | token t =>
      have hbad : Fails allow ts ⟨some ts₁, unexpectedNoSymbol t⟩ :=
        Fails.symbolDue h trivial (unexpectedNoSymbol_ne_nil t) (aboutBracket_noSymbol t)
      obtain ⟨t, l, r⟩ := t
      cases t with
      | symbol c =>
        by_cases hc : c = ch ':'
        · subst hc
          exact hmore _ _ rfl (.colon h)
        · have hplain : Plain (unexpectedOtherSymbol (⟨.symbol c, l, r⟩ : TokenAt R) (ch ':')) :=
            plain_otherSymbol _ rfl _
          change Sound allow ts (Outcome.bind (if c = ch ':' then _ else _) _)
          rw [if_neg hc]
          exact Fails.plain hplain
      | string s => exact hbad
      | number d => exact hbad
      | longint i => exact hbad
      | bool b => exact hbad
      | null => exact hbad
      | error e => exact hbad

theorem key_sound {tab : List (List UInt8 × Value R)} {n : ℕ}
    (h : Inside allow True ts (.key tab) ts₁)
    (hmore : ∀ k rest, ts₁.length = rest.length + 1 → Inside allow True ts (.colon tab k) rest →
      Sound allow ts (resume allow (.colon tab k) n (at' rest))) :
    Sound allow ts (parsePairs allow (n + 1) tab (at' ts₁)) := by
  rw [parsePairs_succ, expectKey]
  cases ts₁ with
  | nil => exact Fails.plain plain_unexectedEos
  | cons t ts₁ =>
    cases t with
    | thrown num => exact Throws.thrown h
    | token t =>
      obtain ⟨t, l, r⟩ := t
      cases t with
      | string k => exact hmore k ts₁ rfl (.key h)
      | symbol c =>
        have hplain : Plain (unexpectedVariant (⟨.symbol c, l, r⟩ : TokenAt R) 0) :=
          plain_variant _ 0 (by rintro s ⟨⟩)
        by_cases hc : c = ch '}'
        · subst hc
          cases tab with
          | nil => exact ⟨ts₁, rfl, .emptyObject h⟩
          | cons p tab => exact Fails.plain hplain
        · have hfail : (if c = ch '}' then KeyRead.brace else .fail) = .fail := if_neg hc
          rw [Parser.next, Outcome.bind_ok, Outcome.bind_ok, hfail]
          exact Fails.plain hplain
      | number d => exact Fails.plain (plain_variant _ 0 (by rintro s ⟨⟩))
      | longint i => exact Fails.plain (plain_variant _ 0 (by rintro s ⟨⟩))
      | bool b => exact Fails.plain (plain_variant _ 0 (by rintro s ⟨⟩))
      | null => exact Fails.plain (plain_variant _ 0 (by rintro s ⟨⟩))
      | error e => exact Fails.plain (plain_variant _ 0 (by rintro s ⟨⟩))

theorem elementFailed_sound {arr : List (Value R)} {s : Parser R}
    (h : Inside allow True ts (.element arr) ts₁) (hs : Fails allow ts₁ s) :
    Sound allow ts (elementFailed arr s) := by
  rw [elementFailed]
  by_cases hempty : aboutBracket s.error && arr.isEmpty
  · rw [if_pos hempty]
    rw [Bool.and_eq_true, List.isEmpty_iff] at hempty
    obtain ⟨hb, rfl⟩ := hempty
    obtain ⟨herr, -⟩ | ⟨-, rest, hitv, hbreaks⟩ | hplain := hs
    · rw [herr] at hb
      exact absurd hb (by decide)
    · exact ⟨rest, by rw [hitv], .slipped trivial h hbreaks⟩
    · rw [hplain.2] at hb
      exact nomatch hb
  · rw [if_neg hempty]
    by_cases harr : arr = []
    · subst harr
      rw [List.isEmpty_nil, Bool.and_true] at hempty
      obtain ⟨herr, hends⟩ | ⟨hb, -⟩ | hplain := hs
      · exact Or.inl ⟨herr, .inside h trivial hends⟩
      · exact absurd hb hempty
      · exact Fails.plain hplain
    · exact hs.inside h trivial fun heq => harr (Frame.element.inj heq)

/-! ## The parser -/

theorem calls_sound (allow : Bool) (n : ℕ) :
    (∀ ts : List (Lexed R), 2 * ts.length + 1 ≤ n → Sound allow ts (parseValue allow n (at' ts))) ∧
    (∀ (ts ts₁ : List (Lexed R)) arr, 2 * ts₁.length + 2 ≤ n →
      Inside allow True ts (.element arr) ts₁ →
      Sound allow ts (parseElements allow n arr (at' ts₁))) ∧
    (∀ (ts ts₁ : List (Lexed R)) tab, 2 * ts₁.length + 2 ≤ n →
      Inside allow True ts (.key tab) ts₁ →
      Sound allow ts (parsePairs allow n tab (at' ts₁))) := by
  induction n with
  | zero => exact ⟨fun _ h => by omega, fun _ _ _ h => by omega, fun _ _ _ h => by omega⟩
  | succ n ih =>
    obtain ⟨hvalue, helements, hpairs⟩ := ih
    refine ⟨fun ts hn => ?_, fun ts ts₁ arr hn h => ?_, fun ts ts₁ tab hn h => ?_⟩
    · rw [parseValue]
      cases ts with
      | nil => exact Or.inl ⟨rfl, .here⟩
      | cons t ts =>
        rw [List.length_cons] at hn
        cases t with
        | thrown num => exact ⟨_, num, ts, .here, Or.inl rfl⟩
        | token t =>
          obtain ⟨t, l, r⟩ := t
          cases t with
          | symbol c =>
            change Sound allow _ (if c = ch ']' then _ else if c = ch '[' then _ else
              if c = ch '{' then _ else _)
            split_ifs with hclose hopen hbrace
            · subst hclose
              exact Or.inr (Or.inl ⟨aboutBracket_bracket _, ts, rfl, .bracket⟩)
            · subst hopen
              exact helements _ ts [] (by omega) .openArray
            · subst hbrace
              exact hpairs _ ts [] (by omega) .openObject
            · exact Fails.plain (plain_symbol (by decide) _ _)
          | string s => exact ⟨ts, rfl, .string⟩
          | number d => exact ⟨ts, rfl, .number⟩
          | longint i => exact ⟨ts, rfl, .longint⟩
          | bool b => exact ⟨ts, rfl, .bool⟩
          | null => exact ⟨ts, rfl, .null⟩
          | error e => exact Fails.plain (plain_errorToken _ rfl)
    · rw [parseElements_succ]
      refine Sound.bind_value h trivial (hvalue ts₁ (by omega))
        (fun s hs => elementFailed_sound h hs) fun v rest hv => ?_
      have hlen := hv.length_lt
      refine separator_sound (h.element hv) trivial (by decide) ?_ ?_
      · rintro l r rest' rfl
        exact .array (h.element hv)
      · rintro l r rest' rfl
        rw [List.length_cons] at hlen
        exact helements _ _ _ (by omega) (h.element hv).elementComma
    · refine key_sound h fun k rest hk hkey => colon_sound hkey fun colon rest' hk' hcolon => ?_
      refine Sound.bind_value hcolon trivial (hvalue rest' (by omega))
        (fun s hs => hs.inside hcolon trivial fun h => nomatch h) fun v rest'' hv => ?_
      have hlen := hv.length_lt
      change Sound allow ts (if _ then _ else _)
      split_ifs with hdup
      · exact Fails.plain (plain_duplicateKey _ _)
      · have hkey : allow = true ∨ k ∉ tab.map Prod.fst := by
          cases allow with
          | true => exact Or.inl rfl
          | false => exact Or.inr fun hmem => hdup (List.contains_iff_mem.mpr hmem)
        have hpair := hcolon.pair hv hkey
        refine separator_sound hpair trivial (by decide) ?_ ?_
        · rintro l r rest' rfl
          exact .object hpair
        · rintro l r rest' rfl
          rw [List.length_cons] at hlen
          exact hpairs _ _ _ (by omega) hpair.pairComma

theorem readTokens_sound (allow : Bool) (ts : List (Lexed R)) :
    Sound allow ts (readTokens allow ts) := (calls_sound allow _).1 ts le_rfl

end DaScript.Json
