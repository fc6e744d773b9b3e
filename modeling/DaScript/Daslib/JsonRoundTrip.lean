import DaScript.Daslib.JsonComplete
import DaScript.Daslib.JsonLexerSteps
import Mathlib.Data.List.TakeWhile

/-!
# Daslib/JsonRoundTrip — what `write_json` writes, `read_json` reads

Each part of a text that `write_value` writes is one token, and is read as it (`Reads`); the tokens
of a value together denote it (`Denotes`).  What comes after a number or a name must not go on with
it: after a value the writer only writes a comma, a bracket or a new line.
-/

namespace DaScript.Json

open Text

variable {R : Reals} {allow : Bool} {s : Cursor} {white rest : List UInt8}

/-! ## Strings -/

theorem stringLoop_escapeChar {c : UInt8} (hc : 0x20 ≤ c) (cs : List UInt8) (h : Head)
    (str : List UInt8) : ∃ h', stringLoop (escapeChar c ++ cs) h .plain str =
      stringLoop cs h' .plain (str ++ [c]) := by
  have hcontrol : ∀ d : UInt8, d < 0x20 → c ≠ d := fun d hd heq => absurd hc (by
    rw [heq]
    exact UInt8.not_le.mpr hd)
  rw [escapeChar]
  by_cases hquote : c = ch '"'
  · subst hquote
    exact ⟨(h.read (ch '\\')).read (ch '"'), rfl⟩
  · rw [if_neg hquote]
    by_cases hslash : c = ch '\\'
    · subst hslash
      exact ⟨(h.read (ch '\\')).read (ch '\\'), rfl⟩
    · rw [if_neg hslash, if_neg (hcontrol _ (by decide)), if_neg (hcontrol _ (by decide)),
        if_neg (hcontrol _ (by decide)), if_neg (hcontrol _ (by decide)),
        if_neg (hcontrol _ (by decide)), if_neg (hcontrol _ (by decide)),
        if_neg fun h => absurd (UInt8.le_trans hc h) (by decide)]
      refine ⟨h.read c, ?_⟩
      rw [List.singleton_append, stringLoop, if_neg hquote, if_neg hslash]

theorem stringLoop_flatMap {s : List UInt8} (hs : ∀ c ∈ s, 0x20 ≤ c) (cs : List UInt8) (h : Head)
    (str : List UInt8) : ∃ h', stringLoop (s.flatMap escapeChar ++ cs) h .plain str =
      stringLoop cs h' .plain (str ++ s) := by
  induction s generalizing h str with
  | nil => exact ⟨h, by rw [List.append_nil]; rfl⟩
  | cons c s ih =>
    obtain ⟨h₁, hone⟩ := stringLoop_escapeChar (hs c List.mem_cons_self)
      (s.flatMap escapeChar ++ cs) h str
    obtain ⟨h₂, hrest⟩ := ih (fun c' hc' => hs c' (List.mem_cons_of_mem _ hc')) h₁ (str ++ [c])
    refine ⟨h₂, ?_⟩
    rw [List.flatMap_cons, List.append_assoc, hone, hrest, List.append_assoc, List.singleton_append]

theorem reads_string {str : List UInt8} (hs : s.pending = white ++ (writeString str ++ rest))
    (hwhite : ∀ w ∈ white, isWhiteSpace w = true) (hstr : ∀ c ∈ str, 0x20 ≤ c) :
    Reads (R := R) s (.string str) rest := by
  rw [writeString, List.cons_append, List.cons_append, List.append_assoc] at hs
  obtain ⟨h, hahead, hskip, hone⟩ := lexOne_of_pending (R := R) hs hwhite rfl
  obtain ⟨h', hloop⟩ := stringLoop_flatMap hstr ([ch '"'] ++ rest) h []
  have hend : stringLoop ([ch '"'] ++ rest) h' .plain ([] ++ str) =
      .ok (str, rest, h'.read (ch '"')) := rfl
  refine ⟨(h'.read (ch '"')).line, (h'.read (ch '"')).row,
    Cursor.skip ⟨some rest, h'.read (ch '"')⟩, ?_, Cursor.pending_skip _⟩
  rw [hone, lexOne]
  dsimp only
  rw [hskip]
  dsimp only
  rw [hahead, if_neg (by decide), if_pos rfl, hloop, hend]
  exact congrArg some (Head.yields_goesOn _ _ rfl)

/-! ## Numbers and names -/

/-- What a number is not to be followed by. -/
def endsNumber (c : UInt8) : Bool := !isDigit c && c != ch '.' && c != ch 'e' && c != ch 'E'

theorem readNumber_pending {c : UInt8} {digits : List UInt8} {h : Head} (hahead : h.ahead = c)
    (hdigits : ∀ d ∈ digits, isDigit d = true)
    (hrest : ∀ c, rest.head? = some c → endsNumber c = true) :
    ∃ s : Cursor, s.pending = rest ∧ readNumber ⟨some (digits ++ rest), h⟩ =
      ⟨c :: digits, c = ch '-', true, isDigit c || digits ≠ [], s⟩ := by
  have hends : ∀ c, rest.head? = some c →
      isDigit c = false ∧ c ≠ ch '.' ∧ c ≠ ch 'e' ∧ c ≠ ch 'E' := by
    intro c hc
    have h := hrest c hc
    rw [endsNumber, Bool.and_eq_true, Bool.and_eq_true, Bool.and_eq_true, bne_iff_ne, bne_iff_ne,
      bne_iff_ne, Bool.not_eq_true'] at h
    exact ⟨h.1.1.1, h.1.1.2, h.1.2, h.2⟩
  obtain ⟨s, hpush, hpending⟩ := pushWhile_pending h hdigits fun c hc => (hends c hc).1
  have hnext : s.tin ≠ none → rest.head? = some s.head.ahead := by
    intro htin
    rw [← hpending]
    obtain ⟨tin, h⟩ := s
    cases tin with
    | none => exact absurd rfl htin
    | some cs => rfl
  refine ⟨s, hpending, ?_⟩
  have hpushWhile : Cursor.pushWhile isDigit ⟨some (digits ++ rest), h⟩ = (digits, s) := hpush
  simp only [readNumber, hpushWhile, hahead]
  rw [readFraction, if_neg, readExponent, if_neg]
  · rintro ⟨htin, he | he⟩
    · exact (hends _ (hnext htin)).2.2.1 he
    · exact (hends _ (hnext htin)).2.2.2 he
  · rintro ⟨htin, hdot⟩
    exact (hends _ (hnext htin)).2.1 hdot

theorem reads_number {c : UInt8} {digits : List UInt8} {i : Int64}
    (hs : s.pending = white ++ (c :: (digits ++ rest)))
    (hwhite : ∀ w ∈ white, isWhiteSpace w = true)
    (hc : c = ch '-' ∨ isDigit c = true) (hdigits : ∀ d ∈ digits, isDigit d = true)
    (hrest : ∀ c, rest.head? = some c → endsNumber c = true)
    (htoken : ∀ s, numberToken R ⟨c :: digits, c = ch '-', true, isDigit c || digits ≠ [], s⟩ =
      some (.longint i)) : Reads (R := R) s (.longint i) rest := by
  have hne : ∀ d : UInt8, d ≠ ch '-' → isDigit d = false → c ≠ d := by
    rintro d hminus hdigit rfl
    rcases hc with hc | hc
    · exact hminus hc
    · exact Bool.false_ne_true (hdigit.symm.trans hc)
  have hsymbol : isSymbol c = false := by
    simp only [isSymbol, Bool.or_eq_false_iff, decide_eq_false_iff_not]
    exact ⟨⟨⟨⟨⟨hne _ (by decide) (by decide), hne _ (by decide) (by decide)⟩,
      hne _ (by decide) (by decide)⟩, hne _ (by decide) (by decide)⟩,
      hne _ (by decide) (by decide)⟩, hne _ (by decide) (by decide)⟩
  have hspace : isWhiteSpace c = false := by
    simp only [isWhiteSpace, Bool.or_eq_false_iff, decide_eq_false_iff_not]
    exact ⟨⟨⟨hne _ (by decide) (by decide), hne _ (by decide) (by decide)⟩,
      hne _ (by decide) (by decide)⟩, hne _ (by decide) (by decide)⟩
  obtain ⟨h, hahead, hskip, hone⟩ := lexOne_of_pending (R := R) hs hwhite hspace
  obtain ⟨s', hpending, hread⟩ := readNumber_pending hahead hdigits hrest
  refine ⟨s'.head.line, s'.head.row, s', ?_, hpending⟩
  rw [hone, lexOne]
  dsimp only
  rw [hskip]
  dsimp only
  rw [hahead, if_neg (by rw [hsymbol]; exact Bool.false_ne_true),
    if_neg (hne _ (by decide) (by decide)), if_pos (Or.inr hc), hread, htoken]
  exact congrArg some (Head.yields_goesOn _ _ rfl)

theorem reads_longint {i : Int64} (hs : s.pending = white ++ (decimalInt i.toInt ++ rest))
    (hwhite : ∀ w ∈ white, isWhiteSpace w = true)
    (hrest : ∀ c, rest.head? = some c → endsNumber c = true) :
    Reads (R := R) s (.longint i) rest := by
  have hlo := i.le_toInt
  have hhi := i.toInt_lt
  have hdecimal := readDecimal_decimal i.toInt.natAbs
  have hdigits : ∀ d ∈ decimal i.toInt.natAbs, isDigit d = true := fun d => isDigit_of_mem_decimal
  have hnil := decimal_ne_nil i.toInt.natAbs
  rw [decimalInt] at hs
  split_ifs at hs with hneg
  · refine reads_number hs hwhite (Or.inl rfl) hdigits hrest fun s => ?_
    have hany : (isDigit (ch '-') || decide (decimal i.toInt.natAbs ≠ [])) = true := by
      rw [decide_eq_true hnil, Bool.or_true]
    have hint : int64OfNegative (ch '-' :: decimal i.toInt.natAbs) = some i := by
      rw [int64OfNegative, List.tail_cons, if_pos ⟨hnil, List.all_eq_true.mpr hdigits, by omega⟩,
        hdecimal, Int.ofNat_natAbs_of_nonpos hneg.le, neg_neg, Int64.ofInt_toInt]
    rw [numberToken, hany]
    exact congrArg (Option.map Token.longint) hint
  · generalize hd : decimal i.toInt.natAbs = d at *
    cases d with
    | nil => exact absurd rfl hnil
    | cons c digits =>
      have hc := hdigits c List.mem_cons_self
      refine reads_number hs hwhite (Or.inr hc)
        (fun d hd => hdigits d (List.mem_cons_of_mem _ hd)) hrest fun s => ?_
      have hminus : decide (c = ch '-') = false := by
        refine decide_eq_false fun h => ?_
        rw [h] at hc
        exact absurd hc (by decide)
      have huint : uint64OfText (c :: digits) = some (UInt64.ofNat i.toInt.natAbs) := by
        rw [uint64OfText, if_pos ⟨hnil, List.all_eq_true.mpr hdigits, by omega⟩, hdecimal]
      have hi : (UInt64.ofNat i.toInt.natAbs).toInt64 = i :=
        calc (UInt64.ofNat i.toInt.natAbs).toInt64 = Int64.ofNat i.toInt.natAbs := rfl
          _ = Int64.ofInt i.toInt := by
            rw [← Int64.ofInt_eq_ofNat, Int.natAbs_of_nonneg (not_lt.mp hneg)]
          _ = i := Int64.ofInt_toInt i
      rw [numberToken, hc, hminus]
      refine (congrArg (Option.map fun u : UInt64 => Token.longint u.toInt64) huint).trans ?_
      rw [Option.map_some, hi]

theorem reads_name {c : UInt8} (name : List UInt8) {t : Token R}
    (hs : s.pending = white ++ (c :: (name ++ rest))) (hwhite : ∀ w ∈ white, isWhiteSpace w = true)
    (hname : ∀ d ∈ c :: name, isAlpha d = true)
    (hrest : ∀ c, rest.head? = some c → isAlpha c = false)
    (htoken : nameToken R (c :: name) = t) (ht : t.goesOn = true) : Reads s t rest := by
  have hc := hname c List.mem_cons_self
  have hne : ∀ d : UInt8, isAlpha d = false → c ≠ d := by
    rintro d hd rfl
    exact Bool.false_ne_true (hd.symm.trans hc)
  have hsymbol : isSymbol c = false := by
    simp only [isSymbol, Bool.or_eq_false_iff, decide_eq_false_iff_not]
    exact ⟨⟨⟨⟨⟨hne _ (by decide), hne _ (by decide)⟩, hne _ (by decide)⟩, hne _ (by decide)⟩,
      hne _ (by decide)⟩, hne _ (by decide)⟩
  have hspace : isWhiteSpace c = false := by
    simp only [isWhiteSpace, Bool.or_eq_false_iff, decide_eq_false_iff_not]
    exact ⟨⟨⟨hne _ (by decide), hne _ (by decide)⟩, hne _ (by decide)⟩, hne _ (by decide)⟩
  have hdigit : isDigit c = false := by
    rw [Bool.eq_false_iff]
    intro hd
    simp only [isDigit, isAlpha, Bool.or_eq_true, Bool.and_eq_true, decide_eq_true_eq,
      UInt8.le_iff_toNat_le] at hd hc
    have ha : (ch 'a').toNat = 97 := rfl
    have hA : (ch 'A').toNat = 65 := rfl
    have h57 : (57 : UInt8).toNat = 57 := rfl
    omega
  obtain ⟨h, hahead, hskip, hone⟩ := lexOne_of_pending (R := R) hs hwhite hspace
  obtain ⟨s', hpush, hpending⟩ := pushWhile_pending h
    (fun d hd => hname d (List.mem_cons_of_mem _ hd)) hrest
  have hpushWhile : Cursor.pushWhile isAlpha ⟨some (name ++ rest), h⟩ = (name, s') := hpush
  refine ⟨s'.head.line, s'.head.row, s', ?_, hpending⟩
  rw [hone, lexOne]
  dsimp only
  rw [hskip]
  dsimp only
  rw [hahead, if_neg (by rw [hsymbol]; exact Bool.false_ne_true), if_neg (hne _ (by decide)),
    if_neg, if_pos hc, hpushWhile, htoken]
  · exact congrArg some (Head.yields_goesOn _ _ ht)
  · rintro (hplus | hminus | hd)
    · exact hne _ (by decide) hplus
    · exact hne _ (by decide) hminus
    · exact Bool.false_ne_true (hdigit.symm.trans hd)

/-! ## Values -/

mutual

/-- **What comes back**: no number with a fraction, no control character in a string, and no key
twice. -/
def Writable : Value R → Prop
  | .object pairs => (pairs.map Prod.fst).Nodup ∧ WritablePairs pairs
  | .array elements => WritableElements elements
  | .string s => ∀ c ∈ s, 0x20 ≤ c
  | .number _ => False
  | .longint _ => True
  | .bool _ => True
  | .null => True

def WritableElements : List (Value R) → Prop
  | [] => True
  | v :: vs => Writable v ∧ WritableElements vs

def WritablePairs : List (List UInt8 × Value R) → Prop
  | [] => True
  | p :: ps => (∀ c ∈ p.1, 0x20 ≤ c) ∧ Writable p.2 ∧ WritablePairs ps

end

/-- What the writer goes on with after a value. -/
def Delimits (rest : List UInt8) : Prop := ∀ c, rest.head? = some c → c = ch '\n' ∨ c = ch ','

theorem Delimits.endsNumber (h : Delimits rest) :
    ∀ c, rest.head? = some c → endsNumber c = true := by
  intro c hc
  rcases h c hc with rfl | rfl <;> rfl

theorem Delimits.isAlpha (h : Delimits rest) : ∀ c, rest.head? = some c → isAlpha c = false := by
  intro c hc
  rcases h c hc with rfl | rfl <;> rfl

theorem delimits_newLine (depth : ℕ) (rest : List UInt8) : Delimits (newLine depth ++ rest) := by
  intro c hc
  exact Or.inl (Option.some.inj hc).symm

theorem delimits_writeElements (vs : List (Value R)) (depth : ℕ) (h : Delimits rest) :
    Delimits (writeElements vs depth ++ rest) := by
  cases vs with
  | nil => rw [writeElements]; exact h
  | cons v vs =>
    intro c hc
    rw [writeElements] at hc
    exact Or.inr (Option.some.inj hc).symm

theorem delimits_writePairs (ps : List (List UInt8 × Value R)) (depth : ℕ) (h : Delimits rest) :
    Delimits (writePairs ps depth ++ rest) := by
  cases ps with
  | nil => rw [writePairs]; exact h
  | cons p ps =>
    intro c hc
    rw [writePairs] at hc
    exact Or.inr (Option.some.inj hc).symm

theorem isWhiteSpace_newLine (depth : ℕ) : ∀ c ∈ newLine depth, isWhiteSpace c = true := by
  intro c hc
  rcases List.mem_cons.mp hc with rfl | hc
  · rfl
  · rw [List.eq_of_mem_replicate hc]
    rfl

theorem insertPair_new {V : Type} {k : List UInt8} {v : V} {tab : List (List UInt8 × V)}
    (hk : k ∉ tab.map Prod.fst) : insertPair k v tab = tab ++ [(k, v)] := by
  induction tab with
  | nil => rfl
  | cons p tab ih =>
    rw [List.map_cons, List.mem_cons, not_or] at hk
    rw [insertPair, if_neg (Ne.symm hk.1), ih hk.2]
    rfl

theorem Reads.runs {t : Token R} (h : Reads s t rest) :
    ∃ l r s', Runs s [.token ⟨t, l, r⟩] s' ∧ s'.pending = rest := by
  obtain ⟨l, r, s', hone, hpending⟩ := h
  exact ⟨l, r, s', .step hone (.refl s'), hpending⟩

theorem runs_symbol (white : List UInt8) (c : Char) (hs : s.pending = white ++ (ch c :: rest))
    (hwhite : ∀ w ∈ white, isWhiteSpace w = true) (hc : isSymbol (ch c) = true)
    (hcw : isWhiteSpace (ch c) = false) :
    ∃ l r s', Runs (R := R) s [sym c l r] s' ∧ s'.pending = rest :=
  (reads_symbol hs hwhite hc hcw).runs

mutual

theorem value_reads (v : Value R) (hv : Writable v) {depth : ℕ} {s : Cursor}
    (white : List UInt8) {rest : List UInt8}
    (hs : s.pending = white ++ (writeValue v depth ++ rest))
    (hwhite : ∀ w ∈ white, isWhiteSpace w = true) (hrest : Delimits rest) :
    ∃ ts s', Runs s ts s' ∧ s'.pending = rest ∧
      ∀ more, Denotes allow False (ts ++ more) v more := by
  match v with
  | .string str =>
    rw [writeValue] at hs
    obtain ⟨l, r, s', hruns, hpending⟩ := (reads_string hs hwhite hv).runs (R := R)
    exact ⟨_, s', hruns, hpending, fun more => .string⟩
  | .number d => exact hv.elim
  | .longint i =>
    rw [writeValue] at hs
    obtain ⟨l, r, s', hruns, hpending⟩ := (reads_longint hs hwhite hrest.endsNumber).runs (R := R)
    exact ⟨_, s', hruns, hpending, fun more => .longint⟩
  | .bool true =>
    rw [writeValue, if_pos rfl] at hs
    obtain ⟨l, r, s', hruns, hpending⟩ := (reads_name (R := R) (text "rue") hs hwhite
      (List.all_eq_true.mp rfl) hrest.isAlpha rfl rfl).runs
    exact ⟨_, s', hruns, hpending, fun more => .bool⟩
  | .bool false =>
    rw [writeValue, if_neg Bool.false_ne_true] at hs
    obtain ⟨l, r, s', hruns, hpending⟩ := (reads_name (R := R) (text "alse") hs hwhite
      (List.all_eq_true.mp rfl) hrest.isAlpha rfl rfl).runs
    exact ⟨_, s', hruns, hpending, fun more => .bool⟩
  | .null =>
    rw [writeValue] at hs
    obtain ⟨l, r, s', hruns, hpending⟩ := (reads_name (R := R) (text "ull") hs hwhite
      (List.all_eq_true.mp rfl) hrest.isAlpha rfl rfl).runs
    exact ⟨_, s', hruns, hpending, fun more => .null⟩
  | .array [] =>
    rw [writeValue] at hs
    obtain ⟨l, r, s₁, hopen, h₁⟩ := runs_symbol (R := R) _ '[' hs hwhite rfl rfl
    obtain ⟨l', r', s₂, hclose, h₂⟩ := runs_symbol (R := R) [] ']' h₁
      (fun w hw => nomatch hw) rfl rfl
    exact ⟨_, s₂, hopen.trans hclose, h₂, fun more => .emptyArray .openArray⟩
  | .array (v :: vs) =>
    have ⟨hv, hvs⟩ := hv
    rw [writeValue] at hs
    simp only [List.cons_append, List.append_assoc] at hs
    obtain ⟨l, r, s₁, hopen, h₁⟩ := runs_symbol (R := R) _ '[' hs hwhite rfl rfl
    obtain ⟨tv, s₂, hvalue, h₂, hdv⟩ := value_reads v hv _ h₁ (isWhiteSpace_newLine _)
      (delimits_writeElements vs _ (delimits_newLine _ _))
    obtain ⟨te, s₃, helements, h₃, hde⟩ := elements_read vs hvs h₂ (delimits_newLine _ _)
    obtain ⟨l', r', s₄, hclose, h₄⟩ := runs_symbol (R := R) _ ']' h₃
      (isWhiteSpace_newLine _) rfl rfl
    refine ⟨_, s₄, hopen.trans (hvalue.trans (helements.trans hclose)), h₄, fun more => ?_⟩
    simp only [List.append_assoc, List.cons_append, List.nil_append]
    exact .array (hde _ [v] _ (.element .openArray (hdv _)))
  | .object [] =>
    rw [writeValue] at hs
    obtain ⟨l, r, s₁, hopen, h₁⟩ := runs_symbol (R := R) _ '{' hs hwhite rfl rfl
    obtain ⟨l', r', s₂, hclose, h₂⟩ := runs_symbol (R := R) [] '}' h₁
      (fun w hw => nomatch hw) rfl rfl
    exact ⟨_, s₂, hopen.trans hclose, h₂, fun more => .emptyObject .openObject⟩
  | .object (p :: ps) =>
    have ⟨hkeys, hp, hpv, hps⟩ := hv
    rw [writeValue] at hs
    simp only [List.cons_append, List.append_assoc] at hs
    obtain ⟨l, r, s₁, hopen, h₁⟩ := runs_symbol (R := R) _ '{' hs hwhite rfl rfl
    obtain ⟨tp, s₂, hpair, h₂, hdp⟩ := pair_reads p hp hpv h₁ (isWhiteSpace_newLine _)
      (delimits_writePairs ps _ (delimits_newLine _ _))
    obtain ⟨te, s₃, hpairs, h₃, hde⟩ := pairs_read ps hps h₂ (delimits_newLine _ _)
    obtain ⟨l', r', s₄, hclose, h₄⟩ := runs_symbol (R := R) _ '}' h₃
      (isWhiteSpace_newLine _) rfl rfl
    refine ⟨_, s₄, hopen.trans (hpair.trans (hpairs.trans hclose)), h₄, fun more => ?_⟩
    simp only [List.append_assoc, List.cons_append, List.nil_append]
    exact .object (hde _ [p] _ hkeys (hdp _ [] _ (fun h => nomatch h) .openObject))

theorem elements_read (vs : List (Value R)) (hvs : WritableElements vs) {depth : ℕ} {s : Cursor}
    {rest : List UInt8} (hs : s.pending = writeElements vs depth ++ rest) (hrest : Delimits rest) :
    ∃ ts s', Runs s ts s' ∧ s'.pending = rest ∧ ∀ T arr more,
      Inside allow False T (.elementSep arr) (ts ++ more) →
        Inside allow False T (.elementSep (arr ++ vs)) more := by
  match vs with
  | [] =>
    rw [writeElements] at hs
    exact ⟨[], s, .refl s, hs, fun T arr more h => by rw [List.append_nil]; exact h⟩
  | v :: vs =>
    have ⟨hv, hvs⟩ := hvs
    rw [writeElements] at hs
    simp only [List.cons_append, List.append_assoc] at hs
    obtain ⟨l, r, s₁, hcomma, h₁⟩ := runs_symbol (R := R) [] ',' hs
      (fun w hw => nomatch hw) rfl rfl
    obtain ⟨tv, s₂, hvalue, h₂, hdv⟩ := value_reads v hv _ h₁ (isWhiteSpace_newLine _)
      (delimits_writeElements vs _ hrest)
    obtain ⟨te, s₃, helements, h₃, hde⟩ := elements_read vs hvs h₂ hrest
    refine ⟨_, s₃, hcomma.trans (hvalue.trans helements), h₃, fun T arr more h => ?_⟩
    simp only [List.append_assoc, List.cons_append, List.nil_append] at h
    have hmore := hde _ _ _ (.element (.elementComma h) (hdv _))
    rwa [List.append_assoc] at hmore

theorem pair_reads (p : List UInt8 × Value R) (hk : ∀ c ∈ p.1, 0x20 ≤ c) (hv : Writable p.2)
    {depth : ℕ} {s : Cursor} {white rest : List UInt8}
    (hs : s.pending = white ++ (writeString p.1 ++ (text " : " ++ (writeValue p.2 depth ++ rest))))
    (hwhite : ∀ w ∈ white, isWhiteSpace w = true) (hrest : Delimits rest) :
    ∃ ts s', Runs s ts s' ∧ s'.pending = rest ∧ ∀ T tab more, p.1 ∉ tab.map Prod.fst →
      Inside allow False T (.key tab) (ts ++ more) →
        Inside allow False T (.pairSep (tab ++ [p])) more := by
  match p with
  | (k, v) =>
    have hspace : ∀ w ∈ [ch ' '], isWhiteSpace w = true := List.all_eq_true.mp rfl
    obtain ⟨l, r, s₁, hkey, h₁⟩ := (reads_string hs hwhite hk).runs (R := R)
    obtain ⟨l', r', s₂, hcolon, h₂⟩ := runs_symbol (R := R) [ch ' '] ':' h₁
      hspace rfl rfl
    obtain ⟨tv, s₃, hvalue, h₃, hdv⟩ := value_reads v hv [ch ' '] h₂ hspace hrest
    refine ⟨_, s₃, hkey.trans (hcolon.trans hvalue), h₃, fun T tab more hnew h => ?_⟩
    simp only [List.cons_append, List.nil_append] at h
    have hpair := Inside.pair (.colon (.key h)) (hdv _) (Or.inr hnew)
    rwa [insertPair_new hnew] at hpair

theorem pairs_read (ps : List (List UInt8 × Value R)) (hps : WritablePairs ps) {depth : ℕ}
    {s : Cursor} {rest : List UInt8} (hs : s.pending = writePairs ps depth ++ rest)
    (hrest : Delimits rest) :
    ∃ ts s', Runs s ts s' ∧ s'.pending = rest ∧ ∀ T tab more,
      ((tab ++ ps).map Prod.fst).Nodup → Inside allow False T (.pairSep tab) (ts ++ more) →
        Inside allow False T (.pairSep (tab ++ ps)) more := by
  match ps with
  | [] =>
    rw [writePairs] at hs
    exact ⟨[], s, .refl s, hs, fun T tab more _ h => by rw [List.append_nil]; exact h⟩
  | p :: ps =>
    have ⟨hp, hpv, hps⟩ := hps
    rw [writePairs] at hs
    simp only [List.cons_append, List.append_assoc] at hs
    obtain ⟨l, r, s₁, hcomma, h₁⟩ := runs_symbol (R := R) [] ',' hs
      (fun w hw => nomatch hw) rfl rfl
    obtain ⟨tp, s₂, hpair, h₂, hdp⟩ := pair_reads p hp hpv h₁ (isWhiteSpace_newLine _)
      (delimits_writePairs ps _ hrest)
    obtain ⟨te, s₃, hpairs, h₃, hde⟩ := pairs_read ps hps h₂ hrest
    refine ⟨_, s₃, hcomma.trans (hpair.trans hpairs), h₃, fun T tab more hkeys h => ?_⟩
    simp only [List.append_assoc, List.cons_append, List.nil_append] at h
    have hnew : p.1 ∉ tab.map Prod.fst := by
      rw [List.map_append, List.map_cons] at hkeys
      exact fun hmem => List.disjoint_of_nodup_append hkeys hmem List.mem_cons_self
    rw [List.append_cons] at hkeys
    have hmore := hde _ _ _ hkeys (hdp _ _ _ hnew (.pairComma h))
    rwa [List.append_assoc] at hmore

end

/-! ## The round trip -/

theorem zero_notMem_writeString {str : List UInt8} (hstr : ∀ c ∈ str, 0x20 ≤ c) :
    (0 : UInt8) ∉ writeString str := by
  have hescape : ∀ c ∈ str, (0 : UInt8) ∉ escapeChar c := by
    intro c hc
    have hcontrol : ∀ d : UInt8, d ≤ 0x1f → c ≠ d := by
      rintro d hd rfl
      exact absurd (UInt8.le_trans (hstr c hc) hd) (by decide)
    rw [escapeChar, if_neg (hcontrol 8 (by decide)), if_neg (hcontrol 11 (by decide)),
      if_neg (hcontrol 12 (by decide)), if_neg (hcontrol (ch '\n') (by decide)),
      if_neg (hcontrol (ch '\r') (by decide)), if_neg (hcontrol (ch '\t') (by decide)),
      if_neg fun h => hcontrol c h rfl]
    split_ifs
    · decide
    · decide
    · exact fun h => hcontrol 0 (by decide) (List.mem_singleton.mp h).symm
  rw [writeString, List.mem_append, List.mem_cons, List.mem_flatMap]
  rintro ((h | ⟨c, hc, h⟩) | h)
  · exact absurd h (by decide)
  · exact hescape c hc h
  · exact absurd h (by decide)

theorem zero_notMem_decimalInt (i : ℤ) : (0 : UInt8) ∉ decimalInt i := by
  have hdigits : (0 : UInt8) ∉ decimal i.natAbs :=
    fun h => absurd (isDigit_of_mem_decimal h) (by decide)
  rw [decimalInt]
  split_ifs
  · rw [List.mem_cons, not_or]
    exact ⟨by decide, hdigits⟩
  · exact hdigits

theorem zero_notMem_newLine (depth : ℕ) : (0 : UInt8) ∉ newLine depth :=
  fun h => absurd (isWhiteSpace_newLine depth 0 h) (by decide)

mutual

theorem zero_notMem_writeValue (v : Value R) (hv : Writable v) (depth : ℕ) :
    (0 : UInt8) ∉ writeValue v depth := by
  have hline := zero_notMem_newLine
  match v with
  | .string s => rw [writeValue]; exact zero_notMem_writeString hv
  | .number d => exact hv.elim
  | .longint i => rw [writeValue]; exact zero_notMem_decimalInt _
  | .bool b => rw [writeValue]; cases b <;> decide
  | .null => rw [writeValue]; decide
  | .array [] => rw [writeValue]; decide
  | .array (v :: vs) =>
    rw [writeValue]
    simp only [List.mem_append, List.mem_cons, List.not_mem_nil, not_or, or_false]
    exact ⟨⟨⟨⟨⟨by decide, hline _⟩, zero_notMem_writeValue v hv.1 _⟩,
      zero_notMem_writeElements vs hv.2 _⟩, hline _⟩, by decide⟩
  | .object [] => rw [writeValue]; decide
  | .object ((k, v) :: ps) =>
    have ⟨hk, hv, hps⟩ := hv.2
    rw [writeValue]
    simp only [List.mem_append, List.mem_cons, List.not_mem_nil, not_or, or_false]
    exact ⟨⟨⟨⟨⟨⟨⟨by decide, hline _⟩, zero_notMem_writeString hk⟩, by decide⟩,
      zero_notMem_writeValue v hv _⟩, zero_notMem_writePairs ps hps _⟩, hline _⟩, by decide⟩

theorem zero_notMem_writeElements (vs : List (Value R)) (hvs : WritableElements vs) (depth : ℕ) :
    (0 : UInt8) ∉ writeElements vs depth := by
  match vs with
  | [] => rw [writeElements]; exact List.not_mem_nil
  | v :: vs =>
    rw [writeElements]
    simp only [List.mem_append, List.mem_cons, not_or]
    exact ⟨⟨⟨by decide, zero_notMem_newLine _⟩, zero_notMem_writeValue v hvs.1 _⟩,
      zero_notMem_writeElements vs hvs.2 _⟩

theorem zero_notMem_writePairs (ps : List (List UInt8 × Value R)) (hps : WritablePairs ps)
    (depth : ℕ) : (0 : UInt8) ∉ writePairs ps depth := by
  match ps with
  | [] => rw [writePairs]; exact List.not_mem_nil
  | (k, v) :: ps =>
    have ⟨hk, hv, hps⟩ := hps
    rw [writePairs]
    simp only [List.mem_append, List.mem_cons, not_or]
    exact ⟨⟨⟨⟨⟨by decide, zero_notMem_newLine _⟩, zero_notMem_writeString hk⟩, by decide⟩,
      zero_notMem_writeValue v hv _⟩, zero_notMem_writePairs ps hps _⟩

end

/-- An object in an array, with a key that is escaped and the least of the integers. -/
def nested : Value noReals :=
  .array [.object [(text "\"\x7b", .longint Int64.minValue)], .null]

end DaScript.Json
