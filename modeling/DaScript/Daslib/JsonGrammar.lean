import DaScript.Daslib.Json

/-!
# Daslib/JsonGrammar — what the JSON parser accepts

The grammar is read along the tokens: a container that has been opened is a `Frame` that says what
is due in it next, and a sequence of tokens `Denotes` a value when its frames come to an end.  The
parser mistakes a value that breaks off at a bracket for the end of the array it begins
(`Denotes.slipped`); with `slip` false that rule is gone, and what is left is the grammar of JSON.
-/

namespace DaScript.Json

open Text

variable {R : Reals}

/-- A symbol. -/
abbrev sym (c : Char) (line row : ℕ) : Lexed R := .token ⟨.symbol (ch c), line, row⟩

/-- **A container that has been opened**, and what is due in it. -/
inductive Frame (R : Reals)
  | element (arr : List (Value R))
  | elementSep (arr : List (Value R))
  | key (tab : List (List UInt8 × Value R))
  | colon (tab : List (List UInt8 × Value R)) (k : List UInt8)
  | pair (tab : List (List UInt8 × Value R)) (k : List UInt8) (colon : TokenAt R)
  | pairSep (tab : List (List UInt8 × Value R))

namespace Frame

def valueDue : Frame R → Prop
  | .element _ => True
  | .elementSep _ => False
  | .key _ => False
  | .colon _ _ => False
  | .pair _ _ _ => True
  | .pairSep _ => False

def symbolDue : Frame R → Prop
  | .element _ => False
  | .elementSep _ => True
  | .key _ => False
  | .colon _ _ => True
  | .pair _ _ _ => False
  | .pairSep _ => True

end Frame

mutual

/-- **The tokens denote a value**, up to those that follow it. -/
inductive Denotes (allow : Bool) (slip : Prop) :
    List (Lexed R) → Value R → List (Lexed R) → Prop
  | string {s l r ts} : Denotes allow slip (.token ⟨.string s, l, r⟩ :: ts) (.string s) ts
  | number {d l r ts} : Denotes allow slip (.token ⟨.number d, l, r⟩ :: ts) (.number d) ts
  | longint {i l r ts} : Denotes allow slip (.token ⟨.longint i, l, r⟩ :: ts) (.longint i) ts
  | bool {b l r ts} : Denotes allow slip (.token ⟨.bool b, l, r⟩ :: ts) (.bool b) ts
  | null {l r ts} : Denotes allow slip (.token ⟨.null, l, r⟩ :: ts) .null ts
  | array {ts arr l r rest} (h : Inside allow slip ts (.elementSep arr) (sym ']' l r :: rest)) :
      Denotes allow slip ts (.array arr) rest
  | emptyArray {ts l r rest} (h : Inside allow slip ts (.element []) (sym ']' l r :: rest)) :
      Denotes allow slip ts (.array []) rest
  | object {ts tab l r rest} (h : Inside allow slip ts (.pairSep tab) (sym '}' l r :: rest)) :
      Denotes allow slip ts (.object tab) rest
  | emptyObject {ts l r rest} (h : Inside allow slip ts (.key []) (sym '}' l r :: rest)) :
      Denotes allow slip ts (.object []) rest
  /-- the slip: the first element breaks off at a bracket -/
  | slipped {ts ts₁ rest} (hslip : slip) (h : Inside allow slip ts (.element []) ts₁)
      (hb : Breaks allow slip ts₁ rest) : Denotes allow slip ts (.array []) rest

/-- **The tokens begin with a container** that is then in the frame. -/
inductive Inside (allow : Bool) (slip : Prop) :
    List (Lexed R) → Frame R → List (Lexed R) → Prop
  | openArray {l r ts} : Inside allow slip (sym '[' l r :: ts) (.element []) ts
  | element {ts arr ts₁ v ts₂} (h : Inside allow slip ts (.element arr) ts₁)
      (hv : Denotes allow slip ts₁ v ts₂) : Inside allow slip ts (.elementSep (arr ++ [v])) ts₂
  | elementComma {ts arr l r ts₁}
      (h : Inside allow slip ts (.elementSep arr) (sym ',' l r :: ts₁)) :
      Inside allow slip ts (.element arr) ts₁
  | openObject {l r ts} : Inside allow slip (sym '{' l r :: ts) (.key []) ts
  | key {ts tab k l r ts₁}
      (h : Inside allow slip ts (.key tab) (.token ⟨.string k, l, r⟩ :: ts₁)) :
      Inside allow slip ts (.colon tab k) ts₁
  | colon {ts tab k l r ts₁} (h : Inside allow slip ts (.colon tab k) (sym ':' l r :: ts₁)) :
      Inside allow slip ts (.pair tab k ⟨.symbol (ch ':'), l, r⟩) ts₁
  | pair {ts tab k colon ts₁ v ts₂} (h : Inside allow slip ts (.pair tab k colon) ts₁)
      (hv : Denotes allow slip ts₁ v ts₂) (hk : allow = true ∨ k ∉ tab.map Prod.fst) :
      Inside allow slip ts (.pairSep (insertPair k v tab)) ts₂
  | pairComma {ts tab l r ts₁} (h : Inside allow slip ts (.pairSep tab) (sym ',' l r :: ts₁)) :
      Inside allow slip ts (.key tab) ts₁

/-- **A value breaks off at a bracket**: at one where a value is due, or at a string that begins
with one where a symbol is; and in no array that is still empty. -/
inductive Breaks (allow : Bool) (slip : Prop) : List (Lexed R) → List (Lexed R) → Prop
  | bracket {l r rest} : Breaks allow slip (sym ']' l r :: rest) rest
  | quoted {ts f s l r rest} (h : Inside allow slip ts f (.token ⟨.string s, l, r⟩ :: rest))
      (hf : f.symbolDue) (hs : s.head? = some (ch ']')) : Breaks allow slip ts rest
  | inside {ts f ts₁ rest} (h : Inside allow slip ts f ts₁) (hf : f.valueDue)
      (hne : f ≠ .element []) (hb : Breaks allow slip ts₁ rest) : Breaks allow slip ts rest

end

mutual

theorem Denotes.length_lt {allow : Bool} {slip : Prop} {ts rest : List (Lexed R)} {v : Value R} :
    Denotes allow slip ts v rest → rest.length < ts.length
  | .string => Nat.lt_succ_self _
  | .number => Nat.lt_succ_self _
  | .longint => Nat.lt_succ_self _
  | .bool => Nat.lt_succ_self _
  | .null => Nat.lt_succ_self _
  | .array h => (Nat.lt_succ_self _).trans h.length_lt
  | .emptyArray h => (Nat.lt_succ_self _).trans h.length_lt
  | .object h => (Nat.lt_succ_self _).trans h.length_lt
  | .emptyObject h => (Nat.lt_succ_self _).trans h.length_lt
  | .slipped _ h hb => hb.length_lt.trans h.length_lt

theorem Inside.length_lt {allow : Bool} {slip : Prop} {ts ts₁ : List (Lexed R)} {f : Frame R} :
    Inside allow slip ts f ts₁ → ts₁.length < ts.length
  | .openArray => Nat.lt_succ_self _
  | .element h hv => hv.length_lt.trans h.length_lt
  | .elementComma h => (Nat.lt_succ_self _).trans h.length_lt
  | .openObject => Nat.lt_succ_self _
  | .key h => (Nat.lt_succ_self _).trans h.length_lt
  | .colon h => (Nat.lt_succ_self _).trans h.length_lt
  | .pair h hv _ => hv.length_lt.trans h.length_lt
  | .pairComma h => (Nat.lt_succ_self _).trans h.length_lt

theorem Breaks.length_lt {allow : Bool} {slip : Prop} {ts rest : List (Lexed R)} :
    Breaks allow slip ts rest → rest.length < ts.length
  | .bracket => Nat.lt_succ_self _
  | .quoted h _ _ => (Nat.lt_succ_self _).trans h.length_lt
  | .inside h _ _ hb => hb.length_lt.trans h.length_lt

end

/-- **The reading comes to a value**: to the first, or to one inside it. -/
inductive Comes (allow : Bool) : List (Lexed R) → List (Lexed R) → Prop
  | here {ts} : Comes allow ts ts
  | inside {ts f ts₁ ts₂} (h : Inside allow True ts f ts₁) (hf : f.valueDue)
      (hc : Comes allow ts₁ ts₂) : Comes allow ts ts₂

/-- The tokens end where a value is due. -/
def EndsEarly (allow : Bool) (ts : List (Lexed R)) : Prop := Comes allow ts []

/-- The reading comes to a number that throws. -/
def Throws (allow : Bool) (ts : List (Lexed R)) : Prop :=
  ∃ ts₁ num rest, Comes allow ts ts₁ ∧
    (ts₁ = .thrown num :: rest ∨ ∃ f, Inside allow True ts₁ f (.thrown num :: rest))

/-- The slip makes a difference: the tokens denote a value by it, and none by the grammar of
JSON. -/
def Slips (allow : Bool) (ts : List (Lexed R)) : Prop :=
  (∃ v rest, Denotes allow True ts v rest) ∧ ¬ ∃ v rest, Denotes allow False ts v rest

/-! ## The parser in a frame -/

/-- What `parse_value` does from a colon on. -/
def afterColon (allow : Bool) (tab : List (List UInt8 × Value R)) (k : List UInt8)
    (colon : TokenAt R) (n : ℕ) (s : Parser R) : Outcome (Parser R) (Option (Value R)) :=
  (parseValue allow n s).bind fun value s =>
    match value with
    | none => .ok none s
    | some value =>
      if !allow && (tab.map Prod.fst).contains k then s.fail (duplicateKey k colon)
      else separator (ch '}') "object separator " (.object (insertPair k value tab))
        (fun s => parsePairs allow n (insertPair k value tab) s) s

/-- **What `parse_value` does from a frame on.** -/
def resume (allow : Bool) : Frame R → ℕ → Parser R → Outcome (Parser R) (Option (Value R))
  | .element arr, n, s => parseElements allow n arr s
  | .elementSep arr, n, s => separator (ch ']') "array separator " (.array arr)
      (fun s => parseElements allow n arr s) s
  | .key tab, n, s => parsePairs allow n tab s
  | .colon tab k, n, s => (expectColon s).bind fun colon s =>
      match colon with
      | none => .ok none s
      | some colon => afterColon allow tab k colon n s
  | .pair tab k colon, n, s => afterColon allow tab k colon n s
  | .pairSep tab, n, s => separator (ch '}') "object separator " (.object tab)
      (fun s => parsePairs allow n tab s) s

/-- The parser at some tokens, with no error. -/
abbrev at' (ts : List (Lexed R)) : Parser R := ⟨some ts, []⟩

theorem parseElements_succ (allow : Bool) (n : ℕ) (arr : List (Value R)) (ts : List (Lexed R)) :
    parseElements allow (n + 1) arr (at' ts) = (parseValue allow n (at' ts)).bind fun value s =>
      match value with
      | none => elementFailed arr s
      | some value => resume allow (.elementSep (arr ++ [value])) n s := by
  rw [parseElements]
  rfl

theorem parsePairs_succ (allow : Bool) (n : ℕ) (tab : List (List UInt8 × Value R))
    (ts : List (Lexed R)) :
    parsePairs allow (n + 1) tab (at' ts) = (expectKey (at' ts)).bind fun ahead s =>
      match ahead with
      | .fail => .ok none s
      | .brace =>
        if tab.isEmpty then .ok (some (.object tab)) { s with error := [] } else .ok none s
      | .key key => resume allow (.colon tab key) n s := by
  rw [parsePairs]
  rfl

/-! ## Errors that begin with a bracket -/

/-- The text `parse_value` looks for. -/
abbrev aboutBracket (error : List UInt8) : Bool := (text "unexpected ]").isPrefixOf error

theorem aboutBracket_unexpected (what : List UInt8) :
    aboutBracket (text "unexpected " ++ what) = true ↔ what.head? = some (ch ']') := by
  have htext : text "unexpected ]" = text "unexpected " ++ [ch ']'] := by decide
  rw [aboutBracket, List.isPrefixOf_iff_prefix, htext, List.prefix_append_right_inj]
  cases what with
  | nil => simp
  | cons c cs => simp [eq_comm]

theorem head_append {p q : List UInt8} {c : UInt8} (hq : q.head? ≠ some c) :
    (p ++ q).head? = some c ↔ p.head? = some c := by
  cases p with
  | nil => simp [hq]
  | cons a p => rfl

theorem decimal_head (n : ℕ) : (decimal n).head? ≠ some (ch ']') := by
  intro h
  have hd := isDigit_of_mem_decimal (List.mem_of_mem_head? h)
  exact absurd hd (by decide)

theorem print_head (t : Token R) :
    t.print.head? = some (ch ']') ↔ ∃ s, t = .string s ∧ s.head? = some (ch ']') := by
  constructor
  · intro h
    cases t with
    | string s => exact ⟨s, rfl, h⟩
    | number d => exact absurd h (R.print_head d)
    | longint i =>
      rw [Token.print, decimalInt] at h
      split_ifs at h
      · exact absurd (Option.some.inj h) (by decide)
      · exact absurd h (decimal_head _)
    | bool b => cases b <;> exact absurd (Option.some.inj h) (by decide)
    | null => exact absurd (Option.some.inj h) (by decide)
    | symbol c => exact absurd h (decimal_head _)
    | error e => cases e <;> exact absurd (Option.some.inj h) (by decide)
  · rintro ⟨s, rfl, h⟩
    exact h

theorem aboutBracket_variant (t : TokenAt R) (vindex : ℕ) :
    aboutBracket (unexpectedVariant t vindex) = true ↔
      ∃ s, t.value = .string s ∧ s.head? = some (ch ']') := by
  rw [unexpectedVariant, List.append_assoc, List.append_assoc, List.append_assoc, List.append_assoc,
    aboutBracket_unexpected, head_append, print_head]
  exact fun h => absurd (Option.some.inj h) (by decide)

theorem aboutBracket_noSymbol (t : TokenAt R) :
    aboutBracket (unexpectedNoSymbol t) = true ↔
      ∃ s, t.value = .string s ∧ s.head? = some (ch ']') := by
  rw [unexpectedNoSymbol, List.append_assoc, List.append_assoc, aboutBracket_unexpected,
    head_append, print_head]
  exact fun h => absurd (Option.some.inj h) (by decide)

theorem aboutBracket_bracket (t : TokenAt R) : aboutBracket (unexpectedBracket t) = true := by
  have htext : text "unexpected ] at " = text "unexpected " ++ text "] at " := by decide
  rw [unexpectedBracket, htext, List.append_assoc, aboutBracket_unexpected]
  rfl

/-- An error that is there and is not about a bracket. -/
def Plain (error : List UInt8) : Prop := error ≠ [] ∧ aboutBracket error = false

theorem plain_unexpected {what : List UInt8} (h : what.head? ≠ some (ch ']')) :
    Plain (text "unexpected " ++ what) :=
  ⟨List.append_ne_nil_of_left_ne_nil (by decide) _,
    Bool.eq_false_iff.mpr fun hb => h ((aboutBracket_unexpected what).mp hb)⟩

theorem plain_unexectedEos : Plain unexectedEos := by unfold Plain; decide

theorem plain_symbol {what : String} (hwhat : (text what).head? ≠ some (ch ']'))
    (t : TokenAt R) (c : UInt8) : Plain (unexpectedSymbol what t c) := by
  rw [unexpectedSymbol]
  simp only [List.append_assoc]
  refine plain_unexpected fun h => hwhat ((head_append ?_).mp h)
  exact fun h => absurd (Option.some.inj h) (by decide)

theorem plain_otherSymbol (t : TokenAt R) {c : UInt8} (h : t.value = .symbol c) (sym : UInt8) :
    Plain (unexpectedOtherSymbol t sym) := by
  rw [unexpectedOtherSymbol]
  simp only [List.append_assoc]
  refine plain_unexpected fun hb => ?_
  rw [head_append, print_head] at hb
  · obtain ⟨s, hs, -⟩ := hb
    rw [h] at hs
    exact nomatch hs
  · exact fun h => absurd (Option.some.inj h) (by decide)

theorem plain_duplicateKey (k : List UInt8) (t : TokenAt R) : Plain (duplicateKey k t) := by
  rw [duplicateKey]
  simp only [List.append_assoc]
  exact ⟨(nomatch ·), rfl⟩

theorem plain_errorToken (t : TokenAt R) {e : LexError} (h : t.value = .error e) :
    Plain (errorToken t) := by
  rw [errorToken, h, List.append_assoc]
  cases e <;> exact ⟨(nomatch ·), rfl⟩

theorem unexpectedVariant_ne_nil (t : TokenAt R) (vindex : ℕ) :
    unexpectedVariant t vindex ≠ [] := by
  rw [unexpectedVariant]
  simp only [List.append_assoc]
  exact List.append_ne_nil_of_left_ne_nil (by decide) _

theorem unexpectedNoSymbol_ne_nil (t : TokenAt R) : unexpectedNoSymbol t ≠ [] := by
  rw [unexpectedNoSymbol]
  simp only [List.append_assoc]
  exact List.append_ne_nil_of_left_ne_nil (by decide) _

theorem plain_variant (t : TokenAt R) (vindex : ℕ) (h : ∀ s, t.value ≠ .string s) :
    Plain (unexpectedVariant t vindex) := by
  refine ⟨unexpectedVariant_ne_nil t vindex, Bool.eq_false_iff.mpr fun hb => ?_⟩
  obtain ⟨s, hs, -⟩ := (aboutBracket_variant t vindex).mp hb
  exact h s hs

end DaScript.Json
