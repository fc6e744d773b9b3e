import DaScript.Daslib.TomlParser
import Mathlib.Data.List.TakeWhile

/-!
# Daslib/TomlIntegers — integers are exact in range, but for plus signs

What `read_toml` makes of an integer where a value is.
-/

namespace DaScript.Toml

/-! ## Literals -/

/-- The sign of a decimal. -/
inductive Sign
  | none | plus | minus
  deriving DecidableEq

/-- A sign as text. -/
def Sign.text : Sign → List Char
  | none => []
  | plus => ['+']
  | minus => ['-']

/-- The radix of a prefix. -/
inductive Radix
  | hex | octal | binary
  deriving DecidableEq

/-- Its number. -/
def Radix.num : Radix → ℕ
  | hex => 16
  | octal => 8
  | binary => 2

/-- Its character. -/
def Radix.letter : Radix → Char
  | hex => 'x'
  | octal => 'o'
  | binary => 'b'

/-- The text of an integer, by its parts. -/
inductive Literal
  | decimal (sign : Sign) (body : List Char)
  | prefixed (radix : Radix) (body : List Char)

namespace Literal

/-- A literal as text. -/
def text : Literal → List Char
  | decimal sign body => sign.text ++ body
  | prefixed radix body => '0' :: radix.letter :: body

/-- **The shape of an integer**: digits and underscores, and after a prefix letters too. -/
def Shape : Literal → Prop
  | decimal _ body => body ≠ [] ∧ ∀ c ∈ body, isNumber c = true ∨ c = '_'
  | prefixed _ body => ∀ c ∈ body, isAlpha c = true ∨ isNumber c = true ∨ c = '_'

end Literal

/-- Every underscore is between digits. -/
def UnderscoresBetween (isDigit : Char → Bool) (body : List Char) : Prop :=
  ∀ l r, body = l ++ '_' :: r → l.getLast?.any isDigit = true ∧ r.head?.any isDigit = true

/-- A digit of a radix. -/
def Radix.isDigit (radix : Radix) (c : Char) : Bool := (digitValue radix.num c).isSome

namespace Literal

/-- **Digits of the radix, and underscores between them.** -/
def Proper : Literal → Prop
  | decimal _ body => UnderscoresBetween isNumber body
  | prefixed radix body => body ≠ [] ∧ (∀ c ∈ body, radix.isDigit c = true ∨ c = '_') ∧
      UnderscoresBetween radix.isDigit body

/-- A decimal that starts with a zero, and is more than that. -/
def LeadingZero : Literal → Prop
  | decimal _ body => body.head? = some '0' ∧ body ≠ ['0']
  | prefixed _ _ => False

/-- A plus sign. -/
def Plus : Literal → Prop
  | decimal sign _ => sign = .plus
  | prefixed _ _ => False

/-- The value of a literal. -/
def value : Literal → ℤ
  | decimal .minus body => -(digitsValue 10 (stripUnderscores body) : ℤ)
  | decimal _ body => digitsValue 10 (stripUnderscores body)
  | prefixed radix body => digitsValue radix.num (stripUnderscores body)

/-- The value is one of `int64`. -/
def Fits (lit : Literal) : Prop := -2 ^ 63 ≤ lit.value ∧ lit.value < 2 ^ 63

/-- **A value is read exactly or refused**: the value of a literal of TOML that fits, and an error
for everything else. -/
def Exact (lit : Literal) (result : Parsed (JsonValue × TomlTokenStream)) : Prop :=
  (lit.Proper ∧ ¬ lit.LeadingZero ∧ lit.Fits →
      ∃ v ts, result = .ok (.longint v, ts) ∧ v.toInt = lit.value) ∧
    (¬ (lit.Proper ∧ ¬ lit.LeadingZero ∧ lit.Fits) → ∃ message, result = .error (.error message))

end Literal

/-- What can be after a value. -/
def Delimited (post : List Char) : Prop :=
  ∀ c, post.head? = some c → c ∈ [' ', '\t', '\r', '\n', ',', ']', '\x7d', '#']

/-- **Where a value is**: a stream before a text, or one that has looked at it. -/
inductive AtValue (readQuoted : Char → LexState → TomlTokenAt × LexState) (text post : List Char) :
    TomlTokenStream → Prop
  | start {blanks : List Char} {state : LexState} (hblanks : ∀ c ∈ blanks, c ∈ [' ', '\t', '\r'])
    (hrest : state.rest = blanks ++ text ++ post) : AtValue readQuoted text post ⟨state, none⟩
  | peeked {ts ts' : TomlTokenStream} {tk : Option TomlTokenAt}
    (hstart : AtValue readQuoted text post ts) (hpeek : peekTok readQuoted ts = .ok (tk, ts')) :
    AtValue readQuoted text post ts'

/-! ## Runs of digits -/

section Runs

variable {isDigit : Char → Bool} {buf body post : List Char}

theorem scanRun_between
    (hbody : ∀ c ∈ body, isDigit c = true ∨ c = '_')
    (hbetween : ∀ l r, body = l ++ '_' :: r →
      (buf ++ l).getLast?.any isDigit = true ∧ r.head?.any isDigit = true)
    (hpost : ∀ c, post.head? = some c → isDigit c = false ∧ c ≠ '_') :
    scanRun isDigit buf (body ++ post) = .done (buf ++ body) post := by
  induction body generalizing buf with
  | nil =>
    rw [List.nil_append, List.append_nil]
    cases post with
    | nil => rfl
    | cons c post =>
      obtain ⟨hdigit, hne⟩ := hpost c rfl
      rw [scanRun, if_neg (by simp [hdigit]), if_neg hne]
  | cons c body ih =>
    have hrest : scanRun isDigit (buf ++ [c]) (body ++ post) = .done (buf ++ [c] ++ body) post := by
      refine ih (fun d hd => hbody d (List.mem_cons_of_mem _ hd)) fun l r hlr => ?_
      have h := hbetween (c :: l) r (by rw [hlr, List.cons_append])
      rwa [List.append_assoc, List.singleton_append]
    rw [List.append_assoc, List.singleton_append] at hrest
    rw [List.cons_append, scanRun]
    by_cases hdigit : isDigit c = true
    · rw [if_pos hdigit, hrest]
    · obtain rfl := (hbody c List.mem_cons_self).resolve_left hdigit
      obtain ⟨hleft, hright⟩ := hbetween [] body rfl
      rw [List.append_nil] at hleft
      have hright' : (body ++ post).head?.any isDigit = true := by
        cases body with
        | nil => exact absurd hright Bool.false_ne_true
        | cons d body => exact hright
      rw [if_neg hdigit, if_pos rfl, hleft, hright', hrest]
      rfl

theorem scanRun_done {rest buf' : List Char} (hunderscore : isDigit '_' = false)
    (h : scanRun isDigit buf (body ++ post) = .done buf' rest)
    (hpost : ∀ c, post.head? = some c → isDigit c = false ∧ c ≠ '_') :
    (buf' = buf ++ body ∧ rest = post ∧ (∀ c ∈ body, isDigit c = true ∨ c = '_') ∧
      ∀ l r, body = l ++ '_' :: r →
        (buf ++ l).getLast?.any isDigit = true ∧ r.head?.any isDigit = true) ∨
      ∃ c ∈ body, rest.head? = some c ∧ isDigit c = false ∧ c ≠ '_' := by
  induction body generalizing buf with
  | nil =>
    rw [List.nil_append] at h
    have hdone : scanRun isDigit buf post = .done buf post := by
      cases post with
      | nil => rfl
      | cons c post =>
        obtain ⟨hdigit, hne⟩ := hpost c rfl
        rw [scanRun, if_neg (by simp [hdigit]), if_neg hne]
    rw [hdone] at h
    obtain ⟨rfl, rfl⟩ := Run.done.inj h
    exact .inl ⟨(List.append_nil _).symm, rfl, by simp, by simp⟩
  | cons c body ih =>
    rw [List.cons_append, scanRun] at h
    -- the loop goes on after a digit, or after an underscore that is between two
    have hgoes : scanRun isDigit (buf ++ [c]) (body ++ post) = .done buf' rest →
        (isDigit c = true ∨ c = '_') →
        (c = '_' → buf.getLast?.any isDigit = true ∧ body.head?.any isDigit = true) →
        (buf' = buf ++ c :: body ∧ rest = post ∧ (∀ d ∈ c :: body, isDigit d = true ∨ d = '_') ∧
          ∀ l r, c :: body = l ++ '_' :: r →
            (buf ++ l).getLast?.any isDigit = true ∧ r.head?.any isDigit = true) ∨
          ∃ d ∈ c :: body, rest.head? = some d ∧ isDigit d = false ∧ d ≠ '_' := by
      intro hrun hc hplace
      rcases ih hrun with ⟨hbuf, hrest, hall, hbetween⟩ | ⟨d, hd, hrest⟩
      · refine .inl ⟨by simpa using hbuf, hrest, ?_, fun l r hlr => ?_⟩
        · exact List.forall_mem_cons.mpr ⟨hc, hall⟩
        · cases l with
          | nil =>
            obtain ⟨rfl, rfl⟩ := List.cons.inj hlr
            simpa using hplace rfl
          | cons d l =>
            obtain ⟨rfl, hbody⟩ := List.cons.inj hlr
            simpa using hbetween l r hbody
      · exact .inr ⟨d, List.mem_cons_of_mem _ hd, hrest⟩
    by_cases hdigit : isDigit c = true
    · rw [if_pos hdigit] at h
      refine hgoes h (.inl hdigit) ?_
      rintro rfl
      exact absurd (hunderscore.symm.trans hdigit) Bool.false_ne_true
    rw [if_neg hdigit] at h
    by_cases hunder : c = '_'
    · subst hunder
      rw [if_pos rfl] at h
      split at h
      · exact absurd h (by simp)
      · rename_i hplace
        rw [Bool.or_eq_true, not_or, Bool.not_eq_true', Bool.not_eq_false, Bool.not_eq_true',
          Bool.not_eq_false] at hplace
        refine hgoes h (.inr rfl) fun _ => ⟨hplace.1, ?_⟩
        cases body with
        | nil =>
          obtain ⟨c, hc, hdigit'⟩ := (Option.any_eq_true _ _).mp hplace.2
          exact absurd ((hpost c hc).1.symm.trans hdigit') Bool.false_ne_true
        | cons d body => exact hplace.2
    · rw [if_neg hunder] at h
      obtain ⟨rfl, rfl⟩ := Run.done.inj h
      exact .inr ⟨c, List.mem_cons_self, rfl, by simpa using hdigit, hunder⟩

end Runs

/-! ## Values -/

theorem toInt_ofNat_eq {n : ℕ} (h : n < 2 ^ 63) : (BitVec.ofNat 64 n).toInt = n := by
  rw [BitVec.toInt_ofNat', Int.bmod_eq_of_le] <;> omega

theorem parseDigits_eq {radix : ℕ} {cs : List Char}
    (hcs : ∀ c ∈ cs, ∃ v, digitValue radix c = some v ∧ hexValue c = some v) (acc : ℕ) :
    parseDigits radix cs (BitVec.ofNat 64 acc) =
      .ok (BitVec.ofNat 64 (cs.foldl (fun acc c => acc * radix + (hexValue c).getD 0) acc)) := by
  induction cs generalizing acc with
  | nil => rfl
  | cons c cs ih =>
    obtain ⟨v, hv, hhex⟩ := hcs c List.mem_cons_self
    rw [parseDigits, hv]
    dsimp only
    rw [← BitVec.ofNat_mul, ← BitVec.ofNat_add, ih fun d hd => hcs d (List.mem_cons_of_mem _ hd),
      List.foldl_cons, hhex, Option.getD_some]

theorem parseDigits_error {radix : ℕ} {cs : List Char} (hcs : ∃ c ∈ cs, digitValue radix c = none)
    (acc : BitVec 64) : ∃ message, parseDigits radix cs acc = .error message := by
  induction cs generalizing acc with
  | nil => simp at hcs
  | cons c cs ih =>
    rw [parseDigits]
    cases hv : digitValue radix c with
    | none => exact ⟨_, rfl⟩
    | some v =>
      refine ih ?_ _
      obtain ⟨d, hd, hnone⟩ := hcs
      rcases List.mem_cons.mp hd with rfl | hd
      · rw [hv] at hnone
        exact absurd hnone (Option.some_ne_none v)
      · exact ⟨d, hd, hnone⟩

theorem mem_strip {body : List Char} {c : Char} :
    c ∈ stripUnderscores body ↔ c ∈ body ∧ c ≠ '_' := by
  simp [stripUnderscores]

theorem Radix.hexValue_eq {radix : Radix} {c : Char} (h : radix.isDigit c = true) :
    ∃ v, digitValue radix.num c = some v ∧ hexValue c = some v := by
  obtain ⟨v, hv⟩ := Option.isSome_iff_exists.mp h
  refine ⟨v, hv, ?_⟩
  cases radix with
  | hex => exact hv
  | octal =>
    simp only [digitValue, Radix.num] at hv
    by_cases hc : '0' ≤ c ∧ c ≤ '7'
    · have hnumber : isNumber c = true := by
        rw [isNumber, Bool.and_eq_true, decide_eq_true_eq, decide_eq_true_eq]
        exact ⟨hc.1, Char.le_trans hc.2 (by decide)⟩
      rw [hexValue, if_pos hnumber]
      simpa [hc] using hv
    · simp [hc] at hv
  | binary =>
    simp only [digitValue, Radix.num] at hv
    by_cases hc : c = '0' ∨ c = '1'
    · have hnumber : isNumber c = true := by rcases hc with rfl | rfl <;> decide
      rw [hexValue, if_pos hnumber]
      simpa [hc] using hv
    · simp [hc] at hv

theorem Radix.isHex_of_isDigit {radix : Radix} {c : Char} (h : radix.isDigit c = true) :
    isHex c = true := by
  obtain ⟨v, -, hv⟩ := radix.hexValue_eq h
  rw [hexValue] at hv
  rw [isHex]
  by_cases hnumber : isNumber c = true
  · simp [hnumber]
  rw [if_neg hnumber] at hv
  by_cases hlower : ('a' ≤ c && c ≤ 'f') = true
  · simp [hlower]
  rw [if_neg hlower] at hv
  by_cases hupper : ('A' ≤ c && c ≤ 'F') = true
  · simp [hupper]
  · rw [if_neg hupper] at hv
    exact absurd hv (Option.some_ne_none v).symm

theorem not_isPrefixOf {str : List Char} {x : Char} (h : x ∉ str.tail) :
    ['0', x].isPrefixOf str = false := by
  rw [Bool.eq_false_iff]
  intro hprefix
  obtain ⟨rest, rfl⟩ := List.isPrefixOf_iff_prefix.mp hprefix
  exact h (by simp)

theorem takeWhile_digits {digits : List Char} (hdigits : ∀ c ∈ digits, isNumber c = true) :
    digits.takeWhile isNumber = digits :=
  List.takeWhile_eq_self_iff.mpr hdigits

theorem stringToInt64_eq (sign : Sign) {digits : List Char} (hne : digits ≠ [])
    (hdigits : ∀ c ∈ digits, isNumber c = true) :
    stringToInt64 (sign.text ++ digits) =
      match sign with
      | .none => if digitsValue 10 digits < 2 ^ 63 then
          some (BitVec.ofInt 64 (digitsValue 10 digits)) else none
      | .plus => none
      | .minus => if digitsValue 10 digits ≤ 2 ^ 63 then
          some (BitVec.ofInt 64 (-(digitsValue 10 digits : ℤ))) else none := by
  obtain ⟨d, ds, rfl⟩ := List.exists_cons_of_ne_nil hne
  have hd : isNumber d = true := hdigits d List.mem_cons_self
  have hnumber : ∀ {c}, isNumber c = false → c ∉ d :: ds := by
    intro c hc hmem
    exact Bool.false_ne_true (hc.symm.trans (hdigits c hmem))
  have htail : ∀ {c}, isNumber c = false → c ∉ (sign.text ++ d :: ds).tail := by
    intro c hc hmem
    cases sign with
    | none => exact hnumber hc (List.mem_cons_of_mem _ hmem)
    | plus => exact hnumber hc hmem
    | minus => exact hnumber hc hmem
  have hblank : (sign.text ++ d :: ds).dropWhile isWhiteSpace = sign.text ++ d :: ds := by
    cases sign with
    | none =>
      have hwhite : isWhiteSpace d = false := by
        rw [Bool.eq_false_iff]
        intro hwhite
        simp only [isWhiteSpace, Bool.or_eq_true, beq_iff_eq] at hwhite
        rcases hwhite with ((rfl | rfl) | rfl) | rfl <;> exact absurd hd (by decide)
      exact List.dropWhile_cons_of_neg (by simp [hwhite])
    | plus => rfl
    | minus => rfl
  rw [stringToInt64, hblank]
  rw [not_isPrefixOf (htail (by decide)), not_isPrefixOf (htail (by decide)), if_neg (by simp)]
  have htake := takeWhile_digits hdigits
  cases sign with
  | none =>
    have hminus : ¬ (d :: ds).head? = some '-' := by
      rintro h
      obtain rfl := Option.some.inj h
      exact absurd hd (by decide)
    simp only [Sign.text, List.nil_append, fromChars, hminus, if_false, htake, hne]
    by_cases hfits : digitsValue 10 (d :: ds) < 2 ^ 63
    · rw [if_pos hfits, if_neg (by omega)]
      rfl
    · rw [if_neg hfits, if_pos (by omega)]
      rfl
  | plus => rfl
  | minus =>
    simp only [Sign.text, List.singleton_append, fromChars, List.head?_cons, if_true,
      List.tail_cons, htake, hne, if_false]
    by_cases hfits : digitsValue 10 (d :: ds) ≤ 2 ^ 63
    · rw [if_pos hfits, if_neg (by omega)]
      rfl
    · rw [if_neg hfits, if_pos (by omega)]
      rfl

/-! ## What is not a date -/

theorem head_of_append {body post : List Char} : (body ++ post)[body.length]? = post.head? := by
  rw [List.getElem?_append_right le_rfl, Nat.sub_self, List.head?_eq_getElem?]

theorem numberAt_append {body post : List Char}
    (hpost : ∀ c, post.head? = some c → isNumber c = false) :
    numberAt (body ++ post) body.length = false := by
  rw [numberAt, head_of_append]
  cases hc : post.head? with
  | none => rfl
  | some c => exact hpost c hc

theorem not_separated {body post : List Char} {c : Char} {n : ℕ} (hbody : c ∉ body)
    (hpost : ∀ c, post.head? = some c → isNumber c = false) (hc : post.head? ≠ some c)
    (hnumbers : ∀ i < n, numberAt (body ++ post) i = true) : (body ++ post)[n]? ≠ some c := by
  intro hat
  rcases lt_trichotomy body.length n with hlt | rfl | hlt
  · exact Bool.false_ne_true ((numberAt_append hpost).symm.trans (hnumbers _ hlt))
  · exact hc (head_of_append.symm.trans hat)
  · rw [List.getElem?_append_left hlt] at hat
    exact hbody (List.mem_of_getElem? hat)

theorem not_looksLikeDatetime {body post : List Char} (hbody : '-' ∉ body)
    (hpost : ∀ c, post.head? = some c → isNumber c = false) (hc : post.head? ≠ some '-') :
    looksLikeDatetime (body ++ post) = false := by
  rw [Bool.eq_false_iff]
  intro hlooks
  simp only [looksLikeDatetime, Bool.and_eq_true, decide_eq_true_eq, beq_iff_eq] at hlooks
  obtain ⟨⟨⟨⟨⟨⟨⟨⟨⟨⟨-, h0⟩, h1⟩, h2⟩, h3⟩, h4⟩, -⟩, -⟩, -⟩, -⟩, -⟩ := hlooks
  refine not_separated hbody hpost hc (fun i hi => ?_) h4
  interval_cases i
  exacts [h0, h1, h2, h3]

theorem not_looksLikeTime {body post : List Char} (hbody : ':' ∉ body)
    (hpost : ∀ c, post.head? = some c → isNumber c = false) (hc : post.head? ≠ some ':') :
    looksLikeTime (body ++ post) = false := by
  rw [Bool.eq_false_iff]
  intro hlooks
  simp only [looksLikeTime, Bool.and_eq_true, decide_eq_true_eq, beq_iff_eq] at hlooks
  obtain ⟨⟨⟨⟨⟨⟨⟨⟨-, h0⟩, h1⟩, h2⟩, -⟩, -⟩, -⟩, -⟩, -⟩ := hlooks
  refine not_separated hbody hpost hc (fun i hi => ?_) h2
  interval_cases i
  exacts [h0, h1]

/-! ## Tokens -/

/-- A token that is no value. -/
def Refused (tk : TomlToken) : Prop :=
  (∃ message, tk = .error message) ∨
    ∃ name, tk = .bare name ∧ name.head?.any (fun c => isNumber c || c == '-' || c == '_') = true

theorem advance_rest {st : LexState} {c : Char} {rest : List Char} (h : st.rest = c :: rest) :
    st.advance.rest = rest := by
  rw [LexState.advance, h]
  dsimp only
  split <;> rfl

theorem skipBlanks_rest {blanks rest : List Char} {c : Char}
    (hblanks : ∀ c ∈ blanks, c ∈ [' ', '\t', '\r']) (hc : rest.head? = some c)
    (hne : c ∉ [' ', '\t', '\r', '#']) {fuel : ℕ} {st : LexState} (hst : st.rest = blanks ++ rest)
    (hfuel : blanks.length < fuel) : (skipBlanks fuel st).rest = rest := by
  induction blanks generalizing fuel st with
  | nil =>
    obtain ⟨fuel, rfl⟩ := Nat.exists_eq_add_one_of_ne_zero (Nat.ne_zero_of_lt hfuel)
    simp only [List.mem_cons, List.not_mem_nil, or_false, not_or] at hne
    rw [skipBlanks, hst, List.nil_append, hc]
    dsimp only
    rw [if_neg (not_or.mpr ⟨hne.1, not_or.mpr ⟨hne.2.1, hne.2.2.1⟩⟩), if_neg hne.2.2.2, hst,
      List.nil_append]
  | cons b blanks ih =>
    obtain ⟨fuel, rfl⟩ := Nat.exists_eq_add_one_of_ne_zero (Nat.ne_zero_of_lt hfuel)
    have hb := hblanks b List.mem_cons_self
    simp only [List.mem_cons, List.not_mem_nil, or_false] at hb
    rw [skipBlanks, hst, List.cons_append, List.head?_cons]
    dsimp only
    rw [if_pos hb]
    exact ih (fun d hd => hblanks d (List.mem_cons_of_mem _ hd)) (advance_rest hst)
      (Nat.lt_of_succ_lt_succ hfuel)

section Stream

variable {readQuoted : Char → LexState → TomlTokenAt × LexState}
  {parseInline : Char → TomlTokenStream → Parsed (JsonValue × TomlTokenStream)}
  {text post : List Char} {c : Char} {ts ts' : TomlTokenStream}

/-- What the stream is after it has looked at a token. -/
def looked : Lexed → Parsed (Option TomlTokenAt × TomlTokenStream)
  | .error message => .error (.panic message)
  | .ok (tk, st) => .ok (some tk, ⟨st, some tk⟩)

theorem AtValue.looked (hat : AtValue readQuoted text post ts) (hc : text.head? = some c)
    (hne : c ∉ [' ', '\t', '\r', '#']) :
    ∃ st : LexState, st.rest = text ++ post ∧
      peekTok readQuoted ts = Toml.looked (lexToken readQuoted st c) := by
  induction hat with
  | @start blanks state hblanks hrest =>
    have hhead : (text ++ post).head? = some c := by
      rw [List.head?_append, hc]
      rfl
    have hskip := skipBlanks_rest hblanks hhead hne (hrest.trans (List.append_assoc ..))
      (by rw [hrest, List.length_append, List.length_append]; omega :
        blanks.length < state.rest.length + 1)
    refine ⟨_, hskip, ?_⟩
    rw [peekTok, nextToken]
    dsimp only
    rw [hskip, hhead]
    dsimp only
    cases lexToken readQuoted (skipBlanks (state.rest.length + 1) state) c <;> rfl
  | peeked _ hpeek ih =>
    obtain ⟨st, hrest, hlooked⟩ := ih
    refine ⟨st, hrest, ?_⟩
    rw [hpeek] at hlooked
    cases hlex : lexToken readQuoted st c with
    | error message =>
      rw [hlex] at hlooked
      exact absurd hlooked (by simp [Toml.looked])
    | ok r =>
      rw [hlex] at hlooked
      obtain ⟨rfl, rfl⟩ := Prod.mk.inj (Except.ok.inj hlooked)
      rfl

theorem AtValue.peek (hat : AtValue readQuoted text post ts) (hc : text.head? = some c)
    (hne : c ∉ [' ', '\t', '\r', '#']) {P : TomlToken → Prop}
    (hlex : ∀ st : LexState, st.rest = text ++ post →
      ∃ tk st', lexToken readQuoted st c = .ok (tk, st') ∧ P tk.value) :
    ∃ tk ts', peekTok readQuoted ts = .ok (some tk, ts') ∧ P tk.value := by
  obtain ⟨st, hst, hlooked⟩ := hat.looked hc hne
  obtain ⟨tk, st', hlexed, hP⟩ := hlex st hst
  exact ⟨tk, ⟨st', some tk⟩, by rw [hlooked, hlexed]; rfl, hP⟩

theorem AtValue.panic (hat : AtValue readQuoted text post ts) (hc : text.head? = some c)
    (hne : c ∉ [' ', '\t', '\r', '#'])
    (hlex : ∀ st : LexState, st.rest = text ++ post →
      ∃ message, lexToken readQuoted st c = .error message) :
    ∃ message, peekTok readQuoted ts = .error (.panic message) := by
  obtain ⟨st, hst, hlooked⟩ := hat.looked hc hne
  obtain ⟨message, hlexed⟩ := hlex st hst
  exact ⟨message, by rw [hlooked, hlexed]; rfl⟩

theorem parseValue_eq {tk : TomlTokenAt} (hpeek : peekTok readQuoted ts = .ok (some tk, ts')) :
    parseValue readQuoted parseInline ts =
      valueOfToken parseInline tk { ts' with ahead := none } := by
  rw [parseValue, takeTok, hpeek]
  rfl

theorem parseValue_panic {message : String}
    (hpeek : peekTok readQuoted ts = .error (.panic message)) :
    parseValue readQuoted parseInline ts = .error (.panic message) := by
  rw [parseValue, takeTok, hpeek]
  rfl

theorem parseValue_refused {tk : TomlTokenAt}
    (hpeek : peekTok readQuoted ts = .ok (some tk, ts')) (h : Refused tk.value) :
    ∃ message, parseValue readQuoted parseInline ts = .error (.error message) := by
  rw [parseValue_eq hpeek, valueOfToken]
  rcases h with ⟨message, hvalue⟩ | ⟨name, hvalue, hname⟩
  · rw [hvalue]
    exact ⟨message, rfl⟩
  · rw [hvalue]
    have hne : ∀ word : List Char,
        word.head?.any (fun c => isNumber c || c == '-' || c == '_') = false → name ≠ word := by
      rintro word hword rfl
      exact Bool.false_ne_true (hword.symm.trans hname)
    dsimp only
    rw [if_neg (hne _ (by decide)), if_neg (hne _ (by decide)), if_neg (hne _ (by decide)),
      if_neg (hne _ (by decide))]
    exact ⟨_, rfl⟩

end Stream

/-! ## Decimals -/

theorem Delimited.fails {post : List Char} (h : Delimited post) {p : Char → Bool}
    (hp : [' ', '\t', '\r', '\n', ',', ']', '\x7d', '#'].any p = false) :
    ∀ c, post.head? = some c → p c = false :=
  fun c hc => Bool.eq_false_iff.mpr (List.any_eq_false.mp hp c (h c hc))

theorem Delimited.any_eq {post : List Char} (h : Delimited post) {p : Char → Bool}
    (hp : [' ', '\t', '\r', '\n', ',', ']', '\x7d', '#'].any p = false) :
    post.head?.any p = false := by
  cases hc : post.head? with
  | none => rfl
  | some c => exact h.fails hp c hc

theorem Delimited.ne {post : List Char} (h : Delimited post) {c : Char}
    (hc : c ∉ [' ', '\t', '\r', '\n', ',', ']', '\x7d', '#']) : post.head? ≠ some c :=
  fun heq => hc (h c heq)

theorem rewind_refused {start : LexState} {c : Char} (hc : start.rest.head? = some c)
    (hkey : c = '+' ∨ (isNumber c || c == '-' || c == '_') = true) :
    Refused (rewindToBare start).1.value := by
  rw [rewindToBare]
  split
  · exact .inl ⟨_, rfl⟩
  · rename_i hplus
    refine .inr ⟨_, rfl, ?_⟩
    have hkey' := hkey.resolve_left fun h => hplus (h ▸ hc)
    obtain ⟨rest, hrest⟩ := List.head?_eq_some_iff.mp hc
    have hbare : isBareChar c = true := by
      simp only [Bool.or_eq_true, beq_iff_eq] at hkey'
      simp only [isBareChar, Bool.or_eq_true, beq_iff_eq]
      tauto
    rw [readBareKey]
    dsimp only
    rw [hrest, List.takeWhile_cons_of_pos hbare]
    exact hkey'

section Decimal

variable {sign : Sign} {body post : List Char} {start : LexState}

theorem not_mem_body (hbody : ∀ c ∈ body, isNumber c = true ∨ c = '_') {c : Char}
    (hc : isNumber c = false) (hne : c ≠ '_') : c ∉ body := by
  intro hmem
  rcases hbody c hmem with h | h
  · exact Bool.false_ne_true (hc.symm.trans h)
  · exact hne h

theorem classify_decimal (hbody : ∀ c ∈ body, isNumber c = true ∨ c = '_') (hne : body ≠ [])
    (hpost : Delimited post) (hstart : start.rest = sign.text ++ body ++ post) :
    classifyNumberOrDatetime start = classifyDecimal sign.text (body ++ post) start := by
  have hdate : (start.rest.head?.any isNumber && looksLikeDatetime start.rest) = false := by
    rw [hstart]
    cases sign with
    | none =>
      rw [Sign.text, List.nil_append, not_looksLikeDatetime
        (not_mem_body hbody (by decide) (by decide)) (hpost.fails (by decide))
        (hpost.ne (by decide)), Bool.and_false]
    | plus => rfl
    | minus => rfl
  have htime : (start.rest.head?.any isNumber && looksLikeTime start.rest) = false := by
    rw [hstart]
    cases sign with
    | none =>
      rw [Sign.text, List.nil_append, not_looksLikeTime
        (not_mem_body hbody (by decide) (by decide)) (hpost.fails (by decide))
        (hpost.ne (by decide)), Bool.and_false]
    | plus => rfl
    | minus => rfl
  obtain ⟨d, ds, rfl⟩ := List.exists_cons_of_ne_nil hne
  have hsign : (if start.rest.head? = some '+' ∨ start.rest.head? = some '-'
      then start.rest.take 1 else []) = sign.text := by
    rw [hstart]
    cases sign with
    | none =>
      have hd := hbody d List.mem_cons_self
      rw [if_neg]
      · rfl
      · rintro (h | h) <;>
        · obtain rfl := Option.some.inj h
          exact absurd hd (by decide)
    | plus => rfl
    | minus => rfl
  have hdrop : start.rest.drop sign.text.length = d :: ds ++ post := by
    rw [hstart, List.append_assoc, List.drop_left]
  have hname : ∀ s : String, s.toList.head?.any (fun c => !isNumber c && c ≠ '_') = true →
      startsWithAt (d :: ds ++ post) s = false := by
    intro s hs
    rw [startsWithAt, Bool.eq_false_iff]
    intro hprefix
    obtain ⟨rest, hrest⟩ := List.isPrefixOf_iff_prefix.mp hprefix
    obtain ⟨c, hc, hc'⟩ := (Option.any_eq_true _ _).mp hs
    obtain ⟨tail, htail⟩ := List.head?_eq_some_iff.mp hc
    rw [htail] at hrest
    obtain rfl := (List.cons.inj hrest).1
    rcases hbody c List.mem_cons_self with h | h <;> simp [h] at hc'
  have hprefix : prefixRadix (d :: ds ++ post)[1]? = none := by
    have hat : (d :: ds ++ post)[1]? = (ds ++ post).head? := by
      rw [List.cons_append, List.getElem?_cons_succ, List.head?_eq_getElem?]
    have hx : ∀ x, x ∉ d :: ds → x ∉ [' ', '\t', '\r', '\n', ',', ']', '\x7d', '#'] →
        (ds ++ post).head? ≠ some x := by
      intro x hx hx' heq
      cases ds with
      | nil => exact hpost.ne hx' heq
      | cons e es =>
        obtain rfl := Option.some.inj heq
        exact hx (by simp)
    rw [hat, prefixRadix, if_neg (hx _ (not_mem_body hbody (by decide) (by decide)) (by decide)),
      if_neg (hx _ (not_mem_body hbody (by decide) (by decide)) (by decide)),
      if_neg (hx _ (not_mem_body hbody (by decide) (by decide)) (by decide))]
  rw [classifyNumberOrDatetime, hdate, htime, if_neg Bool.false_ne_true,
    if_neg Bool.false_ne_true]
  dsimp only
  rw [hsign, hdrop, if_neg (by simp), hname _ (by decide), hname _ (by decide), hprefix]
  rfl

theorem strip_text (sign : Sign) (body : List Char) :
    stripUnderscores (sign.text ++ body) = sign.text ++ stripUnderscores body := by
  rw [stripUnderscores, List.filter_append]
  cases sign <;> rfl

theorem getLast_text (sign : Sign) (l : List Char) :
    (sign.text ++ l).getLast?.any isNumber = l.getLast?.any isNumber := by
  cases l with
  | nil => cases sign <;> rfl
  | cons c l =>
    rw [List.getLast?_append, List.getLast?_cons]
    rfl

theorem head_of_between (hbody : ∀ c ∈ body, isNumber c = true ∨ c = '_') (hne : body ≠ [])
    (hbetween : UnderscoresBetween isNumber body) : body.head?.any isNumber = true := by
  obtain ⟨d, ds, rfl⟩ := List.exists_cons_of_ne_nil hne
  rcases hbody d List.mem_cons_self with hd | rfl
  · exact hd
  · exact absurd (hbetween [] ds rfl).1 Bool.false_ne_true

theorem decimal_proper (hbody : ∀ c ∈ body, isNumber c = true ∨ c = '_') (hne : body ≠ [])
    (hbetween : UnderscoresBetween isNumber body) (hpost : Delimited post) :
    classifyDecimal sign.text (body ++ post) start =
      match stringToInt64 (sign.text ++ stripUnderscores body) with
      | none => .error s!"failed to convert '{String.ofList
          (sign.text ++ stripUnderscores body)}' to number"
      | some value => .ok (start.token (.integer value),
          start.advanceBy (start.rest.length - post.length)) := by
  have hrun : scanRun isNumber sign.text (body ++ post) = .done (sign.text ++ body) post := by
    refine scanRun_between hbody (fun l r hlr => ?_) fun c hc => ⟨hpost.fails (by decide) c hc, ?_⟩
    · rw [getLast_text]
      exact hbetween l r hlr
    · rintro rfl
      exact hpost.ne (by decide) hc
  have hfraction : scanFraction (sign.text ++ body) post =
      .ok (sign.text ++ body, post, false) := by
    rw [scanFraction, if_neg fun h => hpost.ne (by decide) h.1]
  have hexponent : scanExponent (sign.text ++ body) post =
      .ok (sign.text ++ body, post, false) := by
    cases post with
    | nil => rfl
    | cons e tail =>
      rw [scanExponent, if_neg]
      rintro (rfl | rfl)
      · exact hpost.ne (c := 'e') (by decide) rfl
      · exact hpost.ne (c := 'E') (by decide) rfl
  have hany : (sign.text ++ body).any isNumber = true := by
    obtain ⟨d, ds, rfl⟩ := List.exists_cons_of_ne_nil hne
    have hd : isNumber d = true := head_of_between hbody hne hbetween
    rw [List.any_append, List.any_cons, hd, Bool.true_or, Bool.or_true]
  rw [classifyDecimal, hrun]
  dsimp only
  rw [hfraction]
  dsimp only
  rw [hexponent]
  dsimp only
  rw [hany, hpost.any_eq (by decide), strip_text]
  rfl

theorem decimal_improper (hbody : ∀ c ∈ body, isNumber c = true ∨ c = '_')
    (hbetween : ¬ UnderscoresBetween isNumber body) (hpost : Delimited post)
    (hstart : ∃ c, start.rest.head? = some c ∧
      (c = '+' ∨ (isNumber c || c == '-' || c == '_') = true)) :
    ∃ tk st, classifyDecimal sign.text (body ++ post) start = .ok (tk, st) ∧ Refused tk.value := by
  obtain ⟨c, hc, hkey⟩ := hstart
  rw [classifyDecimal]
  cases hrun : scanRun isNumber sign.text (body ++ post) with
  | misplaced rest bare =>
    cases bare with
    | true => exact ⟨_, _, rfl, rewind_refused hc hkey⟩
    | false => exact ⟨_, _, rfl, .inl ⟨_, rfl⟩⟩
  | done buf rest =>
    rcases scanRun_done (by decide) hrun fun d hd => ⟨hpost.fails (by decide) d hd, by
        rintro rfl
        exact hpost.ne (by decide) hd⟩ with ⟨-, -, -, hplaced⟩ | ⟨d, hd, -, hdigit, hunder⟩
    · refine absurd (fun l r hlr => ?_) hbetween
      rw [← getLast_text sign]
      exact hplaced l r hlr
    · exact absurd hd (not_mem_body hbody hdigit hunder)

theorem lexToken_number {readQuoted : Char → LexState → TomlTokenAt × LexState} {c : Char}
    (hc : isNumber c = true) : lexToken readQuoted start c = classifyNumberOrDatetime start := by
  have hne : ∀ d, isNumber d = false → c ≠ d := by
    rintro d hd rfl
    exact Bool.false_ne_true (hd.symm.trans hc)
  rw [lexToken, if_neg (hne _ (by decide)), if_neg, if_neg, if_pos (by simp [hc]), if_neg]
  · simp [hne '+' (by decide), hne '-' (by decide)]
  · rintro (h | h) <;> exact hne _ (by decide) h
  · rintro (h | h | h | h | h | h | h) <;> exact hne _ (by decide) h

theorem lexToken_decimal {readQuoted : Char → LexState → TomlTokenAt × LexState} {c : Char}
    (hstart : start.rest = sign.text ++ body ++ post) (hc : (sign.text ++ body).head? = some c)
    (hhead : body.head?.any isNumber = true) :
    lexToken readQuoted start c = classifyNumberOrDatetime start := by
  have hcontinues : (body ++ post).head?.any isNumber = true := by
    cases body with
    | nil => exact absurd hhead Bool.false_ne_true
    | cons d ds => exact hhead
  cases sign with
  | none =>
    rw [Sign.text, List.nil_append] at hc
    rw [hc] at hhead
    exact lexToken_number hhead
  | plus =>
    obtain rfl := Option.some.inj hc
    have htail : start.rest.tail = body ++ post := by rw [hstart]; rfl
    rw [lexToken, htail, isValueContinuation, hcontinues]
    rfl
  | minus =>
    obtain rfl := Option.some.inj hc
    have htail : start.rest.tail = body ++ post := by rw [hstart]; rfl
    rw [lexToken, htail, isValueContinuation, hcontinues]
    rfl

theorem lexToken_underscore {readQuoted : Char → LexState → TomlTokenAt × LexState} {c : Char}
    {ds : List Char} (hstart : start.rest = sign.text ++ '_' :: ds ++ post)
    (hc : (sign.text ++ '_' :: ds).head? = some c) :
    ∃ tk st, lexToken readQuoted start c = .ok (tk, st) ∧ Refused tk.value := by
  have hinf : ∀ s : String, s.toList.head?.any (· ≠ '_') = true →
      startsWithAt ('_' :: ds ++ post) s = false := by
    intro s hs
    rw [startsWithAt, Bool.eq_false_iff]
    intro hprefix
    obtain ⟨rest, hrest⟩ := List.isPrefixOf_iff_prefix.mp hprefix
    obtain ⟨c, hc, hc'⟩ := (Option.any_eq_true _ _).mp hs
    obtain ⟨tail, htail⟩ := List.head?_eq_some_iff.mp hc
    rw [htail] at hrest
    obtain rfl := (List.cons.inj hrest).1
    exact absurd hc' (by decide)
  have hnot : isValueContinuation ('_' :: ds ++ post) = false := by
    rw [isValueContinuation, hinf _ (by decide), hinf _ (by decide)]
    rfl
  cases sign with
  | none =>
    obtain rfl := Option.some.inj hc
    rw [Sign.text, List.nil_append] at hstart
    refine ⟨start.token (.bare (readBareKey start).1), (readBareKey start).2, ?_,
      .inr ⟨(readBareKey start).1, rfl, ?_⟩⟩
    · rw [lexToken, hstart, hinf _ (by decide), hinf _ (by decide)]
      rfl
    · rw [readBareKey, hstart]
      rfl
  | plus =>
    obtain rfl := Option.some.inj hc
    have htail : start.rest.tail = '_' :: ds ++ post := by rw [hstart]; rfl
    refine ⟨start.token (.error s!"stray sign '+' at {start.line}:{start.row}"), start.advance, ?_,
      .inl ⟨_, rfl⟩⟩
    rw [lexToken, htail, hnot]
    rfl
  | minus =>
    obtain rfl := Option.some.inj hc
    have htail : start.rest.tail = '_' :: ds ++ post := by rw [hstart]; rfl
    refine ⟨start.token (.bare (readBareKey start).1), (readBareKey start).2, ?_,
      .inr ⟨(readBareKey start).1, rfl, ?_⟩⟩
    · rw [lexToken, htail, hnot]
      rfl
    · rw [readBareKey, hstart]
      rfl

end Decimal

/-! ## Prefixed integers -/

section Prefixed

variable {radix : Radix} {body post : List Char} {start : LexState}

theorem classify_prefixed
    (hbody : ∀ c ∈ body, isAlpha c = true ∨ isNumber c = true ∨ c = '_') (hpost : Delimited post)
    (hstart : start.rest = '0' :: radix.letter :: body ++ post) :
    classifyNumberOrDatetime start = .ok (classifyPrefixed radix.num start) := by
  have hnot : ∀ c, isAlpha c = false → isNumber c = false → c ≠ '_' →
      c ∉ '0' :: radix.letter :: body := by
    intro c halpha hnumber hunder hmem
    rcases List.mem_cons.mp hmem with rfl | hmem
    · exact absurd hnumber (by decide)
    rcases List.mem_cons.mp hmem with rfl | hmem
    · cases radix <;> exact absurd halpha (by decide)
    rcases hbody c hmem with h | h | h
    · exact Bool.false_ne_true (halpha.symm.trans h)
    · exact Bool.false_ne_true (hnumber.symm.trans h)
    · exact hunder h
  have hdate : looksLikeDatetime start.rest = false := by
    rw [hstart]
    exact not_looksLikeDatetime (hnot _ (by decide) (by decide) (by decide))
      (hpost.fails (by decide)) (hpost.ne (by decide))
  have htime : looksLikeTime start.rest = false := by
    rw [hstart]
    exact not_looksLikeTime (hnot _ (by decide) (by decide) (by decide))
      (hpost.fails (by decide)) (hpost.ne (by decide))
  rw [classifyNumberOrDatetime, hdate, htime, Bool.and_false, if_neg Bool.false_ne_true,
    if_neg Bool.false_ne_true, hstart]
  cases radix <;> rfl

theorem prefixed_proper (hproper : (Literal.prefixed radix body).Proper) (hpost : Delimited post)
    (hstart : start.rest = '0' :: radix.letter :: body ++ post) :
    (classifyPrefixed radix.num start).1.value =
      .integer (BitVec.ofNat 64 (digitsValue radix.num (stripUnderscores body))) := by
  obtain ⟨hne, hall, hbetween⟩ := hproper
  have hhex : ∀ {o : Option Char}, o.any radix.isDigit = true → o.any isHex = true := by
    intro o ho
    obtain ⟨c, hc, hdigit⟩ := (Option.any_eq_true _ _).mp ho
    exact (Option.any_eq_true _ _).mpr ⟨c, hc, radix.isHex_of_isDigit hdigit⟩
  have hrun : scanRun isHex [] (body ++ post) = .done body post := by
    refine scanRun_between (fun c hc => (hall c hc).imp_left radix.isHex_of_isDigit)
      (fun l r hlr => ?_) fun c hc => ⟨hpost.fails (by decide) c hc, ?_⟩
    · obtain ⟨hleft, hright⟩ := hbetween l r hlr
      exact ⟨hhex hleft, hhex hright⟩
    · rintro rfl
      exact hpost.ne (by decide) hc
  have hdigits : ∀ c ∈ stripUnderscores body, ∃ v, digitValue radix.num c = some v ∧
      hexValue c = some v := by
    intro c hc
    obtain ⟨hmem, hunder⟩ := mem_strip.mp hc
    exact radix.hexValue_eq ((hall c hmem).resolve_right hunder)
  have hstrip : stripUnderscores body ≠ [] := by
    obtain ⟨d, ds, rfl⟩ := List.exists_cons_of_ne_nil hne
    intro hnil
    have hd : d = '_' := by
      by_contra hd
      exact List.ne_nil_of_mem (mem_strip.mpr ⟨List.mem_cons_self, hd⟩) hnil
    exact absurd (hbetween [] ds (by rw [hd]; rfl)).1 Bool.false_ne_true
  have hparse : parseIntPrefixed body radix.num =
      .ok (BitVec.ofNat 64 (digitsValue radix.num (stripUnderscores body))) := by
    rw [parseIntPrefixed, if_neg hstrip]
    exact parseDigits_eq hdigits 0
  have hdrop : start.rest.drop 2 = body ++ post := by rw [hstart]; rfl
  rw [classifyPrefixed, hdrop, hrun]
  dsimp only
  rw [hpost.any_eq (by decide), hparse]
  rfl

theorem prefixed_improper
    (hbody : ∀ c ∈ body, isAlpha c = true ∨ isNumber c = true ∨ c = '_')
    (hproper : ¬ (Literal.prefixed radix body).Proper) (hpost : Delimited post)
    (hstart : start.rest = '0' :: radix.letter :: body ++ post) :
    Refused (classifyPrefixed radix.num start).1.value := by
  have hdrop : start.rest.drop 2 = body ++ post := by rw [hstart]; rfl
  have hrewind : Refused (rewindToBare start).1.value := by
    refine rewind_refused (c := '0') ?_ (.inr rfl)
    rw [hstart]
    rfl
  rw [classifyPrefixed, hdrop]
  cases hrun : scanRun isHex [] (body ++ post) with
  | misplaced rest bare =>
    cases bare with
    | true => exact hrewind
    | false => exact .inl ⟨_, rfl⟩
  | done tail rest =>
    rcases scanRun_done (by decide) hrun fun d hd => ⟨hpost.fails (by decide) d hd, by
        rintro rfl
        exact hpost.ne (by decide) hd⟩ with ⟨hbuf, hrest, -, hbetween⟩ | ⟨d, hd, hhead, -, -⟩
    · obtain rfl : body = tail := hbuf.symm
      obtain rfl : post = rest := hrest.symm
      dsimp only
      rw [hpost.any_eq (by decide)]
      cases hparse : parseIntPrefixed body radix.num with
      | error ierr => exact .inl ⟨_, rfl⟩
      | ok val =>
        refine absurd ?_ hproper
        rw [parseIntPrefixed] at hparse
        split at hparse
        · exact absurd hparse (by simp)
        rename_i hstrip
        have hdigit : ∀ c ∈ body, radix.isDigit c = true ∨ c = '_' := by
          intro c hc
          by_contra hnone
          rw [not_or] at hnone
          obtain ⟨message, herror⟩ := parseDigits_error ⟨c, mem_strip.mpr ⟨hc, hnone.2⟩,
            Option.not_isSome_iff_eq_none.mp hnone.1⟩ 0
          rw [herror] at hparse
          exact absurd hparse (by simp)
        have hradix : ∀ {o : Option Char}, (∀ c, o = some c → c ∈ body) → o.any isHex = true →
            o.any radix.isDigit = true := by
          intro o hmem ho
          obtain ⟨c, hc, hhex⟩ := (Option.any_eq_true _ _).mp ho
          refine (Option.any_eq_true _ _).mpr ⟨c, hc, (hdigit c (hmem c hc)).resolve_right ?_⟩
          rintro rfl
          exact absurd hhex (by decide)
        refine ⟨?_, hdigit, fun l r hlr => ?_⟩
        · rintro rfl
          exact hstrip rfl
        · obtain ⟨hleft, hright⟩ := hbetween l r hlr
          refine ⟨hradix (fun c hc => ?_) hleft, hradix (fun c hc => ?_) hright⟩
          · rw [hlr]
            exact List.mem_append_left _ (List.mem_of_getLast? hc)
          · rw [hlr]
            exact List.mem_append_right _ (List.mem_cons_of_mem _ (List.mem_of_head? hc))
    · have hbare : rest.head?.any isBareChar = true := by
        rw [hhead, Option.any_some]
        rcases hbody d hd with h | h | rfl
        · simp [isBareChar, h]
        · simp [isBareChar, h]
        · rfl
      dsimp only
      rw [hbare]
      exact hrewind

end Prefixed

/-! ## Exact or refused -/

namespace Literal

variable {lit : Literal} {result : Parsed (JsonValue × TomlTokenStream)}

/-- **When a value is read exactly or refused.** -/
def Read (lit : Literal) : Prop := ¬ lit.Proper ∨ ¬ lit.Plus ∧ ¬ lit.LeadingZero ∧ lit.Fits

theorem exact_of_refused (hproper : ¬ lit.Proper)
    (hresult : ∃ message, result = .error (.error message)) : lit.Exact result ↔ lit.Read :=
  iff_of_true ⟨fun h => absurd h.1 hproper, fun _ => hresult⟩ (.inl hproper)

theorem exact_of_panic (hproper : lit.Proper) (hnot : lit.Plus ∨ ¬ lit.Fits)
    (hresult : ∃ message, result = .error (.panic message)) : lit.Exact result ↔ lit.Read := by
  obtain ⟨message, rfl⟩ := hresult
  refine iff_of_false (fun hexact => ?_) fun hread => ?_
  · by_cases hgood : lit.Proper ∧ ¬ lit.LeadingZero ∧ lit.Fits
    · obtain ⟨v, ts, hv, -⟩ := hexact.1 hgood
      exact absurd hv (by simp)
    · obtain ⟨m, hm⟩ := hexact.2 hgood
      exact absurd hm (by simp)
  · obtain ⟨hplus, -, hfits⟩ := hread.resolve_left (not_not_intro hproper)
    exact hnot.elim hplus fun h => h hfits

theorem exact_of_integer (hproper : lit.Proper) (hplus : ¬ lit.Plus) {v : BitVec 64}
    {ts : TomlTokenStream} (hresult : result = .ok (.longint v, ts))
    (hvalue : lit.Fits → v.toInt = lit.value) : lit.Exact result ↔ lit.Read := by
  subst hresult
  constructor
  · intro hexact
    by_contra hread
    rw [Read, not_or, not_not] at hread
    obtain ⟨m, hm⟩ := hexact.2 fun hgood => hread.2 ⟨hplus, hgood.2⟩
    exact absurd hm (by simp)
  · intro hread
    obtain ⟨-, hzero, hfits⟩ := hread.resolve_left (not_not_intro hproper)
    exact ⟨fun _ => ⟨v, ts, rfl, hvalue hfits⟩, fun h => absurd ⟨hproper, hzero, hfits⟩ h⟩

end Literal

theorem convert_none {sign : Sign} {body : List Char} (hne : stripUnderscores body ≠ [])
    (hdigits : ∀ d ∈ stripUnderscores body, isNumber d = true)
    (h : stringToInt64 (sign.text ++ stripUnderscores body) = none) :
    (Literal.decimal sign body).Plus ∨ ¬ (Literal.decimal sign body).Fits := by
  have hvalue := stringToInt64_eq sign hne hdigits
  rw [h] at hvalue
  cases sign with
  | none =>
    refine .inr fun hfits => ?_
    have hlt : digitsValue 10 (stripUnderscores body) < 2 ^ 63 := Int.ofNat_lt.mp hfits.2
    dsimp only at hvalue
    rw [if_pos hlt] at hvalue
    exact Option.some_ne_none _ hvalue.symm
  | plus => exact .inl rfl
  | minus =>
    refine .inr fun hfits => ?_
    have hle : digitsValue 10 (stripUnderscores body) ≤ 2 ^ 63 :=
      Int.ofNat_le.mp (Int.neg_le_neg_iff.mp hfits.1)
    dsimp only at hvalue
    rw [if_pos hle] at hvalue
    exact Option.some_ne_none _ hvalue.symm

theorem convert_some {sign : Sign} {body : List Char} {v : BitVec 64}
    (hne : stripUnderscores body ≠ []) (hdigits : ∀ d ∈ stripUnderscores body, isNumber d = true)
    (h : stringToInt64 (sign.text ++ stripUnderscores body) = some v) :
    ¬ (Literal.decimal sign body).Plus ∧
      ((Literal.decimal sign body).Fits → v.toInt = (Literal.decimal sign body).value) := by
  have hvalue := stringToInt64_eq sign hne hdigits
  rw [h] at hvalue
  refine ⟨?_, fun hfits => ?_⟩
  · rintro rfl
    exact Option.some_ne_none v hvalue
  have hbits : ∀ n : ℤ, -2 ^ 63 ≤ n → n < 2 ^ 63 → (BitVec.ofInt 64 n).toInt = n :=
    fun n hlow hhigh => BitVec.toInt_ofInt_eq_self (by decide) hlow hhigh
  cases sign with
  | none =>
    dsimp only at hvalue
    split at hvalue
    · rw [Option.some.inj hvalue]
      exact hbits _ hfits.1 hfits.2
    · exact absurd hvalue (Option.some_ne_none v)
  | plus => exact absurd hvalue (Option.some_ne_none v)
  | minus =>
    dsimp only at hvalue
    split at hvalue
    · rw [Option.some.inj hvalue]
      exact hbits _ hfits.1 hfits.2
    · exact absurd hvalue (Option.some_ne_none v)

theorem decimal_read {readQuoted : Char → LexState → TomlTokenAt × LexState}
    {parseInline : Char → TomlTokenStream → Parsed (JsonValue × TomlTokenStream)} {sign : Sign}
    {body post : List Char} {ts : TomlTokenStream} (hshape : (Literal.decimal sign body).Shape)
    (hpost : Delimited post) (hat : AtValue readQuoted (sign.text ++ body) post ts) :
    (Literal.decimal sign body).Exact (parseValue readQuoted parseInline ts) ↔
      (Literal.decimal sign body).Read := by
  obtain ⟨hne, hbody⟩ := hshape
  obtain ⟨c, hc⟩ : ∃ c, (sign.text ++ body).head? = some c := by
    obtain ⟨d, ds, rfl⟩ := List.exists_cons_of_ne_nil hne
    cases sign <;> exact ⟨_, rfl⟩
  have hkey : c = '+' ∨ (isNumber c || c == '-' || c == '_') = true := by
    cases sign with
    | none =>
      rcases hbody c (List.mem_of_head? hc) with h | rfl
      · exact .inr (by simp [h])
      · exact .inr rfl
    | plus => exact .inl (Option.some.inj hc).symm
    | minus =>
      obtain rfl := Option.some.inj hc
      exact .inr rfl
  have hblank : c ∉ [' ', '\t', '\r', '#'] := by
    intro hmem
    simp only [List.mem_cons, List.not_mem_nil, or_false] at hmem
    rcases hmem with rfl | rfl | rfl | rfl <;> exact absurd hkey (by decide)
  by_cases hproper : UnderscoresBetween isNumber body
  · have hhead := head_of_between hbody hne hproper
    have hlex : ∀ st : LexState, st.rest = sign.text ++ body ++ post →
        lexToken readQuoted st c = _ := fun st hst =>
      (lexToken_decimal hst hc hhead).trans
        ((classify_decimal hbody hne hpost hst).trans (decimal_proper hbody hne hproper hpost))
    have hstrip : stripUnderscores body ≠ [] := by
      obtain ⟨d, hd, hdigit⟩ := (Option.any_eq_true _ _).mp hhead
      refine List.ne_nil_of_mem (mem_strip.mpr ⟨List.mem_of_head? hd, ?_⟩)
      rintro rfl
      exact absurd hdigit (by decide)
    have hdigits : ∀ d ∈ stripUnderscores body, isNumber d = true := by
      intro d hd
      obtain ⟨hmem, hunder⟩ := mem_strip.mp hd
      exact (hbody d hmem).resolve_right hunder
    cases hconvert : stringToInt64 (sign.text ++ stripUnderscores body) with
    | none =>
      obtain ⟨message, hpanic⟩ := hat.panic hc hblank fun st hst => by
        rw [hlex st hst, hconvert]
        exact ⟨_, rfl⟩
      exact Literal.exact_of_panic hproper (convert_none hstrip hdigits hconvert)
        ⟨message, parseValue_panic hpanic⟩
    | some v =>
      obtain ⟨tk, ts', hpeek, htk⟩ := hat.peek hc hblank (P := (· = .integer v)) fun st hst => by
        rw [hlex st hst, hconvert]
        exact ⟨_, _, rfl, rfl⟩
      have hresult : parseValue readQuoted parseInline ts = _ := parseValue_eq hpeek
      rw [valueOfToken, htk] at hresult
      obtain ⟨hplus, hexact⟩ := convert_some hstrip hdigits hconvert
      exact Literal.exact_of_integer hproper hplus hresult hexact
  · refine Literal.exact_of_refused hproper ?_
    obtain ⟨tk, ts', hpeek, hrefused⟩ := hat.peek hc hblank (P := Refused) fun st hst => by
      by_cases hhead : body.head?.any isNumber = true
      · rw [lexToken_decimal hst hc hhead, classify_decimal hbody hne hpost hst]
        refine decimal_improper hbody hproper hpost ⟨c, ?_, hkey⟩
        rw [hst, List.head?_append, hc]
        rfl
      · obtain ⟨d, ds, rfl⟩ := List.exists_cons_of_ne_nil hne
        obtain rfl := (hbody d List.mem_cons_self).resolve_left hhead
        exact lexToken_underscore hst hc
    exact parseValue_refused hpeek hrefused

theorem prefixed_read {readQuoted : Char → LexState → TomlTokenAt × LexState}
    {parseInline : Char → TomlTokenStream → Parsed (JsonValue × TomlTokenStream)} {radix : Radix}
    {body post : List Char} {ts : TomlTokenStream} (hshape : (Literal.prefixed radix body).Shape)
    (hpost : Delimited post)
    (hat : AtValue readQuoted ('0' :: radix.letter :: body) post ts) :
    (Literal.prefixed radix body).Exact (parseValue readQuoted parseInline ts) ↔
      (Literal.prefixed radix body).Read := by
  have hlex : ∀ st : LexState, st.rest = '0' :: radix.letter :: body ++ post →
      lexToken readQuoted st '0' = .ok (classifyPrefixed radix.num st) := fun st hst =>
    (lexToken_number (by decide)).trans (classify_prefixed hshape hpost hst)
  by_cases hproper : (Literal.prefixed radix body).Proper
  · obtain ⟨tk, ts', hpeek, htk⟩ := hat.peek rfl (by decide) (P := (· = .integer
      (BitVec.ofNat 64 (digitsValue radix.num (stripUnderscores body))))) fun st hst =>
        ⟨_, _, hlex st hst, prefixed_proper hproper hpost hst⟩
    have hresult : parseValue readQuoted parseInline ts = _ := parseValue_eq hpeek
    rw [valueOfToken, htk] at hresult
    refine Literal.exact_of_integer hproper id hresult fun hfits => ?_
    exact toInt_ofNat_eq (Int.ofNat_lt.mp hfits.2)
  · obtain ⟨tk, ts', hpeek, hrefused⟩ := hat.peek rfl (by decide) (P := Refused) fun st hst =>
      ⟨_, _, hlex st hst, prefixed_improper hshape hproper hpost hst⟩
    exact Literal.exact_of_refused hproper (parseValue_refused hpeek hrefused)

/-- **An integer is read exactly or refused** just where it is not proper, or has no plus sign and
no leading zero, and fits. -/
theorem integers_exact_iff (readQuoted : Char → LexState → TomlTokenAt × LexState)
    (parseInline : Char → TomlTokenStream → Parsed (JsonValue × TomlTokenStream)) (lit : Literal)
    (hshape : lit.Shape) (post : List Char) (hpost : Delimited post) (ts : TomlTokenStream)
    (hat : AtValue readQuoted lit.text post ts) :
    lit.Exact (parseValue readQuoted parseInline ts) ↔ lit.Read := by
  cases lit with
  | decimal sign body => exact decimal_read hshape hpost hat
  | prefixed radix body => exact prefixed_read hshape hpost hat

theorem integers_exact_iff_ten :
    (Literal.decimal .minus ['1', '_', '0']).Exact
      (parseValue (fun _ st => (st.token .newline, st)) (fun _ ts => .ok (.bool true, ts))
        ⟨⟨['-', '1', '_', '0'], 1, 0⟩, none⟩) ↔
      (Literal.decimal .minus ['1', '_', '0']).Read :=
  integers_exact_iff _ _ (.decimal .minus ['1', '_', '0'])
    ⟨List.cons_ne_nil _ _, by simp [isNumber]⟩ [] (by simp [Delimited]) _
    (@AtValue.start _ _ _ [] _ (by simp) rfl)

theorem integers_not_exact :
    ¬ (Literal.decimal .plus ['1']).Exact
      (parseValue (fun _ st => (st.token .newline, st)) (fun _ ts => .ok (.bool true, ts))
        ⟨⟨['+', '1'], 1, 0⟩, none⟩) ∧
    ¬ (Literal.prefixed .hex (List.replicate 16 'f')).Exact
      (parseValue (fun _ st => (st.token .newline, st)) (fun _ ts => .ok (.bool true, ts))
        ⟨⟨'0' :: 'x' :: List.replicate 16 'f', 1, 0⟩, none⟩) := by
  refine ⟨fun hexact => ?_, fun hexact => ?_⟩
  · have hpanic : parseValue (fun _ st => (st.token .newline, st))
        (fun _ ts => .ok (.bool true, ts)) ⟨⟨['+', '1'], 1, 0⟩, none⟩ =
          .error (.panic "failed to convert '+1' to number") := rfl
    rw [hpanic] at hexact
    by_cases hgood : (Literal.decimal .plus ['1']).Proper ∧
        ¬ (Literal.decimal .plus ['1']).LeadingZero ∧ (Literal.decimal .plus ['1']).Fits
    · obtain ⟨v, ts, hv, -⟩ := hexact.1 hgood
      exact absurd hv (by simp)
    · obtain ⟨m, hm⟩ := hexact.2 hgood
      exact absurd hm (by simp)
  · have hread : parseValue (fun _ st => (st.token .newline, st))
        (fun _ ts => .ok (.bool true, ts))
        ⟨⟨'0' :: 'x' :: List.replicate 16 'f', 1, 0⟩, none⟩ =
          .ok (.longint (-1), ⟨⟨[], 1, 18⟩, none⟩) := rfl
    rw [hread] at hexact
    obtain ⟨m, hm⟩ := hexact.2 fun hgood => absurd hgood.2.2.2 (by decide)
    exact absurd hm (by simp)

end DaScript.Toml
