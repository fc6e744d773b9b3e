import DaScript.Foundations.CString
import DaScript.Machinery.Text

/-!
# Simulate/EscapeString — string literals are escaped and read back

`escapeString` and `unescapeString` of `simulate/runtime_string.cpp`, over bytes.  The escaper turns
one byte after another into its escape; the unescaper takes one character or escape a turn.

What is escaped is read back without an error, if no byte is zero (`unescape_escape`).
-/

namespace DaScript

open Text

/-! ## Escaping -/

/-- A digit of `tohex`. -/
def toHex (n : ℕ) : UInt8 := if n < 10 then (48 + n).toUInt8 else (87 + n).toUInt8

/-- What `escapeString` appends for a byte. -/
def escapeByte (das_escape : Bool) (c : UInt8) : List UInt8 :=
  if c = ch '"' then text "\\\""
  else if c = ch '\\' then text "\\\\"
  else if c = 8 then text "\\b"
  else if c = 11 then text "\\v"
  else if c = 12 then text "\\f"
  else if c = 10 then text "\\n"
  else if c = 13 then text "\\r"
  else if c = 9 then text "\\t"
  else if c = ch '\x7b' then (if das_escape then [ch '\\', c] else [c])
  else if c = ch '\x7d' then (if das_escape then [ch '\\', c] else [c])
  else if c ≤ 0x1f then text "\\u00" ++ [toHex (c.toNat / 16), toHex (c.toNat % 16)]
  else [c]

def escapeString (input : List UInt8) (das_escape : Bool) : List UInt8 :=
  input.flatMap (escapeByte das_escape)

/-! ## Unescaping -/

/-- `hexChar`, `none` for `-1`. -/
def hexChar (c : UInt8) : Option ℕ :=
  if ch 'a' ≤ c ∧ c ≤ ch 'f' then some (c.toNat - 97 + 10)
  else if ch 'A' ≤ c ∧ c ≤ ch 'F' then some (c.toNat - 65 + 10)
  else if ch '0' ≤ c ∧ c ≤ ch '9' then some (c.toNat - 48)
  else none

/-- The loop over at most `symbols` hex digits: how many were there, their `charCode`, and what
follows. -/
def hexDigits : ℕ → UInt32 → List UInt8 → ℕ × UInt32 × List UInt8
  | 0, charCode, str => (0, charCode, str)
  | _ + 1, charCode, [] => (0, charCode, [])
  | symbols + 1, charCode, c :: str =>
    match hexChar c with
    | none => (0, charCode, c :: str)
    | some h =>
      match hexDigits symbols (charCode * 16 + h.toUInt32) str with
      | (x, charCode, str) => (x + 1, charCode, str)

/-- A byte of the encoding: the bits of `c` from `shift` on, under a mask, and the mark. -/
def utf8Byte (c : UInt32) (shift mask mark : UInt32) : UInt8 :=
  (((c >>> shift) &&& mask) ||| mark).toUInt8

/-- `encodeUtf8Char`, with what it returns. -/
def encodeUtf8Char (c : UInt32) : List UInt8 × Bool :=
  if c ≤ 0x7F then ([c.toUInt8], true)
  else if c ≤ 0x7FF then ([utf8Byte c 6 0xFF 0xC0, utf8Byte c 0 0x3F 0x80], true)
  else if c ≤ 0xFFFF then
    ([utf8Byte c 12 0xFF 0xE0, utf8Byte c 6 0x3F 0x80, utf8Byte c 0 0x3F 0x80], true)
  else if c ≤ 0x1FFFFF then
    ([utf8Byte c 18 0xFF 0xF0, utf8Byte c 12 0x3F 0x80, utf8Byte c 6 0x3F 0x80,
      utf8Byte c 0 0x3F 0x80], true)
  else if c ≤ 0x3FFFFFF then
    ([utf8Byte c 24 0xFF 0xF8, utf8Byte c 18 0x3F 0x80, utf8Byte c 12 0x3F 0x80,
      utf8Byte c 6 0x3F 0x80, utf8Byte c 0 0x3F 0x80], true)
  else if c ≤ 0x7FFFFFFF then
    ([utf8Byte c 30 0xFF 0xFC, utf8Byte c 24 0x3F 0x80, utf8Byte c 18 0x3F 0x80,
      utf8Byte c 12 0x3F 0x80, utf8Byte c 6 0x3F 0x80, utf8Byte c 0 0x3F 0x80], true)
  else ([ch '?'], false)

/-- One turn of `unescapeString`: what is appended, whether there was an error, and what follows. -/
structure Unescaped where
  out : List UInt8
  error : Bool
  rest : List UInt8
  deriving DecidableEq, Repr

/-- `\x`, `\u` and `\U`. -/
def unescapeHex (symbols : ℕ) (str : List UInt8) : Unescaped :=
  match hexDigits symbols 0 str with
  | (x, charCode, rest) =>
    if symbols = 2 then (if x = 0 then ⟨[], true, rest⟩ else ⟨[charCode.toUInt8], false, rest⟩)
    else if x ≠ symbols then ⟨[], true, rest⟩
    else ⟨beforeZero (encodeUtf8Char charCode).1, !(encodeUtf8Char charCode).2, rest⟩

/-- What follows a backslash. -/
def unescapeAfter (c : UInt8) (str : List UInt8) : Unescaped :=
  if c = ch '"' ∨ c = ch '/' ∨ c = ch '\\' then ⟨[c], false, str⟩
  else if c = ch 'b' then ⟨[8], false, str⟩
  else if c = ch 'f' then ⟨[12], false, str⟩
  else if c = ch 'n' then ⟨[10], false, str⟩
  else if c = ch 'r' then ⟨[13], false, str⟩
  else if c = ch 't' then ⟨[9], false, str⟩
  else if c = ch 'v' then ⟨[11], false, str⟩
  else if c = 10 then ⟨[], false, str⟩
  else if c = ch '\x7b' then ⟨[c], false, str⟩
  else if c = ch '\x7d' then ⟨[c], false, str⟩
  else if c = 13 then ⟨[], false, if str.head? = some 10 then str.tail else str⟩
  else if c = ch 'x' then unescapeHex 2 str
  else if c = ch 'u' then unescapeHex 4 str
  else if c = ch 'U' then unescapeHex 8 str
  else ⟨[c], true, str⟩

def unescapeTurn : List UInt8 → Unescaped
  | [] => ⟨[], false, []⟩
  | c :: str =>
    if c = ch '\\' then
      match str with
      | [] => ⟨[], true, []⟩
      | c :: str => unescapeAfter c str
    else ⟨[c], false, str⟩

/-- The loop of `unescapeString`; every turn takes a byte at least. -/
def unescapeLoop : ℕ → List UInt8 → List UInt8 × Bool
  | 0, _ => ([], false)
  | _ + 1, [] => ([], false)
  | turns + 1, c :: str =>
    let turn := unescapeTurn (c :: str)
    let rest := unescapeLoop turns turn.rest
    (turn.out ++ rest.1, turn.error || rest.2)

/-- `unescapeString`, with the error. -/
def unescapeString (input : List UInt8) : List UInt8 × Bool := unescapeLoop input.length input

/-! ## The round trip -/

theorem unescapeTurn_control {n : ℕ} (hn : n < 32) (hne : n ≠ 0) (rest : List UInt8) :
    unescapeTurn (escapeByte true n.toUInt8 ++ rest) = ⟨[n.toUInt8], false, rest⟩ := by
  interval_cases n
  · exact absurd rfl hne
  all_goals rfl

theorem unescapeTurn_escapeByte {c : UInt8} (hc : c ≠ 0) (rest : List UInt8) :
    unescapeTurn (escapeByte true c ++ rest) = ⟨[c], false, rest⟩ := by
  by_cases hcontrol : c.toNat < 32
  · have hne : c.toNat ≠ 0 := fun h => hc (UInt8.toNat_inj.mp h)
    have hturn := unescapeTurn_control hcontrol hne rest
    rwa [Nat.toUInt8_eq, UInt8.ofNat_toNat] at hturn
  · have hplain : ∀ n : UInt8, n.toNat < 32 → c ≠ n := by
      rintro n hn rfl
      exact hcontrol hn
    by_cases hquote : c = ch '"'
    · subst hquote
      rfl
    by_cases hback : c = ch '\\'
    · subst hback
      rfl
    by_cases hopen : c = ch '\x7b'
    · subst hopen
      rfl
    by_cases hclose : c = ch '\x7d'
    · subst hclose
      rfl
    have hle : ¬ c ≤ 0x1f := fun h => hcontrol (Nat.lt_succ_of_le (UInt8.le_iff_toNat_le.mp h))
    rw [escapeByte, if_neg hquote, if_neg hback, if_neg (hplain 8 (by decide)),
      if_neg (hplain 11 (by decide)), if_neg (hplain 12 (by decide)),
      if_neg (hplain 10 (by decide)), if_neg (hplain 13 (by decide)),
      if_neg (hplain 9 (by decide)), if_neg hopen, if_neg hclose, if_neg hle,
      List.singleton_append]
    exact if_neg hback

theorem ite_ne_nil {p : Prop} [Decidable p] {a b : List UInt8} (ha : a ≠ []) (hb : b ≠ []) :
    (if p then a else b) ≠ [] := by
  split
  · exact ha
  · exact hb

theorem escapeByte_ne_nil (das_escape : Bool) (c : UInt8) : escapeByte das_escape c ≠ [] := by
  unfold escapeByte
  repeat' apply ite_ne_nil
  all_goals exact List.cons_ne_nil _ _

theorem unescapeLoop_escape {s : List UInt8} (hs : 0 ∉ s) {turns : ℕ} (hturns : s.length ≤ turns) :
    unescapeLoop turns (escapeString s true) = (s, false) := by
  induction s generalizing turns with
  | nil => cases turns <;> rfl
  | cons c s ih =>
    obtain ⟨hc, hs⟩ := not_or.mp (List.mem_cons.not.mp hs)
    obtain ⟨e, tail, he⟩ := List.exists_cons_of_ne_nil (escapeByte_ne_nil true c)
    have hturn := unescapeTurn_escapeByte (Ne.symm hc) (escapeString s true)
    cases turns with
    | zero => cases hturns
    | succ turns =>
      rw [escapeString, List.flatMap_cons, ← escapeString]
      rw [he, List.cons_append] at hturn ⊢
      rw [unescapeLoop, hturn, ih hs (Nat.le_of_succ_le_succ hturns)]
      rfl

theorem length_le_escapeString (s : List UInt8) (das_escape : Bool) :
    s.length ≤ (escapeString s das_escape).length := by
  induction s with
  | nil => exact le_rfl
  | cons c s ih =>
    have hpos := List.length_pos_iff.mpr (escapeByte_ne_nil das_escape c)
    rw [escapeString, List.flatMap_cons, ← escapeString, List.length_append, List.length_cons]
    omega

/-- **A string without zeros is read back from its literal.** -/
theorem unescape_escape {s : List UInt8} (hs : 0 ∉ s) :
    unescapeString (escapeString s true) = (s, false) :=
  unescapeLoop_escape hs (length_le_escapeString s true)

theorem unescape_escape_four : unescapeString (escapeString [11, 123, 7, 200] true) =
    ([11, 123, 7, 200], false) := unescape_escape (by decide)

end DaScript
