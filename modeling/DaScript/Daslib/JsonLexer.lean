import DaScript.Machinery.Text

/-!
# Daslib/JsonLexer — the tokens of a JSON text

`_lexer` of `daslib/json.das`: a generator over the bytes of a string, the last one read standing in
`ahead`.  What an iterator reads past the end of its string is a zero, and it is closed from there
on.

A token that is an error is the last; so is a number that the conversion refuses, since the
conversion throws.  Numbers with a fraction or an exponent are converted by `Reals`, which stands
for `double`.
-/

namespace DaScript.Json

open Text

/-- What `double` brings along: its values, the conversion from a numeral, which may throw, and how
a value is printed, never with a bracket first. -/
structure Reals where
  carrier : Type
  ofText : List UInt8 → Option carrier
  print : carrier → List UInt8
  print_head : ∀ d, (print d).head? ≠ some (ch ']')

/-- What `_lexer` has to object. -/
inductive LexError
  | incompleteEscape
  | escapeExceedsText
  | stringExceedsText
  | invalidNumber (num : List UInt8)
  | invalidName (name : List UInt8)
  | invalidCharacter (c : UInt8)
  deriving DecidableEq, Repr

/-- The text of an error token. -/
def LexError.print : LexError → List UInt8
  | .incompleteEscape => text "incomplete \\u escape"
  | .escapeExceedsText => text "string escape sequence exceeds text"
  | .stringExceedsText => text "string exceeds text"
  | .invalidNumber num => text "invalid number " ++ num
  | .invalidName name => text "invalid name " ++ name
  | .invalidCharacter c =>
    text "invalid character `" ++ [c] ++ text "` aka ASCII " ++ decimal c.toNat

inductive Token (R : Reals)
  | string (s : List UInt8)
  | number (d : R.carrier)
  | longint (i : Int64)
  | bool (b : Bool)
  | null
  | symbol (c : UInt8)
  | error (e : LexError)

structure TokenAt (R : Reals) where
  value : Token R
  line : ℕ
  row : ℕ

/-- What the generator does when it is asked for more. -/
inductive Lexed (R : Reals)
  | token (t : TokenAt R)
  /-- an exception of the conversion from text to number -/
  | thrown (num : List UInt8)

/-! ## Characters -/

def isWhiteSpace (c : UInt8) : Bool := c = ch ' ' || c = ch '\n' || c = ch '\r' || c = ch '\t'

def isNewLine (c : UInt8) : Bool := c = ch '\n' || c = ch '\r'

def isAlpha (c : UInt8) : Bool :=
  (ch 'a' ≤ c && c ≤ ch 'z') || (ch 'A' ≤ c && c ≤ ch 'Z')

def isHex (c : UInt8) : Bool :=
  isDigit c || (ch 'a' ≤ c && c ≤ ch 'f') || (ch 'A' ≤ c && c ≤ ch 'F')

/-- One of `[]{}:,`. -/
def isSymbol (c : UInt8) : Bool :=
  c = ch '[' || c = ch ']' || c = ch '{' || c = ch '}' || c = ch ':' || c = ch ','

/-! ## The cursor -/

/-- `ahead`, `line` and `row`. -/
structure Head where
  ahead : UInt8
  line : ℕ
  row : ℕ

/-- The state of the generator: what `tin` has still to read, `none` once it is closed. -/
structure Cursor where
  tin : Option (List UInt8)
  head : Head

/-- `next` reads a character. -/
def Head.read (h : Head) (c : UInt8) : Head :=
  if isNewLine c then ⟨c, h.line + 1, 0⟩ else ⟨c, h.line, h.row + 1⟩

/-- `next` reads past the end. -/
def Head.close (h : Head) : Head := { h with ahead := 0 }

/-- `next(tin, ahead, line, row)` -/
def Cursor.next (s : Cursor) : Cursor :=
  match s.tin with
  | none => s
  | some [] => ⟨none, s.head.close⟩
  | some (c :: cs) => ⟨some cs, s.head.read c⟩

/-- `next(tin, ahead)`, which does not count. -/
def Cursor.skip (s : Cursor) : Cursor :=
  match s.tin with
  | none => s
  | some [] => ⟨none, s.head.close⟩
  | some (c :: cs) => ⟨some cs, { s.head with ahead := c }⟩

/-- `while (is_white_space(ahead) && next(tin, ahead, line, row))` -/
def skipWhite : List UInt8 → Head → Cursor
  | [], h => if isWhiteSpace h.ahead then ⟨none, h.close⟩ else ⟨some [], h⟩
  | c :: cs, h => if isWhiteSpace h.ahead then skipWhite cs (h.read c) else ⟨some (c :: cs), h⟩

/-- `while (next(tin, ahead, line, row) && p(ahead)) { push(str, uint8(ahead)) }`: what is pushed,
and where it stops. -/
def pushWhile (p : UInt8 → Bool) : List UInt8 → Head → List UInt8 × Cursor
  | [], h => ([], ⟨none, h.close⟩)
  | c :: cs, h =>
    if p c then (c :: (pushWhile p cs (h.read c)).1, (pushWhile p cs (h.read c)).2)
    else ([], ⟨some cs, h.read c⟩)

/-- The same, on an iterator that may be closed. -/
def Cursor.pushWhile (p : UInt8 → Bool) (s : Cursor) : List UInt8 × Cursor :=
  match s.tin with
  | none => ([], s)
  | some cs => Json.pushWhile p cs s.head

/-! ## Strings -/

/-- The character that stands after a backslash. -/
def unescape (c : UInt8) : UInt8 :=
  if c = ch 'b' then 8
  else if c = ch 'f' then 12
  else if c = ch 'n' then ch '\n'
  else if c = ch 'r' then ch '\r'
  else if c = ch 't' then ch '\t'
  else c

/-- The number of a hexadecimal digit. -/
def hexDigit (c : UInt8) : ℕ :=
  if isDigit c then c.toNat - 48
  else if ch 'a' ≤ c && c ≤ ch 'f' then c.toNat - 97 + 10
  else if ch 'A' ≤ c && c ≤ ch 'F' then c.toNat - 65 + 10
  else 0

/-- `codepoint`, in UTF-8. -/
def encode (codepoint : ℕ) : List UInt8 :=
  if codepoint ≤ 0x7F then [codepoint.toUInt8]
  else if codepoint ≤ 0x7FF then
    [(0xC0 ||| codepoint >>> 6).toUInt8, (0x80 ||| codepoint &&& 0x3F).toUInt8]
  else if codepoint ≤ 0xFFFF then
    [(0xE0 ||| codepoint >>> 12).toUInt8, (0x80 ||| codepoint >>> 6 &&& 0x3F).toUInt8,
      (0x80 ||| codepoint &&& 0x3F).toUInt8]
  else []

/-- Where the loop over a string stands. -/
inductive Within
  | plain
  /-- past a backslash -/
  | escape
  /-- past `\u`, with these digits of the four -/
  | hex (seen : List UInt8)

/-- The loop over a string: its bytes, and where it stops past the closing quote. -/
def stringLoop : List UInt8 → Head → Within → List UInt8 →
    Except (LexError × Head) (List UInt8 × List UInt8 × Head)
  | [], h, .plain, _ => .error (.stringExceedsText, h.close)
  | [], h, .escape, _ => .error (.escapeExceedsText, h.close)
  | [], h, .hex _, _ => .error (.incompleteEscape, h.close)
  | c :: cs, h, .plain, str =>
    if c = ch '"' then .ok (str, cs, h.read c)
    else if c = ch '\\' then stringLoop cs (h.read c) .escape str
    else stringLoop cs (h.read c) .plain (str ++ [c])
  | c :: cs, h, .escape, str =>
    if c = ch 'u' then stringLoop cs (h.read c) (.hex []) str
    else stringLoop cs (h.read c) .plain (str ++ [unescape c])
  | c :: cs, h, .hex seen, str =>
    if !isHex c then
      -- an invalid sequence is kept as it is
      stringLoop cs (h.read c) .plain (str ++ text "\\u" ++ seen ++ [c])
    else if seen.length + 1 = 4 then
      stringLoop cs (h.read c) .plain
        (str ++ encode ((seen ++ [c]).foldl (fun n c => n * 16 + hexDigit c) 0))
    else stringLoop cs (h.read c) (.hex (seen ++ [c])) str

/-! ## Numbers -/

/-- `uint64` of a numeral: digits, no sign, in range. -/
def uint64OfText (num : List UInt8) : Option UInt64 :=
  if num ≠ [] ∧ num.all isDigit ∧ readDecimal num < 2 ^ 64 then
    some (UInt64.ofNat (readDecimal num))
  else none

/-- `int64` of a numeral with a minus: digits after it, in range. -/
def int64OfNegative (num : List UInt8) : Option Int64 :=
  if num.tail ≠ [] ∧ num.tail.all isDigit ∧ readDecimal num.tail ≤ 2 ^ 63 then
    some (Int64.ofInt (-(readDecimal num.tail : ℤ)))
  else none

/-- A number as it is read: its text, and what kind of number it is. -/
structure Numeral where
  num : List UInt8
  isNegative : Bool
  isInteger : Bool
  anyNumbers : Bool
  cursor : Cursor

/-- `'.'` and the digits after it. -/
def readFraction (n : Numeral) : Numeral :=
  if n.cursor.tin ≠ none ∧ n.cursor.head.ahead = ch '.' then
    let digits := n.cursor.pushWhile isDigit
    { n with
      num := n.num ++ [ch '.'] ++ digits.1
      isInteger := false
      anyNumbers := n.anyNumbers || digits.1 ≠ []
      cursor := digits.2 }
  else n

/-- `'e'`, and what is taken for the exponent. -/
def readExponent (n : Numeral) : Numeral :=
  let e := n.cursor.head.ahead
  if n.cursor.tin ≠ none ∧ (e = ch 'e' ∨ e = ch 'E') then
    let s := n.cursor.next
    let c := s.head.ahead
    let sign := if c = ch '+' ∨ c = ch '-' ∨ isDigit c then [c] else []
    let digits := s.pushWhile isDigit
    { n with
      num := n.num ++ [e] ++ sign ++ digits.1
      isInteger := false
      anyNumbers := n.anyNumbers || digits.1 ≠ []
      cursor := digits.2 }
  else n

/-- The number that `ahead` begins. -/
def readNumber (s : Cursor) : Numeral :=
  let c := s.head.ahead
  let digits := s.pushWhile isDigit
  readExponent (readFraction
    { num := c :: digits.1
      isNegative := c = ch '-'
      isInteger := true
      anyNumbers := isDigit c || digits.1 ≠ []
      cursor := digits.2 })

variable (R : Reals)

/-- The token of a number; `none` is the exception of the conversion. -/
def numberToken (n : Numeral) : Option (Token R) :=
  if !n.anyNumbers then some (.error (.invalidNumber n.num))
  else if n.isInteger then
    if n.isNegative then (int64OfNegative n.num).map .longint
    else (uint64OfText n.num).map fun u => .longint u.toInt64
  else (R.ofText n.num).map .number

/-- The token of a name. -/
def nameToken (name : List UInt8) : Token R :=
  if name = text "true" then .bool true
  else if name = text "false" then .bool false
  else if name = text "null" then .null
  else .error (.invalidName name)

/-- Whether the generator goes on after the token. -/
def Token.goesOn {R : Reals} : Token R → Bool
  | .error _ => false
  | _ => true

/-! ## The generator -/

/-- A token, and the cursor the generator goes on from, if it does. -/
def Head.yields {R : Reals} (h : Head) (t : Token R) (s : Cursor) : Lexed R × Option Cursor :=
  (.token ⟨t, h.line, h.row⟩, if t.goesOn then some s else none)

/-- One turn of the generator: what it yields and the cursor after it, `none` if it is done. -/
def lexOne (s : Cursor) : Option (Lexed R × Option Cursor) :=
  match s.tin with
  | none => none
  | some cs =>
    let s := skipWhite cs s.head
    match s.tin with
    | none => none
    | some cs =>
      let a := s.head.ahead
      if isSymbol a then some (s.head.yields (.symbol a) s.skip)
      else if a = ch '"' then
        match stringLoop cs s.head .plain [] with
        | .error (e, h) => some (h.yields (.error e) s)
        | .ok (str, cs, h) => some (h.yields (.string str) (Cursor.skip ⟨some cs, h⟩))
      else if a = ch '+' ∨ a = ch '-' ∨ isDigit a then
        let n := readNumber s
        match numberToken R n with
        | none => some (.thrown n.num, none)
        | some t => some (n.cursor.head.yields t n.cursor)
      else if isAlpha a then
        let name := s.pushWhile isAlpha
        some (name.2.head.yields (nameToken R (a :: name.1)) name.2)
      else some (s.head.yields (.error (.invalidCharacter a)) s)

/-- What the generator yields, in so many turns at most. -/
def lexTurns : ℕ → Cursor → List (Lexed R)
  | 0, _ => []
  | turns + 1, s =>
    match lexOne R s with
    | none => []
    | some (t, none) => [t]
    | some (t, some s) => t :: lexTurns turns s

/-- `lexer`: the string ends at its first zero, and every turn reads a character at least. -/
def lexer (stext : List UInt8) : List (Lexed R) :=
  let str := stext.takeWhile (· ≠ 0)
  lexTurns R (str.length + 1) ⟨some str, ⟨ch ' ', 1, 0⟩⟩

end DaScript.Json
