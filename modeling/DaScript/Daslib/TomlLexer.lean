import Mathlib.Tactic

/-!
# Daslib/TomlLexer — tokens of TOML

`next_token` of `daslib/toml.das`, and what it calls for keys, numbers and dates.  The lexer takes
what starts with a digit or a sign for a number first, and goes back to a key where the number does
not end.
-/

namespace DaScript.Toml

/-! ## Characters -/

def isNumber (c : Char) : Bool := '0' ≤ c && c ≤ '9'

def isAlpha (c : Char) : Bool := ('a' ≤ c && c ≤ 'z') || ('A' ≤ c && c ≤ 'Z')

def isHex (c : Char) : Bool := isNumber c || ('a' ≤ c && c ≤ 'f') || ('A' ≤ c && c ≤ 'F')

def isBareChar (c : Char) : Bool := isAlpha c || isNumber c || c == '-' || c == '_'

/-- `hex_value`; `none` is `-1`. -/
def hexValue (c : Char) : Option ℕ :=
  if isNumber c then some (c.toNat - '0'.toNat)
  else if 'a' ≤ c && c ≤ 'f' then some (c.toNat - 'a'.toNat + 10)
  else if 'A' ≤ c && c ≤ 'F' then some (c.toNat - 'A'.toNat + 10)
  else none

/-! ## Tokens -/

/-- `_float`: a name, or the text that `double` is called with. -/
inductive FloatValue
  | posInf | negInf | nan
  | ofText (text : List Char)
  deriving DecidableEq

inductive TomlToken
  | symbol (c : Char)
  | newline
  | bare (text : List Char)
  | string (text : List Char)
  | integer (value : BitVec 64)
  | float (value : FloatValue)
  | datetime (text : List Char)
  | error (message : String)
  deriving DecidableEq

structure TomlTokenAt where
  value : TomlToken
  line : ℕ
  row : ℕ
  deriving DecidableEq

/-- `LexState`, with the data from `pos` on. -/
structure LexState where
  rest : List Char
  line : ℕ
  row : ℕ
  deriving DecidableEq

def LexState.advance (st : LexState) : LexState :=
  match st.rest with
  | [] => st
  | c :: rest => if c = '\n' then ⟨rest, st.line + 1, 0⟩ else ⟨rest, st.line, st.row + 1⟩

/-- `advance`, so many times. -/
def LexState.advanceBy : ℕ → LexState → LexState
  | 0, st => st
  | k + 1, st => LexState.advanceBy k st.advance

/-- A token, and where the lexer goes on; an error is a panic. -/
abbrev Lexed : Type := Except String (TomlTokenAt × LexState)

/-- A token where the lexer started. -/
def LexState.token (start : LexState) (value : TomlToken) : TomlTokenAt :=
  ⟨value, start.line, start.row⟩

def startsWithAt (rest : List Char) (s : String) : Bool := s.toList.isPrefixOf rest

def readBareKey (st : LexState) : List Char × LexState :=
  (st.rest.takeWhile isBareChar, st.advanceBy (st.rest.takeWhile isBareChar).length)

def rewindToBare (start : LexState) : TomlTokenAt × LexState :=
  if start.rest.head? = some '+' then
    (start.token (.error s!"stray sign '+' at {start.line}:{start.row}"), start.advance)
  else (start.token (.bare (readBareKey start).1), (readBareKey start).2)

/-! ## Dates -/

/-- `is_number(int(data[pos + i]))` -/
def numberAt (rest : List Char) (i : ℕ) : Bool := rest[i]?.any isNumber

def looksLikeDatetime (rest : List Char) : Bool :=
  decide (10 ≤ rest.length) &&
    numberAt rest 0 && numberAt rest 1 && numberAt rest 2 && numberAt rest 3 &&
    rest[4]? == some '-' && numberAt rest 5 && numberAt rest 6 &&
    rest[7]? == some '-' && numberAt rest 8 && numberAt rest 9

def looksLikeTime (rest : List Char) : Bool :=
  decide (8 ≤ rest.length) &&
    numberAt rest 0 && numberAt rest 1 && rest[2]? == some ':' &&
    numberAt rest 3 && numberAt rest 4 && rest[5]? == some ':' &&
    numberAt rest 6 && numberAt rest 7

/-- Fractional seconds. -/
def fractionLength (rest : List Char) : ℕ :=
  if rest.head? = some '.' then 1 + (rest.tail.takeWhile isNumber).length else 0

/-- `Z`, or a sign and `HH:MM`. -/
def offsetLength (rest : List Char) : ℕ :=
  match rest.head? with
  | none => 0
  | some oc =>
    if oc = 'Z' ∨ oc = 'z' then 1
    else if (oc = '+' ∨ oc = '-') ∧ 5 < rest.length ∧ numberAt rest 1 ∧ numberAt rest 2 ∧
        rest[3]? = some ':' ∧ numberAt rest 4 ∧ numberAt rest 5 then 6
    else 0

/-- The time after a date, with what separates them. -/
def timeLength (rest : List Char) : ℕ :=
  if (rest.head? = some 'T' ∨ rest.head? = some 't' ∨ rest.head? = some ' ') ∧ 8 < rest.length ∧
      looksLikeTime rest.tail then
    let seconds := 9 + fractionLength (rest.drop 9)
    seconds + offsetLength (rest.drop seconds)
  else 0

/-- How much `read_datetime` reads. -/
def datetimeLength (allowTime : Bool) (rest : List Char) : ℕ :=
  if allowTime then 8 + fractionLength (rest.drop 8) else 10 + timeLength (rest.drop 10)

def readDatetime (allowTime : Bool) (st : LexState) : List Char × LexState :=
  (st.rest.take (datetimeLength allowTime st.rest), st.advanceBy (datetimeLength allowTime st.rest))

/-- A date or a time in `classify_number_or_datetime`; `colon` is what a `:` after it is. -/
def classifyDatetime (allowTime : Bool) (colon : List Char → String) (start : LexState) :
    TomlTokenAt × LexState :=
  let (s, st) := readDatetime allowTime start
  match st.rest.head? with
  | none => (start.token (.datetime s), st)
  | some c =>
    if isBareChar c then rewindToBare start
    else if c = ':' then (start.token (.error (colon s)), st)
    else (start.token (.datetime s), st)

/-! ## Numbers -/

def stripUnderscores (s : List Char) : List Char := s.filter (· ≠ '_')

/-- A digit of a radix, in `parse_int_prefixed`. -/
def digitValue (radix : ℕ) (c : Char) : Option ℕ :=
  if radix = 16 then hexValue c
  else if radix = 8 then (if '0' ≤ c ∧ c ≤ '7' then some (c.toNat - '0'.toNat) else none)
  else if c = '0' ∨ c = '1' then some (c.toNat - '0'.toNat)
  else none

/-- What a radix is called in errors. -/
def radixName (radix : ℕ) : String :=
  if radix = 16 then "hex" else if radix = 8 then "octal" else "binary"

/-- The loop of `parse_int_prefixed`. -/
def parseDigits (radix : ℕ) : List Char → BitVec 64 → Except String (BitVec 64)
  | [], acc => .ok acc
  | c :: cs, acc =>
    match digitValue radix c with
    | none => .error s!"invalid digit '{c}' in literal"
    | some v => parseDigits radix cs (acc * BitVec.ofNat 64 radix + BitVec.ofNat 64 v)

def parseIntPrefixed (rest : List Char) (radix : ℕ) : Except String (BitVec 64) :=
  if stripUnderscores rest = [] then .error s!"empty {radixName radix} literal"
  else parseDigits radix (stripUnderscores rest) 0

/-- The value of digits. -/
def digitsValue (radix : ℕ) (digits : List Char) : ℕ :=
  digits.foldl (fun acc c => acc * radix + (hexValue c).getD 0) 0

/-- `fast_float::from_chars` for `int64_t`: digits up to the first character that is none, with a
minus sign but no plus sign. -/
def fromChars (isDigit : Char → Bool) (radix : ℕ) (str : List Char) : Option ℤ :=
  let negative := str.head? = some '-'
  let digits := (if negative then str.tail else str).takeWhile isDigit
  if digits = [] then none
  else
    let i := digitsValue radix digits
    if i > 2 ^ 63 - 1 + (if negative then 1 else 0) then none
    else some (if negative then -(i : ℤ) else i)

def isWhiteSpace (c : Char) : Bool := c == ' ' || c == '\n' || c == '\r' || c == '\t'

/-- `int64(text)`; `none` is a panic. -/
def stringToInt64 (text : List Char) : Option (BitVec 64) :=
  let str := text.dropWhile isWhiteSpace
  if ['0', 'x'].isPrefixOf str || ['0', 'X'].isPrefixOf str then
    (fromChars isHex 16 (str.drop 2)).map (BitVec.ofInt 64)
  else (fromChars isNumber 10 str).map (BitVec.ofInt 64)

/-- A loop over digits and underscores: all that were pushed and what is left, or an underscore
that is not between digits, and whether it is before a character of a bare key. -/
inductive Run
  | done (buf rest : List Char)
  | misplaced (rest : List Char) (bare : Bool)
  deriving DecidableEq

/-- The loops over digits of `classify_number_or_datetime`. -/
def scanRun (isDigit : Char → Bool) : List Char → List Char → Run
  | buf, [] => .done buf []
  | buf, c :: rest =>
    if isDigit c then scanRun isDigit (buf ++ [c]) rest
    else if c = '_' then
      if !buf.getLast?.any isDigit || !rest.head?.any isDigit then
        .misplaced (c :: rest) (rest.head?.any isBareChar)
      else scanRun isDigit (buf ++ [c]) rest
    else .done buf (c :: rest)

/-- An error token. -/
def LexState.err (start : LexState) (message : String) (rest : List Char) :
    TomlTokenAt × LexState :=
  (start.token (.error s!"{message} at {start.line}:{start.row}"),
    start.advanceBy (start.rest.length - rest.length))

/-- What is after `0x`, `0o` or `0b`. -/
def classifyPrefixed (radix : ℕ) (start : LexState) : TomlTokenAt × LexState :=
  match scanRun isHex [] (start.rest.drop 2) with
  | .misplaced _ true => rewindToBare start
  | .misplaced rest false =>
    start.err s!"underscore in {radixName radix} literal must be between digits" rest
  | .done tail rest =>
    if rest.head?.any isBareChar then rewindToBare start
    else
      match parseIntPrefixed tail radix with
      | .error ierr => start.err ierr rest
      | .ok val =>
        (start.token (.integer val), start.advanceBy (start.rest.length - rest.length))

/-- The fraction of a number: what was pushed, what is left, and whether it is there. -/
def scanFraction (buf rest : List Char) :
    Except (String × List Char) (List Char × List Char × Bool) :=
  if rest.head? = some '.' ∧ numberAt rest 1 then
    match scanRun isNumber (buf ++ ['.']) rest.tail with
    | .done buf rest => .ok (buf, rest, true)
    | .misplaced rest _ => .error ("underscore in fractional part must be between digits", rest)
  else .ok (buf, rest, false)

/-- The exponent of a number. -/
def scanExponent (buf rest : List Char) :
    Except (String × List Char) (List Char × List Char × Bool) :=
  match rest with
  | [] => .ok (buf, rest, false)
  | e :: tail =>
    if e = 'e' ∨ e = 'E' then
      let sign := if tail.head? = some '+' ∨ tail.head? = some '-' then tail.take 1 else []
      match scanRun isNumber (buf ++ [e] ++ sign) (tail.drop sign.length) with
      | .done buf' rest =>
        if numberAt tail sign.length then .ok (buf', rest, true)
        else .error ("exponent has no digits", rest)
      | .misplaced rest _ => .error ("underscore in exponent must be between digits", rest)
    else .ok (buf, rest, false)

/-- A decimal number after its sign. -/
def classifyDecimal (sign rest : List Char) (start : LexState) : Lexed :=
  match scanRun isNumber sign rest with
  | .misplaced _ true => .ok (rewindToBare start)
  | .misplaced rest false => .ok (start.err "underscore in number must be between digits" rest)
  | .done buf rest =>
    match scanFraction buf rest with
    | .error (message, rest) => .ok (start.err message rest)
    | .ok (buf, rest, fraction) =>
      match scanExponent buf rest with
      | .error (message, rest) => .ok (start.err message rest)
      | .ok (buf, rest, exponent) =>
        if !buf.any isNumber then .ok (start.err "invalid number" rest)
        else if rest.head?.any isBareChar then .ok (rewindToBare start)
        else
          let text := stripUnderscores buf
          let st := start.advanceBy (start.rest.length - rest.length)
          if fraction || exponent then .ok (start.token (.float (.ofText text)), st)
          else
            match stringToInt64 text with
            | none => .error s!"failed to convert '{String.ofList text}' to number"
            | some value => .ok (start.token (.integer value), st)

/-- `inf` or `nan` after a sign. -/
def classifyNamed (name : String) (value : FloatValue) (sign : List Char) (start : LexState) :
    TomlTokenAt × LexState :=
  let st := start.advanceBy (sign.length + 3)
  if st.rest.head?.any isBareChar then rewindToBare start
  else if sign = [] then (start.token (.bare name.toList), st)
  else (start.token (.float value), st)

/-- The radix of a prefix. -/
def prefixRadix (c : Option Char) : Option ℕ :=
  if c = some 'x' then some 16 else if c = some 'o' then some 8 else if c = some 'b' then some 2
  else none

def classifyNumberOrDatetime (start : LexState) : Lexed :=
  if start.rest.head?.any isNumber && looksLikeDatetime start.rest then
    .ok (classifyDatetime false (fun s => s!"':' after date '{String.ofList s}' — expected 'T' " ++
      s!"or space before the time at {start.line}:{start.row}") start)
  else if start.rest.head?.any isNumber && looksLikeTime start.rest then
    .ok (classifyDatetime true (fun s =>
      s!"trailing ':' after time '{String.ofList s}' at {start.line}:{start.row}") start)
  else
    let sign := if start.rest.head? = some '+' ∨ start.rest.head? = some '-' then start.rest.take 1
      else []
    let rest := start.rest.drop sign.length
    if rest = [] then .ok (start.err "stray sign" rest)
    else if startsWithAt rest "inf" then
      .ok (classifyNamed "inf" (if sign = ['-'] then .negInf else .posInf) sign start)
    else if startsWithAt rest "nan" then .ok (classifyNamed "nan" .nan sign start)
    else
      match prefixRadix rest[1]? with
      | some radix =>
        if sign = [] ∧ rest.head? = some '0' then .ok (classifyPrefixed radix start)
        else classifyDecimal sign rest start
      | none => classifyDecimal sign rest start

/-! ## `next_token` -/

/-- `skip_comment_to_eol` -/
def skipComment (st : LexState) : LexState :=
  st.advanceBy (st.rest.takeWhile (· ≠ '\n')).length

/-- Inline whitespace and comments. -/
def skipBlanks : ℕ → LexState → LexState
  | 0, st => st
  | fuel + 1, st =>
    match st.rest.head? with
    | none => st
    | some c =>
      if c = ' ' ∨ c = '\t' ∨ c = '\r' then skipBlanks fuel st.advance
      else if c = '#' then skipBlanks fuel (skipComment st)
      else st

/-- What a sign is followed by, if it is of a value. -/
def isValueContinuation (rest : List Char) : Bool :=
  rest.head?.any isNumber || startsWithAt rest "inf" || startsWithAt rest "nan"

/-- A token of what is not blank. -/
def lexToken (readQuoted : Char → LexState → TomlTokenAt × LexState) (st : LexState) (c : Char) :
    Lexed :=
  if c = '\n' then .ok (st.token .newline, st.advance)
  else if c = '=' ∨ c = '[' ∨ c = ']' ∨ c = '\x7b' ∨ c = '\x7d' ∨ c = ',' ∨ c = '.' then
    .ok (st.token (.symbol c), st.advance)
  else if c = '"' ∨ c = '\'' then .ok (readQuoted c st)
  else if isNumber c || c == '+' || c == '-' || startsWithAt st.rest "inf" ||
      startsWithAt st.rest "nan" then
    if (c == '+' || c == '-') && !isValueContinuation st.rest.tail then
      if c == '-' && st.rest.tail.head?.any isBareChar then
        .ok (st.token (.bare (readBareKey st).1), (readBareKey st).2)
      else .ok (st.token (.error s!"stray sign '{c}' at {st.line}:{st.row}"), st.advance)
    else classifyNumberOrDatetime st
  else if isBareChar c then .ok (st.token (.bare (readBareKey st).1), (readBareKey st).2)
  else .ok (st.token (.error s!"unexpected character '{c}' at {st.line}:{st.row}"), st.advance)

/-- `next_token`; `readQuoted` are the strings, by their quotes. -/
def nextToken (readQuoted : Char → LexState → TomlTokenAt × LexState) (st : LexState) :
    Except String (Option TomlTokenAt × LexState) :=
  let st := skipBlanks (st.rest.length + 1) st
  match st.rest.head? with
  | none => .ok (none, st)
  | some c => (lexToken readQuoted st c).map fun (tk, st) => (some tk, st)

end DaScript.Toml
