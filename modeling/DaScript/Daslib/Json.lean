import DaScript.Foundations.Machine
import DaScript.Daslib.JsonLexer

/-!
# Daslib/Json — reading and writing JSON values

`JsonValue`, `parse_value`, `read_json`, `write_value` and `write_json` of `daslib/json.das`.  The
parser asks the lexer for a token at a time and reports by `error`, which is empty when all is well.
It learns that an array is empty from the error of its first element.

How deep the parser calls itself is counted.
-/

namespace DaScript.Json

open Text

/-- `JsonValue`, objects as lists of their pairs. -/
inductive Value (R : Reals)
  | object (pairs : List (List UInt8 × Value R))
  | array (elements : List (Value R))
  | string (s : List UInt8)
  | number (d : R.carrier)
  | longint (i : Int64)
  | bool (b : Bool)
  | null

/-- `insert` of a table: over the value of a key that is there. -/
def insertPair {V : Type} (key : List UInt8) (value : V) :
    List (List UInt8 × V) → List (List UInt8 × V)
  | [] => [(key, value)]
  | p :: pairs => if p.1 = key then (key, value) :: pairs else p :: insertPair key value pairs

variable {R : Reals}

/-! ## Error texts -/

/-- A token in a text. -/
def Token.print : Token R → List UInt8
  | .string s => s
  | .number d => R.print d
  | .longint i => decimalInt i.toInt
  | .bool b => if b then text "true" else text "false"
  | .null => text "null"
  | .symbol c => decimal c.toNat
  | .error e => e.print

/-- `{ahead.line}:{ahead.row}` -/
def TokenAt.place (t : TokenAt R) : List UInt8 := decimal t.line ++ text ":" ++ decimal t.row

/-- The text of `expect_token` and `expect_symbol`. -/
def unexectedEos : List UInt8 := text "unexected eos"

/-- The text past the loops of `parse_value`. -/
def unexpectedEos : List UInt8 := text "unexpected eos"

def unexpectedBracket (t : TokenAt R) : List UInt8 := text "unexpected ] at " ++ t.place

def unexpectedVariant (t : TokenAt R) (vindex : ℕ) : List UInt8 :=
  text "unexpected " ++ t.value.print ++ text ", expecting variant " ++ decimal vindex ++
    text " at " ++ t.place

def unexpectedNoSymbol (t : TokenAt R) : List UInt8 :=
  text "unexpected " ++ t.value.print ++ text ", expecting symbol at " ++ t.place

def unexpectedOtherSymbol (t : TokenAt R) (sym : UInt8) : List UInt8 :=
  text "unexpected " ++ t.value.print ++ text ", expecting symbol `" ++ [sym] ++
    text "` aka ASCII " ++ decimal sym.toNat ++ text " at " ++ t.place

/-- A symbol no value, or no separator of an array or an object. -/
def unexpectedSymbol (what : String) (t : TokenAt R) (sym : UInt8) : List UInt8 :=
  text "unexpected " ++ text what ++ text "symbol `" ++ [sym] ++ text "` aka ASCII " ++
    decimal sym.toNat ++ text " at " ++ t.place

def duplicateKey (key : List UInt8) (t : TokenAt R) : List UInt8 :=
  text "duplicate key " ++ key ++ text " at " ++ t.place

def errorToken (t : TokenAt R) : List UInt8 := t.value.print ++ text " at " ++ t.place

/-! ## The parser -/

/-- `itv`, `none` once it is closed, and `error`. -/
structure Parser (R : Reals) where
  itv : Option (List (Lexed R))
  error : List UInt8

/-- The message of the conversion from text to number. -/
def conversionFailed (num : List UInt8) : String :=
  "failed to convert '" ++ String.ofList (num.map fun c => Char.ofNat c.toNat) ++ "' to number"

/-- `next(itv, ahead)` -/
def Parser.next (s : Parser R) : Outcome (Parser R) (Option (TokenAt R)) :=
  match s.itv with
  | none => .ok none s
  | some [] => .ok none { s with itv := none }
  | some (.thrown num :: _) => .error (.throw (conversionFailed num)) s
  | some (.token t :: ts) => .ok (some t) { s with itv := some ts }

/-- `error = …; return null` -/
def Parser.fail {α : Type} (s : Parser R) (error : List UInt8) : Outcome (Parser R) (Option α) :=
  .ok none { s with error := error }

/-- `expect_token(itv, ahead, Token_symbol, error)`: the symbol and its token. -/
def expectSymbolToken (s : Parser R) : Outcome (Parser R) (Option (UInt8 × TokenAt R)) :=
  s.next.bind fun ahead s =>
    match ahead with
    | none => s.fail unexectedEos
    | some t =>
      match t.value with
      | .symbol c => .ok (some (c, t)) s
      | _ => s.fail (unexpectedVariant t 5)

/-- `expect_symbol(itv, ahead, ':', error)`: the token. -/
def expectColon (s : Parser R) : Outcome (Parser R) (Option (TokenAt R)) :=
  s.next.bind fun ahead s =>
    match ahead with
    | none => s.fail unexectedEos
    | some t =>
      match t.value with
      | .symbol c =>
        if c = ch ':' then .ok (some t) s else s.fail (unexpectedOtherSymbol t (ch ':'))
      | _ => s.fail (unexpectedNoSymbol t)

/-- What `expect_token(itv, ahead, Token_string, error)` finds where a key is due. -/
inductive KeyRead
  | key (k : List UInt8)
  /-- a closing brace, after `error` is set -/
  | brace
  | fail

def expectKey (s : Parser R) : Outcome (Parser R) KeyRead :=
  s.next.bind fun ahead s =>
    match ahead with
    | none => .ok .fail { s with error := unexectedEos }
    | some t =>
      match t.value with
      | .string k => .ok (.key k) s
      | .symbol c =>
        .ok (if c = ch '}' then .brace else .fail) { s with error := unexpectedVariant t 0 }
      | _ => .ok .fail { s with error := unexpectedVariant t 0 }

/-- A value, unless the iterator is closed. -/
def Parser.finish (s : Parser R) (v : Value R) : Outcome (Parser R) (Option (Value R)) :=
  if s.itv.isNone then s.fail unexpectedEos else .ok (some v) s

/-- The separator after an element of an array or a pair of an object: `close` ends it with the
value `v`, a comma goes on. -/
def separator (close : UInt8) (what : String) (v : Value R)
    (more : Parser R → Outcome (Parser R) (Option (Value R))) (s : Parser R) :
    Outcome (Parser R) (Option (Value R)) :=
  (expectSymbolToken s).bind fun ahead s =>
    match ahead with
    | none => .ok none s
    | some (sepsym, t) =>
      if sepsym = close then s.finish v
      else if sepsym = ch ',' then more s
      else s.fail (unexpectedSymbol what t sepsym)

/-- What `parse_value` makes of an array element that is `null`. -/
def elementFailed (arr : List (Value R)) (s : Parser R) :
    Outcome (Parser R) (Option (Value R)) :=
  if (text "unexpected ]").isPrefixOf s.error && arr.isEmpty then
    .ok (some (.array arr)) { s with error := [] }
  else .ok none s

mutual

/-- `parse_value`, `null` being no value, at most so many calls deep. -/
def parseValue (allowDuplicateKeys : Bool) :
    ℕ → Parser R → Outcome (Parser R) (Option (Value R))
  | 0, s => .error (.hang "parse_value") s
  | fuel + 1, s => s.next.bind fun ahead s =>
    match ahead with
    | none => .ok none s
    | some t =>
      match t.value with
      | .symbol sym =>
        if sym = ch ']' then s.fail (unexpectedBracket t)
        else if sym = ch '[' then parseElements allowDuplicateKeys fuel [] s
        else if sym = ch '{' then parsePairs allowDuplicateKeys fuel [] s
        else s.fail (unexpectedSymbol "" t sym)
      | .string v => .ok (some (.string v)) s
      | .number v => .ok (some (.number v)) s
      | .longint v => .ok (some (.longint v)) s
      | .bool v => .ok (some (.bool v)) s
      | .null => .ok (some .null) s
      | .error _ => s.fail (errorToken t)

/-- The loop over the elements of an array, `arr` being those so far. -/
def parseElements (allowDuplicateKeys : Bool) :
    ℕ → List (Value R) → Parser R → Outcome (Parser R) (Option (Value R))
  | 0, _, s => .error (.hang "parse_value") s
  | fuel + 1, arr, s =>
    if s.itv.isNone then s.fail unexpectedEos
    else (parseValue allowDuplicateKeys fuel s).bind fun value s =>
      match value with
      | none => elementFailed arr s
      | some value => separator (ch ']') "array separator " (.array (arr ++ [value]))
          (fun s => parseElements allowDuplicateKeys fuel (arr ++ [value]) s) s

/-- The loop over the pairs of an object, `tab` being those so far. -/
def parsePairs (allowDuplicateKeys : Bool) :
    ℕ → List (List UInt8 × Value R) → Parser R → Outcome (Parser R) (Option (Value R))
  | 0, _, s => .error (.hang "parse_value") s
  | fuel + 1, tab, s =>
    if s.itv.isNone then s.fail unexpectedEos
    else (expectKey s).bind fun ahead s =>
      match ahead with
      | .fail => .ok none s
      | .brace =>
        if tab.isEmpty then .ok (some (.object tab)) { s with error := [] } else .ok none s
      | .key key => (expectColon s).bind fun colon s =>
        match colon with
        | none => .ok none s
        | some colon => (parseValue allowDuplicateKeys fuel s).bind fun value s =>
          match value with
          | none => .ok none s
          | some value =>
            if !allowDuplicateKeys && (tab.map Prod.fst).contains key then
              s.fail (duplicateKey key colon)
            else separator (ch '}') "object separator " (.object (insertPair key value tab))
              (fun s => parsePairs allowDuplicateKeys fuel (insertPair key value tab) s) s

end

/-- `parse_value` on the tokens of a lexer: two calls in itself for a token at most, and one for the
end. -/
def readTokens (allowDuplicateKeys : Bool) (ts : List (Lexed R)) :
    Outcome (Parser R) (Option (Value R)) :=
  parseValue allowDuplicateKeys (2 * ts.length + 1) ⟨some ts, []⟩

/-- `read_json`: the value, `null` being none, and `error` in the state. -/
def readJson (allowDuplicateKeys : Bool) (str : List UInt8) :
    Outcome (Parser R) (Option (Value R)) := readTokens allowDuplicateKeys (lexer R str)

/-! ## The writer -/

/-- `escapeString`, with no escapes for braces. -/
def escapeChar (c : UInt8) : List UInt8 :=
  if c = ch '"' then text "\\\""
  else if c = ch '\\' then text "\\\\"
  else if c = 8 then text "\\b"
  else if c = 11 then text "\\v"
  else if c = 12 then text "\\f"
  else if c = ch '\n' then text "\\n"
  else if c = ch '\r' then text "\\r"
  else if c = ch '\t' then text "\\t"
  else if c ≤ 0x1f then
    text "\\u00" ++ [ch (Nat.digitChar (c.toNat / 16)), ch (Nat.digitChar (c.toNat % 16))]
  else [c]

/-- `write_escape_string` between quotes. -/
def writeString (s : List UInt8) : List UInt8 := ch '"' :: s.flatMap escapeChar ++ [ch '"']

/-- A new line, and so many tabs. -/
def newLine (depth : ℕ) : List UInt8 := ch '\n' :: List.replicate depth (ch '\t')

mutual

/-- `write_value` by the default settings, of a tree with no null pointer. -/
def writeValue : Value R → ℕ → List UInt8
  | .string s, _ => writeString s
  | .number d, _ => R.print d
  | .longint i, _ => decimalInt i.toInt
  | .array [], _ => text "[]"
  | .array (v :: vs), depth =>
    ch '[' :: newLine (depth + 1) ++ writeValue v (depth + 1) ++ writeElements vs (depth + 1) ++
      newLine depth ++ [ch ']']
  | .object [], _ => text "{}"
  | .object (p :: ps), depth =>
    ch '{' :: newLine (depth + 1) ++ writeString p.1 ++ text " : " ++ writeValue p.2 (depth + 1) ++
      writePairs ps (depth + 1) ++ newLine depth ++ [ch '}']
  | .bool b, _ => if b then text "true" else text "false"
  | .null, _ => text "null"

/-- The elements of an array after the first. -/
def writeElements : List (Value R) → ℕ → List UInt8
  | [], _ => []
  | v :: vs, depth => ch ',' :: newLine depth ++ writeValue v depth ++ writeElements vs depth

/-- The pairs of an object after the first. -/
def writePairs : List (List UInt8 × Value R) → ℕ → List UInt8
  | [], _ => []
  | p :: ps, depth =>
    ch ',' :: newLine depth ++ writeString p.1 ++ text " : " ++ writeValue p.2 depth ++
      writePairs ps depth

end

def writeJson (v : Value R) : List UInt8 := writeValue v 0

end DaScript.Json
