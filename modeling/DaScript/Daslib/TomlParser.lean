import DaScript.Daslib.TomlLexer

/-!
# Daslib/TomlParser — keys and values of TOML

The token stream of `daslib/toml.das`, with one token of look-ahead, `parse_key_path` and
`parse_value`.  An error is what `error` is left with; a panic ends the program.
-/

namespace DaScript.Toml

/-- How `read_toml` stops. -/
inductive Failure
  | panic (message : String)
  | error (message : String)
  deriving DecidableEq

/-- A step of the parser. -/
abbrev Parsed (α : Type) : Type := Except Failure α

/-- `JsonValue?`, as it is made of TOML. -/
inductive JsonValue
  | object (entries : List (List Char × JsonValue))
  | array (items : List JsonValue)
  | string (text : List Char)
  | longint (value : BitVec 64)
  | number (value : FloatValue)
  | bool (value : Bool)

structure TomlTokenStream where
  state : LexState
  ahead : Option TomlTokenAt

section Parser

variable (readQuoted : Char → LexState → TomlTokenAt × LexState)

def peekTok (ts : TomlTokenStream) : Parsed (Option TomlTokenAt × TomlTokenStream) :=
  match ts.ahead with
  | some tk => .ok (some tk, ts)
  | none =>
    match nextToken readQuoted ts.state with
    | .error message => .error (.panic message)
    | .ok (tk, state) => .ok (tk, ⟨state, tk⟩)

/-- `take_tok`; `message` is for the end of input. -/
def takeTok (message : String) (ts : TomlTokenStream) : Parsed (TomlTokenAt × TomlTokenStream) := do
  let (tk, ts) ← peekTok readQuoted ts
  match tk with
  | none => .error (.error message)
  | some tk => .ok (tk, { ts with ahead := none })

/-- `"{value}"`, of an `int64`. -/
def printInt64 (value : BitVec 64) : List Char := (toString value.toInt).toList

def extractKeySegment (tk : TomlTokenAt) : Parsed (List Char) :=
  match tk.value with
  | .bare text | .string text | .datetime text => .ok text
  | .integer value => .ok (printInt64 value)
  | _ => .error (.error s!"expected key at {tk.line}:{tk.row}")

/-- The loop of `parse_key_path` over dots, of at most so many. -/
def parseSegments : ℕ → List (List Char) → TomlTokenStream →
    Parsed (List (List Char) × TomlTokenStream)
  | 0, out, ts => .ok (out, ts)
  | fuel + 1, out, ts => do
    let (tk, ts) ← peekTok readQuoted ts
    match tk.map TomlTokenAt.value with
    | some (.symbol '.') => do
      let (tk, ts) ← takeTok readQuoted "unexpected end of input after dot in key"
        { ts with ahead := none }
      let segment ← extractKeySegment tk
      parseSegments fuel (out ++ [segment]) ts
    | _ => .ok (out, ts)

/-- `parse_key_path`; every dot is read, so there are no more of them than there is input. -/
def parseKeyPath (ts : TomlTokenStream) : Parsed (List (List Char) × TomlTokenStream) := do
  let (tk, ts) ← takeTok readQuoted "unexpected end of input expecting key" ts
  let segment ← extractKeySegment tk
  parseSegments readQuoted (ts.state.rest.length + 1) [segment] ts

/-- `parse_value`, of its token; `parseInline` are inline arrays and tables, by their brackets. -/
def valueOfToken (parseInline : Char → TomlTokenStream → Parsed (JsonValue × TomlTokenStream))
    (tk : TomlTokenAt) (ts : TomlTokenStream) : Parsed (JsonValue × TomlTokenStream) :=
  match tk.value with
  | .string text => .ok (.string text, ts)
  | .integer value => .ok (.longint value, ts)
  | .float value => .ok (.number value, ts)
  | .datetime text => .ok (.string text, ts)
  | .bare name =>
    if name = "true".toList then .ok (.bool true, ts)
    else if name = "false".toList then .ok (.bool false, ts)
    else if name = "inf".toList then .ok (.number .posInf, ts)
    else if name = "nan".toList then .ok (.number .nan, ts)
    else .error (.error
      s!"unexpected identifier '{String.ofList name}' as value at {tk.line}:{tk.row}")
  | .symbol sym =>
    if sym = '[' ∨ sym = '\x7b' then parseInline sym ts
    else .error (.error s!"unexpected symbol '{sym}' as value at {tk.line}:{tk.row}")
  | .error message => .error (.error message)
  | .newline => .error (.error s!"unexpected token at {tk.line}:{tk.row}")

def parseValue (parseInline : Char → TomlTokenStream → Parsed (JsonValue × TomlTokenStream))
    (ts : TomlTokenStream) : Parsed (JsonValue × TomlTokenStream) := do
  let (tk, ts) ← takeTok readQuoted "unexpected end of input expecting value" ts
  valueOfToken parseInline tk ts

end Parser

end DaScript.Toml
