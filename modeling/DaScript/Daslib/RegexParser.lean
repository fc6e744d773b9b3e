import DaScript.Daslib.Regex

/-!
# Daslib/RegexParser — compiling a regular expression

`re_parse` and what it calls, and `regex_compile`, of `daslib/regex.das`.  The parser works on what
remains of the text, so that `at` is its first byte and `next` what is left of it.  Adjacent texts
are merged as they are met, and alternatives gathered in one union.

What `re_re` calls is given it as an argument.  Each round of its loop takes a byte at least, so
that the rounds are counted by the length of the text.
-/

namespace DaScript.Regex

open Text

/-! ## Sets -/

def setOrChar (cset : CharSet) (c : UInt8) : CharSet := cset ||| (1#256 <<< c.toNat)

/-- `set_or_range`: none if the range is the wrong way round. -/
def setOrRange (cset : CharSet) (lo hi : UInt8) : CharSet :=
  (List.range' lo.toNat (hi.toNat + 1 - lo.toNat)).foldl (fun cset c => cset ||| (1#256 <<< c)) cset

def setOrSet (cset eset : CharSet) : CharSet := cset ||| eset

def setNegative (cset : CharSet) : CharSet := ~~~cset

/-- `set_meta` of a letter in lower case. -/
def setClass (cset : CharSet) (che : UInt8) : CharSet :=
  if che = ch 'w' then
    setOrChar (setOrRange (setOrRange (setOrRange cset (ch 'a') (ch 'z')) (ch 'A') (ch 'Z'))
      (ch '0') (ch '9')) (ch '_')
  else if che = ch 's' then
    (text " \t\n\r\x0c\x0b").foldl setOrChar cset
  else setOrRange cset (ch '0') (ch '9')

def setMeta (cset : CharSet) (che : UInt8) : CharSet :=
  if che = ch 'w' ∨ che = ch 's' ∨ che = ch 'd' then setClass cset che
  else if che = ch 'W' then setOrSet cset (setNegative (setClass 0 (ch 'w')))
  else if che = ch 'S' then setOrSet cset (setNegative (setClass 0 (ch 's')))
  else if che = ch 'D' then setOrSet cset (setNegative (setClass 0 (ch 'd')))
  else if che = ch 'n' then setOrChar cset (ch '\n')
  else if che = ch 'r' then setOrChar cset (ch '\r')
  else if che = ch 't' then setOrChar cset (ch '\t')
  else if che = ch 'f' then setOrChar cset 0x0c
  else if che = ch 'v' then setOrChar cset 0x0b
  else setOrChar cset che

/-! ## Elementary expressions -/

/-- `meta` -/
def isMetaCharacter (c : UInt8) : Bool := (text "\\+*.()[]|^\x7b\x7d").contains c

/-- `meta_set` -/
def isSetCharacter (c : UInt8) : Bool := (text "wWsSdDnrtfvbB").contains c

def isHex (c : UInt8) : Bool :=
  isDigit c || (ch 'a' ≤ c && c ≤ ch 'f') || (ch 'A' ≤ c && c ≤ ch 'F')

def fromHex (c : UInt8) : UInt8 :=
  if isDigit c then c - ch '0' else if ch 'a' ≤ c then c - ch 'a' + 10 else c - ch 'A' + 10

/-- The one or two digits after `\\x`. -/
def readHex : List UInt8 → Option (UInt8 × List UInt8)
  | [] => none
  | hex1 :: rest =>
    if isHex hex1 then
      match rest with
      | [] => some (fromHex hex1, [])
      | hex2 :: rest' =>
        if isHex hex2 then some (fromHex hex1 * 16 + fromHex hex2, rest')
        else some (fromHex hex1, rest)
    else none

/-- What a parser returns: the tree and what is left of the text. -/
abbrev MaybeReNode := Option (ReNode × List UInt8)

/-- The backslash of `re_char`. -/
def reEscape : List UInt8 → MaybeReNode
  | [] => none
  | ech :: rest =>
    if ech = ch 'x' then (readHex rest).map fun p => (.char p.1 [], p.2)
    else if isSetCharacter ech then
      if ech = ch 'b' then some (.wordBoundary, rest)
      else if ech = ch 'B' then some (.nonWordBoundary, rest)
      else some (.set (setMeta 0 ech), rest)
    else some (.char ech [], rest)

def reChar : List UInt8 → MaybeReNode
  | [] => none
  | c :: rest =>
    if c = ch '\\' then reEscape rest
    else if isMetaCharacter c then none
    else some (.char c [], rest)

/-- A character of a set: the end of a range or a character of its own, which may be the start of a
range. -/
def setItem (cset : CharSet) (prevChar : Option UInt8) (nextRange : Bool) (nextChar : UInt8) :
    CharSet × Option UInt8 :=
  match prevChar, nextRange with
  | some lo, true => (setOrRange cset lo nextChar, none)
  | _, _ => (setOrChar cset nextChar, some nextChar)

/-- The loop of `re_set_items`. -/
def reSetItems : ℕ → CharSet → Option UInt8 → Bool → List UInt8 → Option (CharSet × List UInt8)
  | 0, _, _, _, _ => none
  | _ + 1, cset, _, _, [] => some (cset, [])
  | fuel + 1, cset, prevChar, nextRange, c :: rest =>
    if c = ch ']' then some (cset, c :: rest)
    else if c = ch '\\' then
      match rest with
      | [] => none
      | che :: rest =>
        if che = ch 'x' then
          match readHex rest with
          | none => none
          | some (nextChar, rest) =>
            reSetItems fuel (setItem cset prevChar nextRange nextChar).1
              (setItem cset prevChar nextRange nextChar).2 false rest
        else if nextRange then none
        else if isSetCharacter che then reSetItems fuel (setMeta cset che) prevChar false rest
        else
          reSetItems fuel (setItem cset prevChar false che).1 (setItem cset prevChar false che).2
            false rest
    else if c = ch '-' then
      if prevChar = none then none else reSetItems fuel cset prevChar true rest
    else
      reSetItems fuel (setItem cset prevChar nextRange c).1 (setItem cset prevChar nextRange c).2
        false rest

/-- What follows the opening bracket, with its sense. -/
def reSetBody (negative : Bool) (expr : List UInt8) : MaybeReNode :=
  if expr = [] then none
  else
    match reSetItems (expr.length + 1) 0 none false expr with
    | some (cset, c :: rest) =>
      if c = ch ']' then some (.set (if negative then setNegative cset else cset), rest) else none
    | _ => none

def reSet : List UInt8 → MaybeReNode
  | [] => none
  | c :: expr =>
    if c = ch '[' then
      if expr.head? = some (ch '^') then reSetBody true expr.tail else reSetBody false expr
    else none

/-- `re_any`, `re_eos` and `re_bos` -/
def reSymbol (symbol : Char) (node : ReNode) : List UInt8 → MaybeReNode
  | [] => none
  | c :: rest => if c = ch symbol then some (node, rest) else none

def reAny : List UInt8 → MaybeReNode := reSymbol '.' .any

def reEos : List UInt8 → MaybeReNode := reSymbol '$' .eos

def reBos : List UInt8 → MaybeReNode := reSymbol '^' .bos

/-- What `re_group` makes of an expression in parentheses. -/
inductive GroupOp
  | group (index : ℤ) (text : List UInt8)
  | lookahead
  | negativeLookahead

def GroupOp.node : GroupOp → ReNode → ReNode
  | .group index text, subexpr => .group index text subexpr
  | .lookahead, subexpr => .lookahead subexpr
  | .negativeLookahead, subexpr => .negativeLookahead subexpr

/-- What comes after the opening parenthesis. -/
def groupOp (expr : List UInt8) : Option (GroupOp × List UInt8) :=
  match (text "?:").isPrefixOf? expr with
  | some rest => some (.group (-1) [], rest)
  | none =>
    match (text "?=").isPrefixOf? expr with
    | some rest => some (.lookahead, rest)
    | none =>
      match (text "?!").isPrefixOf? expr with
      | some rest => some (.negativeLookahead, rest)
      | none =>
        match (text "?P<").isPrefixOf? expr with
        | some rest =>
          match rest.dropWhile (· ≠ ch '>') with
          | [] => none
          | _ :: rest' => some (.group 0 (rest.takeWhile (· ≠ ch '>')), rest')
        | none => some (.group 0 [], expr)

section

variable (reRe : List UInt8 → MaybeReNode)

def reGroup : List UInt8 → MaybeReNode
  | [] => none
  | c :: expr =>
    if c = ch '(' then
      match groupOp expr with
      | none => none
      | some (op, expr) =>
        match reRe expr with
        | some (ore, c :: rest) => if c = ch ')' then some (op.node ore, rest) else none
        | _ => none
    else none

def reElementary (expr : List UInt8) : MaybeReNode :=
  reGroup reRe expr <|> reAny expr <|> reEos expr <|> reBos expr <|> reSet expr <|> reChar expr

/-! ## Quantifiers -/

/-- The question mark of a lazy quantifier. -/
def takeLazy : List UInt8 → Bool × List UInt8
  | [] => (false, [])
  | c :: rest => if c = ch '?' then (true, rest) else (false, c :: rest)

/-- The digits of a count, as an `int`. -/
def readCount (count : ℤ) : List UInt8 → ℤ × List UInt8
  | [] => (count, [])
  | c :: rest =>
    if isDigit c then readCount (int32 (count * 10 + (c.toNat - 48))) rest else (count, c :: rest)

/-- The upper bound and the closing brace. -/
def readBrace (minVal maxVal : ℤ) : List UInt8 → Option (ℤ × ℤ × List UInt8)
  | [] => none
  | c :: rest => if c = ch '}' then some (minVal, maxVal, rest) else none

/-- What follows the opening brace: the bounds, and what is left. -/
def readBounds : List UInt8 → Option (ℤ × ℤ × List UInt8)
  | [] => none
  | c :: rest =>
    if isDigit c then
      match readCount 0 (c :: rest) with
      | (_, []) => none
      | (minVal, c :: rest) =>
        if c = ch ',' then
          if rest.head?.any isDigit then
            readBrace minVal (readCount 0 rest).1 (readCount 0 rest).2
          else readBrace minVal (-1) rest
        else readBrace minVal minVal (c :: rest)
    else none

/-- The nodes that take no quantifier. -/
def isLookahead : ReNode → Bool
  | .lookahead _ | .negativeLookahead _ => true
  | _ => false

/-- A quantifier of one byte, and the question mark after it. -/
def quantified (node : Bool → ReNode) (rest : List UInt8) : MaybeReNode :=
  some (node (takeLazy rest).1, (takeLazy rest).2)

/-- What follows an elementary expression in `re_basic`. -/
def reQuantifier (oelem : ReNode) : List UInt8 → MaybeReNode
  | [] => some (oelem, [])
  | c :: rest =>
    if (text "*+?\x7b").contains c && isLookahead oelem then none
    else if c = ch '*' then quantified (.star · oelem) rest
    else if c = ch '+' then quantified (.plus · oelem) rest
    else if c = ch '?' then quantified (.question · oelem) rest
    else if c = ch '{' then
      match readBounds rest with
      | none => none
      | some (minVal, maxVal, rest) => quantified (.repeated minVal maxVal · oelem) rest
    else some (oelem, c :: rest)

def reBasic (expr : List UInt8) : MaybeReNode :=
  match reElementary reRe expr with
  | none => none
  | some (oelem, rest) => reQuantifier oelem rest

end

/-! ## Concatenation and alternatives -/

/-- `mk_concat`, `none` for null -/
def mkConcat : Option ReNode → ReNode → ReNode
  | none, right => right
  | some (.char first others), .char first' others' => .char first (others ++ first' :: others')
  | some (.concat z (.char first others)), .char first' others' =>
    .concat z (.char first (others ++ first' :: others'))
  | some left, right => .concat left right

def mkUnion : ReNode → ReNode → ReNode
  | .union all, .union all' => .union (all ++ all')
  | .union all, right => .union (all ++ [right])
  | left, .union all => .union (all ++ [left])
  | left, right => .union [left, right]

/-- The loop of `re_re`, with what it has put together. -/
def reReLoop : ℕ → Option ReNode → List UInt8 → MaybeReNode
  | 0, _, _ => none
  | _ + 1, last, [] => last.map (·, [])
  | fuel + 1, last, c :: rest =>
    if c = ch '|' then
      match last with
      | none => none
      | some left =>
        match reReLoop fuel none rest with
        | none => none
        | some (right, rest) => reReLoop fuel (some (mkUnion left right)) rest
    else
      match reBasic (reReLoop fuel none) (c :: rest) with
      | none => last.map (·, c :: rest)
      | some (right, rest) => reReLoop fuel (some (mkConcat last right)) rest

def reParse (expr : List UInt8) : Option ReNode :=
  match reReLoop (expr.length + 1) none expr with
  | some (node, []) => some node
  | _ => none

/-! ## Compiling -/

/-- The other case of a letter in lower case. -/
def upper (lo : UInt8) : UInt8 := if ch 'a' ≤ lo ∧ lo ≤ ch 'z' then lo - 32 else lo

def caseFoldSet (cset : CharSet) : CharSet :=
  (List.range 256).foldl (fun cset c =>
    if isCharInSet c.toUInt8 cset then
      setOrChar (setOrChar cset (ciLower c.toUInt8)) (upper (ciLower c.toUInt8))
    else cset) cset

mutual

/-- What `re_assign_match_functions` does to the sets if `caseInsensitive`. -/
def foldCase : ReNode → ReNode
  | .set cset => .set (caseFoldSet cset)
  | .group index text subexpr => .group index text (foldCase subexpr)
  | .plus lazy subexpr => .plus lazy (foldCase subexpr)
  | .star lazy subexpr => .star lazy (foldCase subexpr)
  | .question lazy subexpr => .question lazy (foldCase subexpr)
  | .concat left right => .concat (foldCase left) (foldCase right)
  | .union all => .union (foldCases all)
  | .repeated minRep maxRep lazy subexpr => .repeated minRep maxRep lazy (foldCase subexpr)
  | .lookahead subexpr => .lookahead (foldCase subexpr)
  | .negativeLookahead subexpr => .negativeLookahead (foldCase subexpr)
  | .char first others => .char first others
  | .any => .any
  | .eos => .eos
  | .bos => .bos
  | .wordBoundary => .wordBoundary
  | .nonWordBoundary => .nonWordBoundary

def foldCases : List ReNode → List ReNode
  | [] => []
  | node :: nodes => foldCase node :: foldCases nodes

end

/-- The first byte of a text, and the same letter in the other case. -/
def earlyOutChar (cset : CharSet) (fc : UInt8) : CharSet :=
  if ch 'A' ≤ fc ∧ fc ≤ ch 'Z' then setOrChar (setOrChar cset fc) (fc + 32)
  else if ch 'a' ≤ fc ∧ fc ≤ ch 'z' then setOrChar (setOrChar cset fc) (fc - 32)
  else setOrChar cset fc

mutual

/-- `re_early_out`: the set, and whether the node can match the empty text. -/
def reEarlyOut : ReNode → CharSet → CharSet × Bool
  | .char first _, cset => (earlyOutChar cset first, false)
  | .set eset, cset => (setOrSet cset eset, false)
  | .any, _ => (BitVec.allOnes 256, false)
  | .eos, cset => (cset, false)
  | .group _ _ subexpr, cset => reEarlyOut subexpr cset
  | .plus _ subexpr, cset => reEarlyOut subexpr cset
  | .star _ subexpr, cset => ((reEarlyOut subexpr cset).1, true)
  | .question _ subexpr, cset => ((reEarlyOut subexpr cset).1, true)
  | .concat left right, cset =>
    if (reEarlyOut left cset).2 then reEarlyOut right (reEarlyOut left cset).1
    else ((reEarlyOut left cset).1, false)
  | .union all, cset => reEarlyOuts all cset
  | .bos, cset => (cset, true)
  | .wordBoundary, cset => (cset, true)
  | .nonWordBoundary, cset => (cset, true)
  | .lookahead _, cset => (cset, true)
  | .negativeLookahead _, cset => (cset, true)
  | .repeated minRep _ _ subexpr, cset => ((reEarlyOut subexpr cset).1, minRep = 0)

/-- The loop over the alternatives. -/
def reEarlyOuts : List ReNode → CharSet → CharSet × Bool
  | [], cset => (cset, false)
  | node :: nodes, cset =>
    ((reEarlyOuts nodes (reEarlyOut node cset).1).1,
      (reEarlyOut node cset).2 || (reEarlyOuts nodes (reEarlyOut node cset).1).2)

end

/-- What `regex_compile` makes of a tree. -/
def compiled (caseInsensitive dotAll : Bool) (node : ReNode) : Regex :=
  let root := if caseInsensitive then foldCase node else node
  let earlyOut := (reEarlyOut root 0).1
  ⟨root, earlyOut, earlyOut ≠ 0, caseInsensitive, dotAll⟩

/-- `regex_compile`, `none` if the text is refused. -/
def regexCompile (expr : List UInt8) (caseInsensitive dotAll : Bool) : Option Regex :=
  (reParse expr).map (compiled caseInsensitive dotAll)

end DaScript.Regex
