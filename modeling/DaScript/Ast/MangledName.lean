import DaScript.Simulate.TypeInfo
import Mathlib.Data.List.TakeWhile

/-!
# Ast/MangledName — types spelled in full, and read again

`TypeDecl::getMangledName` and `MangledNameParser` of `ast_typedecl.cpp`.  A type is spelled from
the outside in; what has brackets is read first and put into what follows it.  A fixed array is
spelled in line.

A library finds what has a name: `Directory.resolves` is a library in which every name is one
object's.
-/

namespace DaScript.MangledName

/-- What `parseAnyName` takes. -/
def isNameChar (allowModule : Bool) (c : Char) : Bool :=
  c.isAlphanum || c == '_' || c == Char.ofNat 96 || (allowModule && (c == ':' || c == '$'))

/-- An identifier. -/
structure Name where
  chars : List Char
  valid : ∀ c ∈ chars, isNameChar false c = true

@[ext] theorem Name.ext {x y : Name} (h : x.chars = y.chars) : x = y := by
  cases x
  cases y
  obtain rfl := h
  rfl

/-- No name. -/
def Name.empty : Name := ⟨[], fun _ hc => absurd hc List.not_mem_nil⟩

/-- **What is found by its name**, that of its module before it: each object, and no other. -/
structure Directory (A : Type) where
  name : A → List Char
  valid : ∀ a, ∀ c ∈ name a, isNameChar true c = true
  find : List Char → List A
  resolves : ∀ a, find (name a) = [a]

/-- `ModuleLibrary`: handled types, structures and enumerations. -/
structure Library (A S E : Type) where
  annotations : Directory A
  structures : Directory S
  enumerations : Directory E

/-- The types that are a symbol. -/
inductive Plain
  | anyArgument | fakeContext | fakeLineInfo | autoinfer | option | typeDecl | tAlias
  | tIterator | tArray | tTable | tBlock | tFunction | tLambda | tTuple | tVariant
  | tBitfield | tBitfield8 | tBitfield16 | tBitfield64
  | tInt | tInt2 | tInt3 | tInt4 | tInt8 | tInt16 | tInt64
  | tUInt | tUInt2 | tUInt3 | tUInt4 | tUInt8 | tUInt16 | tUInt64
  | tFloat | tFloat2 | tFloat3 | tFloat4
  | tRange | tURange | tRange64 | tURange64 | tDouble | tString | tVoid | tBool
  deriving DecidableEq

/-- The symbol of a type. -/
def Plain.text : Plain → List Char
  | anyArgument => ['*']
  | fakeContext => ['_', 'c']
  | fakeLineInfo => ['_', 'l']
  | autoinfer => ['.']
  | option => ['|']
  | typeDecl => ['D']
  | tAlias => ['L']
  | tIterator => ['G']
  | tArray => ['A']
  | tTable => ['T']
  | tBlock => ['$']
  | tFunction => ['@', '@']
  | tLambda => ['@']
  | tTuple => ['U']
  | tVariant => ['V']
  | tBitfield => ['t']
  | tBitfield8 => ['t', '8']
  | tBitfield16 => ['t', '1', '6']
  | tBitfield64 => ['t', '6', '4']
  | tInt => ['i']
  | tInt2 => ['i', '2']
  | tInt3 => ['i', '3']
  | tInt4 => ['i', '4']
  | tInt8 => ['i', '8']
  | tInt16 => ['i', '1', '6']
  | tInt64 => ['i', '6', '4']
  | tUInt => ['u']
  | tUInt2 => ['u', '2']
  | tUInt3 => ['u', '3']
  | tUInt4 => ['u', '4']
  | tUInt8 => ['u', '8']
  | tUInt16 => ['u', '1', '6']
  | tUInt64 => ['u', '6', '4']
  | tFloat => ['f']
  | tFloat2 => ['f', '2']
  | tFloat3 => ['f', '3']
  | tFloat4 => ['f', '4']
  | tRange => ['r']
  | tURange => ['z']
  | tRange64 => ['r', '6', '4']
  | tURange64 => ['z', '6', '4']
  | tDouble => ['d']
  | tString => ['s']
  | tVoid => ['v']
  | tBool => ['b']

/-- `smartPtr` and `smartPtrNative` -/
inductive Smart
  | raw | smart | native
  deriving DecidableEq

/-- What a type is by its `baseType`. -/
inductive Base (A S E : Type)
  | plain (type : Plain)
  | pointer (smartPtr : Smart)
  | handle (ann : A)
  | «structure» (structType : S)
  | enumeration (width : EnumWidth) (enumType : Option E)

/-- The flags before a type. -/
structure Flags where
  constant : Bool := false
  ref : Bool := false
  temporary : Bool := false
  implicit : Bool := false
  explicitConst : Bool := false
  explicitRef : Bool := false
  isExplicit : Bool := false
  aotAlias : Bool := false
  deriving DecidableEq

/-- The flags that take a qualifier away. -/
structure Removes where
  removeDim : Bool := false
  removeConstant : Bool := false
  removeRef : Bool := false
  removeTemporary : Bool := false
  deriving DecidableEq

mutual

inductive TypeDecl (A S E : Type)
  | node (flags : Flags) (removes : Removes) (aname : Name) (argNames : List Name)
      (argTypes : TypeDecls A S E) (firstType secondType : MaybeType A S E) (base : Base A S E)
  | fixedArray (flags : Flags) (removes : Removes) (fixedDim : ℤ) (aname : Name)
      (firstType : TypeDecl A S E)

/-- `argTypes` -/
inductive TypeDecls (A S E : Type)
  | nil
  | cons (type : TypeDecl A S E) (rest : TypeDecls A S E)

/-- `firstType` or `secondType`, which may be null. -/
inductive MaybeType (A S E : Type)
  | null
  | type (type : TypeDecl A S E)

end

variable {A S E : Type}

/-! ## `getMangledName` -/

/-- `if ( b ) ss << …` -/
def when (b : Bool) (text : List Char) : List Char := if b then text else []

def Flags.text (f : Flags) : List Char :=
  when f.constant ['C'] ++ (when f.ref ['&'] ++ (when f.temporary ['#'] ++ (when f.implicit ['I'] ++
    (when f.explicitConst ['='] ++ (when f.explicitRef ['R'] ++ (when f.isExplicit ['X'] ++
      when f.aotAlias ['F']))))))

def Removes.text (r : Removes) : List Char :=
  when r.removeDim ['-', '[', ']'] ++ (when r.removeConstant ['-', 'C'] ++
    (when r.removeRef ['-', '&'] ++ when r.removeTemporary ['-', '#']))

/-- `Y<alias>` -/
def aliasText (aname : Name) : List Char :=
  if aname.chars = [] then [] else 'Y' :: '<' :: (aname.chars ++ ['>'])

/-- `<a`, `;b`, …: the first after the bracket, each other after a semicolon. -/
def namesText : Char → List Name → List Char
  | _, [] => []
  | sep, name :: rest => sep :: (name.chars ++ namesText ';' rest)

/-- `N<a;b>` -/
def argNamesText (argNames : List Name) : List Char :=
  if argNames = [] then [] else 'N' :: (namesText '<' argNames ++ ['>'])

/-- `fixedDim`, in decimal. -/
def dimText (fixedDim : ℤ) : List Char :=
  if fixedDim < 0 then '-' :: Nat.toDigits 10 fixedDim.natAbs else Nat.toDigits 10 fixedDim.natAbs

def widthText : EnumWidth → List Char
  | .tEnumeration => []
  | .tEnumeration8 => ['8']
  | .tEnumeration16 => ['1', '6']
  | .tEnumeration64 => ['6', '4']

def Smart.text : Smart → List Char
  | raw => []
  | smart => ['M']
  | native => ['W']

def Base.text (lib : Library A S E) : Base A S E → List Char
  | .plain type => type.text
  | .pointer smartPtr => '?' :: smartPtr.text
  | .handle ann => 'H' :: '<' :: (lib.annotations.name ann ++ ['>'])
  | .structure structType => 'S' :: '<' :: (lib.structures.name structType ++ ['>'])
  | .enumeration width none => 'E' :: widthText width
  | .enumeration width (some enumType) =>
    'E' :: (widthText width ++ '<' :: (lib.enumerations.name enumType ++ ['>']))

mutual

/-- **`getMangledName`**, with `fullName`. -/
def TypeDecl.text (lib : Library A S E) : TypeDecl A S E → List Char
  | .node flags removes aname argNames argTypes firstType secondType base =>
    flags.text ++ (removes.text ++ (aliasText aname ++ (argNamesText argNames ++
      (argTypes.argsText lib ++ (firstType.text lib '1' ++ (secondType.text lib '2' ++
        base.text lib))))))
  | .fixedArray flags removes fixedDim aname firstType =>
    flags.text ++ '[' :: (dimText fixedDim ++ ']' :: (removes.text ++ (aliasText aname ++
      firstType.text lib)))

/-- `0<…>`, if there are any. -/
def TypeDecls.argsText (lib : Library A S E) : TypeDecls A S E → List Char
  | .nil => []
  | .cons type rest => '0' :: '<' :: (type.text lib ++ (rest.text lib ++ ['>']))

/-- Each after a semicolon. -/
def TypeDecls.text (lib : Library A S E) : TypeDecls A S E → List Char
  | .nil => []
  | .cons type rest => ';' :: (type.text lib ++ rest.text lib)

/-- `1<…>` or `2<…>`, if it is not null. -/
def MaybeType.text (lib : Library A S E) (c : Char) : MaybeType A S E → List Char
  | .null => []
  | .type type => c :: '<' :: (type.text lib ++ ['>'])

end

/-! ## `MangledNameParser` -/

/-- `new TypeDecl(type)` -/
def TypeDecl.ofBase (base : Base A S E) : TypeDecl A S E :=
  .node {} {} .empty [] .nil .null .null base

namespace TypeDecl

def mapFlags (put : Flags → Flags) : TypeDecl A S E → TypeDecl A S E
  | .node f r a n ts t u b => .node (put f) r a n ts t u b
  | .fixedArray f r d a t => .fixedArray (put f) r d a t

def mapRemoves (put : Removes → Removes) : TypeDecl A S E → TypeDecl A S E
  | .node f r a n ts t u b => .node f (put r) a n ts t u b
  | .fixedArray f r d a t => .fixedArray f (put r) d a t

def setAlias (aname : Name) : TypeDecl A S E → TypeDecl A S E
  | .node f r _ n ts t u b => .node f r aname n ts t u b
  | .fixedArray f r d _ t => .fixedArray f r d aname t

/-- Of a type that is not a fixed array, which has no arguments. -/
def setArgNames (argNames : List Name) : TypeDecl A S E → TypeDecl A S E
  | .node f r a _ ts t u b => .node f r a argNames ts t u b
  | t => t

def setArgTypes (argTypes : TypeDecls A S E) : TypeDecl A S E → TypeDecl A S E
  | .node f r a n _ t u b => .node f r a n argTypes t u b
  | t => t

def setFirstType (type : TypeDecl A S E) : TypeDecl A S E → TypeDecl A S E
  | .node f r a n ts _ u b => .node f r a n ts (.type type) u b
  | .fixedArray f r d a _ => .fixedArray f r d a type

def setSecondType (type : TypeDecl A S E) : TypeDecl A S E → TypeDecl A S E
  | .node f r a n ts t _ b => .node f r a n ts t (.type type) b
  | t => t

end TypeDecl

def parseAnyName (allowModule : Bool) (text : List Char) : List Char × List Char :=
  (text.takeWhile (isNameChar allowModule), text.dropWhile (isNameChar allowModule))

def parseAnyNameInBrackets (allowModule : Bool) : List Char → Option (List Char × List Char)
  | '<' :: text =>
    match parseAnyName allowModule text with
    | (name, '>' :: rest) => some (name, rest)
    | _ => none
  | _ => none

/-- A name without a module. -/
def parseName (text : List Char) : Name × List Char :=
  (⟨text.takeWhile (isNameChar false), fun _ hc => List.mem_takeWhile_imp hc⟩,
    text.dropWhile (isNameChar false))

/-- The same, in brackets. -/
def parseNameInBrackets : List Char → Option (Name × List Char)
  | '<' :: text =>
    match parseName text with
    | (name, '>' :: rest) => some (name, rest)
    | _ => none
  | _ => none

/-- The symbols of flags. -/
def flagOf : Char → Option (Flags → Flags)
  | 'C' => some fun f => { f with constant := true }
  | '&' => some fun f => { f with ref := true }
  | '#' => some fun f => { f with temporary := true }
  | 'I' => some fun f => { f with implicit := true }
  | '=' => some fun f => { f with explicitConst := true }
  | 'R' => some fun f => { f with explicitRef := true }
  | 'X' => some fun f => { f with isExplicit := true }
  | 'F' => some fun f => { f with aotAlias := true }
  | _ => none

/-- What follows `-`, or nothing: what is set, what is cleared, and the text behind. -/
def removeOf : List Char → Option ((Removes → Removes) × (Flags → Flags) × List Char)
  | '[' :: ']' :: rest => some (fun r => { r with removeDim := true }, id, rest)
  | 'C' :: rest =>
    some (fun r => { r with removeConstant := true }, fun f => { f with constant := false }, rest)
  | '&' :: rest =>
    some (fun r => { r with removeRef := true }, fun f => { f with ref := false }, rest)
  | '#' :: rest =>
    some (fun r => { r with removeTemporary := true }, fun f => { f with temporary := false }, rest)
  | _ => none

/-- "fullName remove-suffixes emitted right after this node's [d] land back on it" -/
def takeRemoves : List Char → Removes → Removes × List Char
  | '-' :: '[' :: ']' :: rest, r => takeRemoves rest { r with removeDim := true }
  | '-' :: 'C' :: rest, r => takeRemoves rest { r with removeConstant := true }
  | '-' :: '&' :: rest, r => takeRemoves rest { r with removeRef := true }
  | '-' :: '#' :: rest, r => takeRemoves rest { r with removeTemporary := true }
  | text, r => (r, text)

/-- "Y<name> immediately following [d] labels THIS node" -/
def takeAlias : List Char → Option (Name × List Char)
  | 'Y' :: rest => parseNameInBrackets rest
  | text => some (.empty, text)

/-- The digits of a dimension, and the bracket behind them. -/
def parseDigits (neg : Bool) (text : List Char) : Option (ℤ × List Char) :=
  match text.dropWhile Char.isDigit with
  | ']' :: rest =>
    let di : ℤ := Nat.ofDigitChars 10 (text.takeWhile Char.isDigit) 0
    some (if neg then -di else di, rest)
  | _ => none

/-- What follows `[`. -/
def parseDim : List Char → Option (ℤ × List Char)
  | '-' :: text => parseDigits true text
  | text => parseDigits false text

/-- The loop of `N`: a separator, and a name. -/
def parseNames : ℕ → List Char → Option (List Name × List Char)
  | 0, _ => none
  | _ + 1, [] => none
  | _ + 1, '>' :: rest => some ([], rest)
  | n + 1, _ :: text => do
    let (names, rest) ← parseNames n (parseName text).2
    some ((parseName text).1 :: names, rest)

/-- What follows `E`: a width. -/
def parseWidth : List Char → EnumWidth × List Char
  | '8' :: rest => (.tEnumeration8, rest)
  | '1' :: '6' :: rest => (.tEnumeration16, rest)
  | '6' :: '4' :: rest => (.tEnumeration64, rest)
  | text => (.tEnumeration, text)

/-- `E` -/
def parseEnumeration (lib : Library A S E) (text : List Char) :
    Option (TypeDecl A S E × List Char) :=
  match parseWidth text with
  | (width, '<' :: text) => do
    let (name, rest) ← parseAnyNameInBrackets true ('<' :: text)
    match lib.enumerations.find name with
    | [enumType] => some (.ofBase (.enumeration width (some enumType)), rest)
    | _ => none
  | (width, rest) => some (.ofBase (.enumeration width none), rest)

/-- `H` -/
def parseHandle (lib : Library A S E) (text : List Char) : Option (TypeDecl A S E × List Char) := do
  let (name, rest) ← parseAnyNameInBrackets true text
  match lib.annotations.find name with
  | [ann] => some (.ofBase (.handle ann), rest)
  | _ => none

/-- `S`: the error is where there is one structure; else the last is taken, if there is one. -/
def parseStructure (lib : Library A S E) (text : List Char) :
    Option (TypeDecl A S E × List Char) := do
  let (name, rest) ← parseAnyNameInBrackets true text
  let found := lib.structures.find name
  if found.length = 1 then none
  else do
    let structType ← found.getLast?
    some (.ofBase (.structure structType), rest)

/-- The symbols that are a type. -/
def parsePlain : List Char → Option (Plain × List Char)
  | '_' :: 'c' :: rest => some (.fakeContext, rest)
  | '_' :: 'l' :: rest => some (.fakeLineInfo, rest)
  | 'i' :: '2' :: rest => some (.tInt2, rest)
  | 'i' :: '3' :: rest => some (.tInt3, rest)
  | 'i' :: '4' :: rest => some (.tInt4, rest)
  | 'i' :: '8' :: rest => some (.tInt8, rest)
  | 'i' :: '1' :: '6' :: rest => some (.tInt16, rest)
  | 'i' :: '6' :: '4' :: rest => some (.tInt64, rest)
  | 'i' :: rest => some (.tInt, rest)
  | 'u' :: '2' :: rest => some (.tUInt2, rest)
  | 'u' :: '3' :: rest => some (.tUInt3, rest)
  | 'u' :: '4' :: rest => some (.tUInt4, rest)
  | 'u' :: '8' :: rest => some (.tUInt8, rest)
  | 'u' :: '1' :: '6' :: rest => some (.tUInt16, rest)
  | 'u' :: '6' :: '4' :: rest => some (.tUInt64, rest)
  | 'u' :: rest => some (.tUInt, rest)
  | 'f' :: '2' :: rest => some (.tFloat2, rest)
  | 'f' :: '3' :: rest => some (.tFloat3, rest)
  | 'f' :: '4' :: rest => some (.tFloat4, rest)
  | 'f' :: rest => some (.tFloat, rest)
  | '.' :: rest => some (.autoinfer, rest)
  | '|' :: rest => some (.option, rest)
  | 'D' :: rest => some (.typeDecl, rest)
  | '*' :: rest => some (.anyArgument, rest)
  | 'L' :: rest => some (.tAlias, rest)
  | 'A' :: rest => some (.tArray, rest)
  | 'T' :: rest => some (.tTable, rest)
  | 'G' :: rest => some (.tIterator, rest)
  | '$' :: rest => some (.tBlock, rest)
  | 'U' :: rest => some (.tTuple, rest)
  | 'V' :: rest => some (.tVariant, rest)
  | 't' :: '8' :: rest => some (.tBitfield8, rest)
  | 't' :: '1' :: '6' :: rest => some (.tBitfield16, rest)
  | 't' :: '6' :: '4' :: rest => some (.tBitfield64, rest)
  | 't' :: rest => some (.tBitfield, rest)
  | 'r' :: '6' :: '4' :: rest => some (.tRange64, rest)
  | 'r' :: rest => some (.tRange, rest)
  | 'z' :: '6' :: '4' :: rest => some (.tURange64, rest)
  | 'z' :: rest => some (.tURange, rest)
  | 'd' :: rest => some (.tDouble, rest)
  | 's' :: rest => some (.tString, rest)
  | 'v' :: rest => some (.tVoid, rest)
  | 'b' :: rest => some (.tBool, rest)
  | '@' :: '@' :: rest => some (.tFunction, rest)
  | '@' :: rest => some (.tLambda, rest)
  | _ => none

/-- `?` -/
def parsePointer : List Char → Smart × List Char
  | 'M' :: rest => (.smart, rest)
  | 'W' :: rest => (.native, rest)
  | rest => (.raw, rest)

/-- The bracket that is expected next. -/
def expect (c : Char) : List Char → Option (List Char)
  | d :: rest => if d = c then some rest else none
  | [] => none

section Levels

-- the types a level below
variable (below : List Char → Option (TypeDecl A S E × List Char))

/-- A type in brackets. -/
def parseBrackets (text : List Char) : Option (TypeDecl A S E × List Char) := do
  let text ← expect '<' text
  let (ft, text) ← below text
  let rest ← expect '>' text
  some (ft, rest)

/-- What stands behind a type of a list. -/
def separated : List Char → Option (List Char)
  | ';' :: rest => some (';' :: rest)
  | '>' :: rest => some ('>' :: rest)
  | _ => none

/-- The loop of `0`: a separator, and a type. -/
def parseTypes : ℕ → List Char → Option (TypeDecls A S E × List Char)
  | 0, _ => none
  | _ + 1, [] => none
  | n + 1, c :: text =>
    if c = '>' then some (.nil, text)
    else do
      let (tt, text) ← below text
      let text ← separated text
      let (types, rest) ← parseTypes n text
      some (.cons tt types, rest)

/-- What a symbol is that is not of a flag. -/
def parseSymbol (lib : Library A S E) (c : Char) (text : List Char) :
    Option (TypeDecl A S E × List Char) :=
  match c with
  | '[' => do
    let (di, text) ← parseDim text
    let (aname, text') ← takeAlias (takeRemoves text {}).2
    let (pt, rest) ← below text'
    some (.fixedArray {} (takeRemoves text {}).1 di aname pt, rest)
  | '-' => do
    let (put, clear, text) ← removeOf text
    let (pt, rest) ← below text
    some ((pt.mapFlags clear).mapRemoves put, rest)
  | '1' => do
    let (ft, text) ← parseBrackets below text
    let (pt, rest) ← below text
    some (.setFirstType ft pt, rest)
  | '2' => do
    let (ft, text) ← parseBrackets below text
    let (pt, rest) ← below text
    some (.setSecondType ft pt, rest)
  | '0' => do
    let (types, text) ← parseTypes below text.length text
    let (pt, rest) ← below text
    some (pt.setArgTypes types, rest)
  | 'N' => do
    let (names, text) ← parseNames text.length text
    let (pt, rest) ← below text
    some (pt.setArgNames names, rest)
  | 'Y' => do
    let (aname, text) ← parseNameInBrackets text
    let (pt, rest) ← below text
    some (pt.setAlias aname, rest)
  | 'H' => parseHandle lib text
  | 'S' => parseStructure lib text
  | 'E' => parseEnumeration lib text
  | '?' => some (.ofBase (.pointer (parsePointer text).1), (parsePointer text).2)
  | c => (parsePlain (c :: text)).map fun (type, rest) => (.ofBase (.plain type), rest)

end Levels

/-- `parseTypeFromMangledName`, so many levels deep. -/
def parse (lib : Library A S E) : ℕ → List Char → Option (TypeDecl A S E × List Char)
  | 0, _ => none
  | _ + 1, [] => none
  | n + 1, c :: text =>
    match flagOf c with
    | some put => (parse lib n text).map fun (pt, rest) => (pt.mapFlags put, rest)
    | none => parseSymbol (parse lib n) lib c text

/-- **`parseTypeFromMangledName`** -/
def parseTypeFromMangledName (lib : Library A S E) (text : List Char) :
    Option (TypeDecl A S E × List Char) :=
  parse lib text.length text

end DaScript.MangledName
