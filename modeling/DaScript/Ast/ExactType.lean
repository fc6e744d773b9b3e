import DaScript.Ast.MangledName
import DaScript.Misc.AnyHash

/-!
# Ast/ExactType — when two types are the same, their names and their hashes

`TypeDecl::isSameExactType`, `getMangledName` and `getLookupHash` of `ast_typedecl.cpp`, and the
cache that `findAlias` fills in.  Two bits of the flags are that cache, of each node for what is
below it.

`flagsWithoutAliasCache` leaves them out of the hash; `isSameExactType` compares all flags.
-/

namespace DaScript.ExactType

open MangledName (Plain isNameChar when dimText widthText)

/-- `Type` -/
inductive BaseType
  | plain (type : Plain)
  | enumeration (width : EnumWidth)
  | none | typeMacro | tStructure | tHandle | tPointer | tFixedArray
  deriving DecidableEq

/-- The number of a type in `Type`. -/
def BaseType.index : BaseType → ℕ
  | .none => 0
  | .plain .autoinfer => 1
  | .plain .tAlias => 2
  | .plain .option => 3
  | .plain .typeDecl => 4
  | .typeMacro => 5
  | .plain .fakeContext => 6
  | .plain .fakeLineInfo => 7
  | .plain .anyArgument => 8
  | .plain .tVoid => 9
  | .plain .tBool => 10
  | .plain .tInt8 => 11
  | .plain .tUInt8 => 12
  | .plain .tInt16 => 13
  | .plain .tUInt16 => 14
  | .plain .tInt64 => 15
  | .plain .tUInt64 => 16
  | .plain .tInt => 17
  | .plain .tInt2 => 18
  | .plain .tInt3 => 19
  | .plain .tInt4 => 20
  | .plain .tUInt => 21
  | .plain .tUInt2 => 22
  | .plain .tUInt3 => 23
  | .plain .tUInt4 => 24
  | .plain .tFloat => 25
  | .plain .tFloat2 => 26
  | .plain .tFloat3 => 27
  | .plain .tFloat4 => 28
  | .plain .tDouble => 29
  | .plain .tRange => 30
  | .plain .tURange => 31
  | .plain .tRange64 => 32
  | .plain .tURange64 => 33
  | .plain .tString => 34
  | .tStructure => 35
  | .tHandle => 36
  | .enumeration .tEnumeration => 37
  | .enumeration .tEnumeration8 => 38
  | .enumeration .tEnumeration16 => 39
  | .enumeration .tEnumeration64 => 40
  | .plain .tBitfield => 41
  | .plain .tBitfield8 => 42
  | .plain .tBitfield16 => 43
  | .plain .tBitfield64 => 44
  | .tPointer => 45
  | .plain .tFunction => 46
  | .plain .tLambda => 47
  | .plain .tIterator => 48
  | .plain .tArray => 49
  | .plain .tTable => 50
  | .plain .tBlock => 51
  | .plain .tTuple => 52
  | .plain .tVariant => 53
  | .tFixedArray => 54

/-- `flags`, bit by bit. -/
structure Flags where
  ref : Bool := false
  constant : Bool := false
  temporary : Bool := false
  implicit : Bool := false
  removeRef : Bool := false
  removeConstant : Bool := false
  removeDim : Bool := false
  removeTemporary : Bool := false
  explicitConst : Bool := false
  aotAlias : Bool := false
  smartPtr : Bool := false
  smartPtrNative : Bool := false
  isExplicit : Bool := false
  isNativeDim : Bool := false
  isTag : Bool := false
  explicitRef : Bool := false
  isPrivateAlias : Bool := false
  autoToAlias : Bool := false
  safeWhenUninitialized : Bool := false
  enumStubBinding : Bool := false
  enumStubIsUnsigned : Bool := false
  aliasCacheValid : Bool := false
  aliasCacheHasAlias : Bool := false
  deriving DecidableEq

/-- `flags`, as `uint32_t`. -/
def Flags.word (f : Flags) : UInt64 :=
  ([f.ref, f.constant, f.temporary, f.implicit, f.removeRef, f.removeConstant, f.removeDim,
    f.removeTemporary, f.explicitConst, f.aotAlias, f.smartPtr, f.smartPtrNative, f.isExplicit,
    f.isNativeDim, f.isTag, f.explicitRef, f.isPrivateAlias, f.autoToAlias,
    f.safeWhenUninitialized, f.enumStubBinding, f.enumStubIsUnsigned, f.aliasCacheValid,
    f.aliasCacheHasAlias].foldr (fun bit word => 2 * word + bit.toUInt64) 0)

/-- What a node has by itself, and `isSameExactType` compares. -/
structure Own (A S E : Type) where
  baseType : BaseType
  structType : Option S := none
  enumType : Option E := none
  annotation : Option A := none
  fixedDim : ℤ := 0
  flags : Flags := {}
  aname : List Char := []
  argNames : List (List Char) := []
  structured : baseType = .tStructure → structType.isSome = true := by decide
  handled : baseType = .tHandle → annotation.isSome = true := by decide

/-- `typeMacroExpr`: the name of a macro, and its arguments as they are written. -/
structure Macro where
  name : List Char
  valid : ∀ c ∈ name, isNameChar true c = true
  exprs : List (List Char)

/-- Chars as the bytes that they are. -/
def bytes (text : List Char) : List UInt8 := text.map fun c => UInt8.ofNat c.toNat

/-- `^<name;hash>` -/
def Macro.text (m : Macro) : List Char :=
  let tw := [','].intercalate m.exprs
  '^' :: '<' :: (m.name ++ ';' :: (Nat.toDigits 10 (hashBlockz64 (bytes tw)).toNat ++ ['>']))

/-- What the names of objects are, with their modules. -/
structure Names (A S E : Type) where
  annotation : A → List Char
  «structure» : S → List Char
  enumeration : E → List Char

/-- No macro. -/
def Macro.empty : Macro := ⟨[], fun _ hc => absurd hc List.not_mem_nil, []⟩

mutual

inductive TypeDecl (A S E : Type)
  | mk (own : Own A S E) (typeMacroExpr : Macro) (firstType secondType : MaybeType A S E)
      (argTypes : TypeDecls A S E)

/-- `firstType` or `secondType`, which may be null. -/
inductive MaybeType (A S E : Type)
  | null
  | type (type : TypeDecl A S E)

/-- `argTypes` -/
inductive TypeDecls (A S E : Type)
  | nil
  | cons (arg : TypeDecl A S E) (rest : TypeDecls A S E)

end

variable {A S E : Type}

/-! ## `isSameExactType` -/

section Same

variable [DecidableEq A] [DecidableEq S] [DecidableEq E]

/-- The comparisons of a node's own. -/
def Own.same (own decl : Own A S E) : Bool :=
  own.baseType = decl.baseType ∧ own.structType = decl.structType ∧ own.enumType = decl.enumType ∧
    own.annotation = decl.annotation ∧ own.flags = decl.flags ∧ own.aname = decl.aname ∧
      own.fixedDim = decl.fixedDim ∧ own.argNames = decl.argNames

mutual

def TypeDecl.isSameExactType : TypeDecl A S E → TypeDecl A S E → Bool
  | .mk own _ firstType secondType argTypes, .mk own' _ firstType' secondType' argTypes' =>
    own.same own' && firstType.isSameExactNullType firstType' &&
      secondType.isSameExactNullType secondType' && argTypes.isSame argTypes'

def MaybeType.isSameExactNullType : MaybeType A S E → MaybeType A S E → Bool
  | .type a, .type b => a.isSameExactType b
  | .null, .null => true
  | _, _ => false

/-- As many arguments, and each the same. -/
def TypeDecls.isSame : TypeDecls A S E → TypeDecls A S E → Bool
  | .cons a as, .cons b bs => a.isSameExactType b && as.isSame bs
  | .nil, .nil => true
  | _, _ => false

end

end Same

/-! ## The alias cache -/

/-- The cache of a node, written. -/
def Own.setCache (own : Own A S E) (hasAlias : Bool) : Own A S E :=
  { own with flags := { own.flags with aliasCacheValid := true, aliasCacheHasAlias := hasAlias } }

/-- What the root has by itself. -/
def TypeDecl.own : TypeDecl A S E → Own A S E
  | .mk own _ _ _ _ => own

mutual

/-- `computeAliasCache`: the type as it is left, and the result. -/
def TypeDecl.computeAliasCache : TypeDecl A S E → TypeDecl A S E × Bool
  | .mk own typeMacroExpr firstType secondType argTypes =>
    if own.flags.aliasCacheValid then
      (.mk own typeMacroExpr firstType secondType argTypes, own.flags.aliasCacheHasAlias)
    else if own.baseType = .plain .tAlias then
      (.mk (own.setCache false) typeMacroExpr firstType secondType argTypes, false)
    else
      let first := firstType.computeAliasCache
      let second := secondType.computeAliasCache
      let args := argTypes.computeAliasCache
      let hasAny := !own.aname.isEmpty || first.2 || second.2 || args.2
      (.mk (own.setCache hasAny) typeMacroExpr first.1 second.1 args.1, hasAny)

def MaybeType.computeAliasCache : MaybeType A S E → MaybeType A S E × Bool
  | .null => (.null, false)
  | .type type =>
    let computed := type.computeAliasCache
    (.type computed.1, computed.2)

def TypeDecls.computeAliasCache : TypeDecls A S E → TypeDecls A S E × Bool
  | .nil => (.nil, false)
  | .cons arg rest =>
    let computed := arg.computeAliasCache
    let others := rest.computeAliasCache
    (.cons computed.1 others.1, computed.2 || others.2)

end

/-- Where a part of a type is. -/
inductive Turn
  | first | second | arg (index : ℕ)
  deriving DecidableEq

/-- What `findAlias` returns: a part, and whether it is to be constant under a dimension. -/
structure Found where
  path : List Turn
  constUnderDim : Bool

mutual

/-- The loop of `findAlias` down a chain of fixed arrays: whether it comes to a part. -/
def TypeDecl.onChain : TypeDecl A S E → List Turn → Bool
  | _, [] => true
  | .mk own _ firstType _ _, .first :: path =>
    own.baseType = .tFixedArray && firstType.onChain path
  | _, _ :: _ => false

def MaybeType.onChain : MaybeType A S E → List Turn → Bool
  | .null, _ => false
  | .type type, path => type.onChain path

end

mutual

/-- How many nodes there are, and links between them. -/
def TypeDecl.size : TypeDecl A S E → ℕ
  | .mk _ _ firstType secondType argTypes =>
    firstType.size + secondType.size + argTypes.size + 1

def MaybeType.size : MaybeType A S E → ℕ
  | .null => 0
  | .type type => type.size + 1

def TypeDecls.size : TypeDecls A S E → ℕ
  | .nil => 0
  | .cons arg rest => arg.size + rest.size + 1

end

mutual

theorem TypeDecl.size_computeAliasCache : ∀ t : TypeDecl A S E, t.computeAliasCache.1.size = t.size
  | .mk own m first second args => by
    rw [TypeDecl.computeAliasCache]
    split_ifs
    · rfl
    · rfl
    · simp only [TypeDecl.size, first.size_computeAliasCache, second.size_computeAliasCache,
        args.size_computeAliasCache]

theorem MaybeType.size_computeAliasCache :
    ∀ t : MaybeType A S E, t.computeAliasCache.1.size = t.size
  | .null => rfl
  | .type type => congrArg (· + 1) type.size_computeAliasCache

theorem TypeDecls.size_computeAliasCache :
    ∀ t : TypeDecls A S E, t.computeAliasCache.1.size = t.size
  | .nil => rfl
  | .cons arg rest => by
    simp only [TypeDecls.computeAliasCache, TypeDecls.size, arg.size_computeAliasCache,
      rest.size_computeAliasCache]

end

mutual

/-- `findAlias`: the type as it is left, and what is found. -/
def TypeDecl.findAlias (name : List Char) (allowAuto constUnderDim : Bool) (t : TypeDecl A S E) :
    TypeDecl A S E × Option Found :=
  match h : t.computeAliasCache.1 with
  | .mk own typeMacroExpr firstType secondType argTypes =>
    if !own.flags.aliasCacheHasAlias then
      (.mk own typeMacroExpr firstType secondType argTypes, none)
    else if own.baseType = .plain .tAlias then
      (.mk own typeMacroExpr firstType secondType argTypes, none)
    else if own.baseType = .plain .autoinfer ∧ !allowAuto then
      (.mk own typeMacroExpr firstType secondType argTypes, none)
    else if own.aname = name then
      (.mk own typeMacroExpr firstType secondType argTypes, some ⟨[], false⟩)
    else
      have hsize : firstType.size + secondType.size + argTypes.size + 1 = t.size := by
        rw [← t.size_computeAliasCache, h, TypeDecl.size]
      let first := firstType.findAlias name allowAuto constUnderDim
      match first.2 with
      | some k =>
        let peeled := constUnderDim && own.flags.constant && own.baseType = .tFixedArray &&
          first.1.onChain k.path
        (.mk own typeMacroExpr first.1 secondType argTypes,
          some ⟨.first :: k.path, k.constUnderDim || peeled⟩)
      | none =>
        let second := secondType.findAlias name allowAuto false
        match second.2 with
        | some k =>
          (.mk own typeMacroExpr first.1 second.1 argTypes,
            some ⟨.second :: k.path, k.constUnderDim⟩)
        | none =>
          let args := argTypes.findAlias name allowAuto 0
          (.mk own typeMacroExpr first.1 second.1 args.1, args.2)
termination_by t.size

/-- `findAlias` of what may be null: nothing, then. -/
def MaybeType.findAlias (name : List Char) (allowAuto constUnderDim : Bool) (t : MaybeType A S E) :
    MaybeType A S E × Option Found :=
  match t with
  | .null => (.null, none)
  | .type type =>
    let below := type.findAlias name allowAuto constUnderDim
    (.type below.1, below.2)
termination_by t.size
decreasing_by exact Nat.lt_succ_self _

/-- The loop over the arguments, from one on. -/
def TypeDecls.findAlias (name : List Char) (allowAuto : Bool) (index : ℕ) (t : TypeDecls A S E) :
    TypeDecls A S E × Option Found :=
  match t with
  | .nil => (.nil, none)
  | .cons arg rest =>
    let below := arg.findAlias name allowAuto false
    match below.2 with
    | some k => (.cons below.1 rest, some ⟨.arg index :: k.path, k.constUnderDim⟩)
    | none =>
      let others := rest.findAlias name allowAuto (index + 1)
      (.cons below.1 others.1, others.2)
termination_by t.size
decreasing_by all_goals (rw [TypeDecls.size]; omega)

end

/-! ## Names -/

/-- What a name ends in, by the type of the node. -/
def Own.text (names : Names A S E) (own : Own A S E) (typeMacroExpr : Macro) : List Char :=
  match h : own.baseType with
  | .plain type => type.text
  | .enumeration width =>
    'E' :: (widthText width ++ (when own.flags.enumStubBinding ['b'] ++
      (when own.flags.enumStubIsUnsigned ['u'] ++
        match own.enumType with
        | some enumType => '<' :: (names.enumeration enumType ++ ['>'])
        | none => [])))
  | .none => when own.flags.isTag "``TAG``".toList
  | .typeMacro => typeMacroExpr.text
  | .tStructure => 'S' :: '<' :: (names.structure (own.structType.get (own.structured h)) ++ ['>'])
  | .tHandle => 'H' :: '<' :: (names.annotation (own.annotation.get (own.handled h)) ++ ['>'])
  | .tPointer =>
    '?' :: when own.flags.smartPtr (if own.flags.smartPtrNative then ['W'] else ['M'])
  | .tFixedArray => []

/-- The flags that a name begins with. -/
def Own.flagsText (own : Own A S E) : List Char :=
  when own.flags.constant ['C'] ++ (when own.flags.ref ['&'] ++ (when own.flags.temporary ['#'] ++
    (when own.flags.implicit ['I'] ++ (when own.flags.explicitConst ['='] ++
      (when own.flags.explicitRef ['R'] ++ (when own.flags.isExplicit ['X'] ++
        when own.flags.aotAlias ['F']))))))

/-- Those that only a full name has. -/
def Own.removesText (own : Own A S E) : List Char :=
  when own.flags.removeDim ['-', '[', ']'] ++ (when own.flags.removeConstant ['-', 'C'] ++
    (when own.flags.removeRef ['-', '&'] ++ when own.flags.removeTemporary ['-', '#']))

/-- `Y<alias>` -/
def Own.aliasText (own : Own A S E) : List Char :=
  if own.aname = [] then [] else 'Y' :: '<' :: (own.aname ++ ['>'])

/-- `N<a;b>` -/
def Own.argNamesText (own : Own A S E) : List Char :=
  if own.argNames = [] then [] else 'N' :: '<' :: ([';'].intercalate own.argNames ++ ['>'])

/-- All of a node's own that is before what is below it. -/
def Own.opening (fullName : Bool) (own : Own A S E) : List Char :=
  if own.baseType = .tFixedArray then
    own.flagsText ++ '[' :: (dimText own.fixedDim ++
      ']' :: (when fullName own.removesText ++ own.aliasText))
  else own.flagsText ++ (when fullName own.removesText ++ (own.aliasText ++ own.argNamesText))

mutual

def TypeDecl.getMangledName (names : Names A S E) (fullName : Bool) :
    TypeDecl A S E → List Char
  | .mk own typeMacroExpr firstType secondType argTypes =>
    if own.baseType = .tFixedArray then
      own.opening fullName ++ firstType.elementName names fullName
    else
      own.opening fullName ++ (argTypes.argsName names fullName ++
        (firstType.bracketedName names fullName '1' ++
          (secondType.bracketedName names fullName '2' ++ own.text names typeMacroExpr)))

/-- The element of a fixed array. -/
def MaybeType.elementName (names : Names A S E) (fullName : Bool) : MaybeType A S E → List Char
  | .null => []
  | .type type => type.getMangledName names fullName

/-- `1<…>` or `2<…>`, if it is not null. -/
def MaybeType.bracketedName (names : Names A S E) (fullName : Bool) (c : Char) :
    MaybeType A S E → List Char
  | .null => []
  | .type type => c :: '<' :: (type.getMangledName names fullName ++ ['>'])

/-- `0<…>`, if there are any. -/
def TypeDecls.argsName (names : Names A S E) (fullName : Bool) : TypeDecls A S E → List Char
  | .nil => []
  | .cons arg rest =>
    '0' :: '<' :: (arg.getMangledName names fullName ++ (rest.restName names fullName ++ ['>']))

/-- Each after a semicolon. -/
def TypeDecls.restName (names : Names A S E) (fullName : Bool) : TypeDecls A S E → List Char
  | .nil => []
  | .cons arg rest => ';' :: (arg.getMangledName names fullName ++ rest.restName names fullName)

end

/-! ## Hashes -/

/-- `intptr_t` of what is pointed to. -/
structure Addresses (A S E : Type) where
  annotation : A → UInt64
  «structure» : S → UInt64
  enumeration : E → UInt64

/-- `rotr64_c` -/
def rotr64 (x n : UInt64) : UInt64 := x >>> n ||| x <<< (64 - n)

def hashmix (hash key : UInt64) : UInt64 :=
  let hash := (hash ^^^ key) * 0x9e3779b97f4a7c15
  let hash := (hash ^^^ rotr64 hash 31) * 0x9e3779b97f4a7c15
  hash ^^^ rotr64 hash 28

/-- `flagsWithoutAliasCache` -/
def Flags.withoutAliasCache (f : Flags) : Flags :=
  { f with aliasCacheValid := false, aliasCacheHasAlias := false }

/-- What a node itself adds to a hash. -/
def Own.hash (addresses : Addresses A S E) (own : Own A S E) (hash : UInt64) : UInt64 :=
  let hash := hashmix hash (UInt64.ofNat own.baseType.index)
  let hash := hashmix hash own.flags.withoutAliasCache.word
  let hash := if own.baseType = .tFixedArray then hashmix hash (UInt64.ofInt own.fixedDim) else hash
  match own.structType, own.enumType, own.annotation with
  | some structType, _, _ => hashmix hash (addresses.structure structType)
  | none, some enumType, _ => hashmix hash (addresses.enumeration enumType)
  | none, none, some annotation => hashmix hash (addresses.annotation annotation)
  | none, none, none => hash

/-- The types whose names of arguments matter. -/
def BaseType.named : BaseType → Bool
  | .plain .tBitfield | .plain .tBitfield8 | .plain .tBitfield16 | .plain .tBitfield64
  | .plain .tVariant | .plain .tTuple => true
  | _ => false

/-- The names of arguments, in a hash. -/
def Own.hashNames (own : Own A S E) (hash : UInt64) : UInt64 :=
  if own.baseType.named then
    own.argNames.foldl (fun hash name => hashmix hash (hashBlock64 (bytes name))) hash
  else hash

mutual

def TypeDecl.getLookupHash (addresses : Addresses A S E) : TypeDecl A S E → UInt64 → UInt64
  | .mk own _ firstType secondType argTypes, hash =>
    let hash := own.hash addresses hash
    let hash := firstType.getLookupHash addresses hash
    let hash := secondType.getLookupHash addresses hash
    let hash := own.hashNames hash
    argTypes.getLookupHash addresses hash

def MaybeType.getLookupHash (addresses : Addresses A S E) : MaybeType A S E → UInt64 → UInt64
  | .null, hash => hash
  | .type type, hash => type.getLookupHash addresses hash

def TypeDecls.getLookupHash (addresses : Addresses A S E) : TypeDecls A S E → UInt64 → UInt64
  | .nil, hash => hash
  | .cons arg rest, hash => rest.getLookupHash addresses (arg.getLookupHash addresses hash)

end

end DaScript.ExactType
