import DaScript.Ast.TypeLayout
import DaScript.Foundations.Machine
import DaScript.Machinery.Fuel

/-!
# Ast/CircularType — types that contain themselves

`isCircularType` of `ast_typedecl.cpp`, and the sizes and alignments that are computed of what it
accepts (`ast_typedecl.cpp`, `ast.cpp`).  Types are nodes of a graph: a structure is reached from
every node that names it, and a node may be shared.

The search keeps the nodes that it is in, not the structures.
-/

namespace DaScript.CircularType

open TypeLayout (EnumBase Handle intMax alignLong)

/-! ## The types of a program -/

/-- `TypeAnnotation`, of a handled type. -/
structure Annotation where
  getSizeOf : BitVec 64
  getAlignOf : BitVec 32

/-- `TypeDecl`, by its `baseType`; other types are nodes `N`, structures are `S`. -/
inductive TypeDecl (N S : Type)
  /-- A type with no other type in it, with what `getTypeBaseSize` and `getTypeBaseAlign` say. -/
  | basic (size align : BitVec 32)
  | enumeration (enumType : Option EnumBase)
  | tHandle (ann : Annotation)
  | tPointer (firstType : Option N)
  | tArray (firstType : Option N)
  | tTable (firstType secondType : Option N)
  | tStructure (structType : Option S)
  | tTuple (argTypes : List N)
  | tVariant (argTypes : List N)
  | option (argTypes : List N)
  | tFixedArray (fixedDim : BitVec 32) (firstType : Option N)

/-- `Structure::FieldDeclaration` -/
structure Field (N : Type) where
  name : String
  type : N

structure Structure (N S : Type) where
  fields : List (Field N)
  parent : Option S
  cppLayout : Bool
  cppLayoutNotPod : Bool
  circular : Bool

/-- **Copies**: of one kind, of one structure, and of copies, where types are contained. -/
inductive CopyOf {N S : Type} (R : N → N → Prop) : TypeDecl N S → TypeDecl N S → Prop
  | basic (size align : BitVec 32) : CopyOf R (.basic size align) (.basic size align)
  | enumeration (enumType : Option EnumBase) :
    CopyOf R (.enumeration enumType) (.enumeration enumType)
  | tHandle (ann : Annotation) : CopyOf R (.tHandle ann) (.tHandle ann)
  | tPointer (t t' : Option N) : CopyOf R (.tPointer t) (.tPointer t')
  | tArray (t t' : Option N) : CopyOf R (.tArray t) (.tArray t')
  | tTable (t t' u u' : Option N) : CopyOf R (.tTable t u) (.tTable t' u')
  | tStructure (structType : Option S) : CopyOf R (.tStructure structType) (.tStructure structType)
  | tTuple {ts ts' : List N} (h : List.Forall₂ R ts ts') : CopyOf R (.tTuple ts) (.tTuple ts')
  | tVariant {ts ts' : List N} (h : List.Forall₂ R ts ts') : CopyOf R (.tVariant ts) (.tVariant ts')
  | option {ts ts' : List N} (h : List.Forall₂ R ts ts') : CopyOf R (.option ts) (.option ts')
  | tFixedArray (fixedDim : BitVec 32) {t t' : Option N} (h : Option.Rel R t t') :
    CopyOf R (.tFixedArray fixedDim t) (.tFixedArray fixedDim t')

/-- **The types of a program.**  A structure that is laid out as in C++ has copies of the fields of
its parent. -/
structure TypeGraph (N S : Type) where
  typeDecl : N → TypeDecl N S
  struct : S → Structure N S
  copied : N → N → Prop
  refl : ∀ n, copied n n
  trans : ∀ n m k, copied n m → copied m k → copied n k
  copies : ∀ n m, copied n m → CopyOf copied (typeDecl n) (typeDecl m)
  inherits : ∀ s p, (struct s).cppLayout = true → (struct s).parent = some p →
    ∀ fd ∈ (struct p).fields, ∃ fd' ∈ (struct s).fields, copied fd'.type fd.type

namespace TypeGraph

variable {N S : Type} (g : TypeGraph N S)

/-! ## `isCircularType` -/

/-- The types that `isCircularType` goes on with: fields, alternatives and elements. -/
def below (type : N) : List N :=
  match g.typeDecl type with
  | .tStructure (some structType) => (g.struct structType).fields.map Field.type
  | .tTuple argTypes | .tVariant argTypes | .option argTypes => argTypes
  | .tFixedArray _ firstType => firstType.toList
  | _ => []

/-- `type->baseType==Type::tPointer` -/
def isPointer (type : N) : Bool :=
  match g.typeDecl type with
  | .tPointer _ => true
  | _ => false

/-- A loop over types, up to the first that is circular. -/
def anyCircular (circular : N → List N → Option (Bool × List N)) :
    List N → List N → Option (Bool × List N)
  | [], all => some (false, all)
  | type :: rest, all =>
    match circular type all with
    | none => none
    | some (true, all) => some (true, all)
    | some (false, all) => anyCircular circular rest all

/-- `isCircularType`, so many calls deep at most; `all` is as it is left. -/
def isCircularType [DecidableEq N] : ℕ → N → List N → Option (Bool × List N)
  | 0, _, _ => none
  | fuel + 1, type, all =>
    if g.isPointer type then some (false, all)
    else if type ∈ all then some (true, all)
    else
      match anyCircular (isCircularType fuel) (g.below type) (all ++ [type]) with
      | none => none
      | some (true, all) => some (true, all)
      | some (false, all) => some (false, all.dropLast)

/-! ## Sizes -/

/-- A size or an alignment; `none` is a call that is too deep. -/
abbrev Result : Type → Type := Except (Option Fault)

/-- `align = das::max ( argT->getAlignOf(), align )` -/
def maxAlign (getAlignOf : N → Result (BitVec 32)) (align : BitVec 32) (argT : N) :
    Result (BitVec 32) := do
  let argAlign ← getAlignOf argT
  pure (intMax argAlign align)

mutual

/-- `TypeDecl::getAlignOf`, so many calls deep at most; `guard` are the structures with
`circularGuard`. -/
def getAlignOf [DecidableEq S] : ℕ → List S → N → Result (BitVec 32)
  | 0, _, _ => .error none
  | fuel + 1, guard, type =>
    match g.typeDecl type with
    | .basic _ align => .ok align
    | .enumeration enumType => .ok (BitVec.ofNat 32 (enumType.elim 4 fun e => e.scalar.align))
    | .tHandle ann => .ok ann.getAlignOf
    | .tPointer _ => .ok (BitVec.ofNat 32 Handle.tPointer.align)
    | .tArray _ => .ok (BitVec.ofNat 32 Handle.tArray.align)
    | .tTable _ _ => .ok (BitVec.ofNat 32 Handle.tTable.align)
    | .tStructure none => .error (some (.null "structType"))
    | .tStructure (some structType) =>
      if (g.struct structType).circular then .ok 0 else structAlign fuel guard structType
    | .tTuple argTypes => argTypes.foldlM (maxAlign (getAlignOf fuel guard)) 1
    | .tVariant argTypes => argTypes.foldlM (maxAlign (getAlignOf fuel guard)) 4
    | .option _ => .ok 0
    | .tFixedArray _ none => .ok 1
    | .tFixedArray _ (some firstType) => getAlignOf fuel guard firstType

/-- `Structure::getAlignOf` -/
def structAlign [DecidableEq S] : ℕ → List S → S → Result (BitVec 32)
  | 0, _, _ => .error none
  | fuel + 1, guard, structType =>
    if structType ∈ guard then .ok 1
    else
      ((g.struct structType).fields.map Field.type).foldlM
        (maxAlign (getAlignOf fuel (structType :: guard))) 1

end

def getCountOf64 : ℕ → N → Result (BitVec 64)
  | 0, _ => .error none
  | fuel + 1, type =>
    match g.typeDecl type with
    | .tFixedArray fixedDim none => .ok (fixedDim.signExtend 64)
    | .tFixedArray fixedDim (some firstType) => do
      let rest ← getCountOf64 fuel firstType
      pure (fixedDim.signExtend 64 * rest)
    | _ => .ok 1

def findFieldParent (structType : S) (name : String) : Option S :=
  let own := if (g.struct structType).fields.any (·.name = name) then some structType else none
  match (g.struct structType).parent with
  | some parent =>
    if (g.struct parent).fields.any (·.name = name) then some parent else own
  | none => own

/-- `getSizeOf64`, from what computes the two factors. -/
def sizeOf (getBaseSizeOf64 getCountOf64 : N → Result (BitVec 64)) (type : N) :
    Result (BitVec 64) := do
  let base ← getBaseSizeOf64 type
  let count ← getCountOf64 type
  pure (base * count)

/-- An argument of a tuple. -/
def addArg (getAlignOf : N → Result (BitVec 32)) (getSizeOf64 : N → Result (BitVec 64))
    (size : BitVec 64) (argT : N) : Result (BitVec 64) := do
  let align ← getAlignOf argT
  let argSize ← getSizeOf64 argT
  pure (alignLong size align + argSize)

/-- An alternative of a variant. -/
def maxArg (getSizeOf64 : N → Result (BitVec 64)) (align : BitVec 32) (maxSize : BitVec 64)
    (argT : N) : Result (BitVec 64) := do
  let argSize ← getSizeOf64 argT
  let size := alignLong 4 align + argSize
  pure (if maxSize < size then size else maxSize)

/-- A field has another owner than the one before, in a structure that is laid out as in C++. -/
def moves [DecidableEq S] (structType : S) (cppLayoutParent : Option S) (fd : Field N) : Bool :=
  (g.struct structType).cppLayout && g.findFieldParent structType fd.name ≠ cppLayoutParent

/-- `size` before a field: behind a parent that has been gone through, where it is padded. -/
def fieldStart [DecidableEq S] (nonPodPadding : Bool) (structType : S)
    (structSize : S → Result (BitVec 64)) (at' : BitVec 64 × Option S) (fd : Field N) :
    Result (BitVec 64) :=
  if g.moves structType at'.2 fd && (nonPodPadding || !(g.struct structType).cppLayoutNotPod) then
    match at'.2 with
    | some parent => structSize parent
    | none => pure 0
  else pure at'.1

/-- A field of a structure: `size` and `cppLayoutParent`. -/
def addField [DecidableEq S] (nonPodPadding : Bool) (structType : S)
    (getAlignOf : N → Result (BitVec 32)) (getSizeOf64 : N → Result (BitVec 64))
    (structSize : S → Result (BitVec 64)) (at' : BitVec 64 × Option S) (fd : Field N) :
    Result (BitVec 64 × Option S) := do
  let align ← getAlignOf fd.type
  let size ← g.fieldStart nonPodPadding structType structSize at' fd
  let fieldSize ← getSizeOf64 fd.type
  pure (alignLong size align + fieldSize,
    if g.moves structType at'.2 fd then g.findFieldParent structType fd.name else at'.2)

mutual

/-- `getBaseSizeOf64`, so many calls deep at most. -/
def getBaseSizeOf64 [DecidableEq S] (nonPodPadding : Bool) : ℕ → List S → N → Result (BitVec 64)
  | 0, _, _ => .error none
  | fuel + 1, guard, type =>
    let getSizeOf64 := sizeOf (getBaseSizeOf64 nonPodPadding fuel guard) (g.getCountOf64 fuel)
    match g.typeDecl type with
    | .basic size _ => .ok (size.signExtend 64)
    | .enumeration enumType => .ok (BitVec.ofNat 64 (enumType.elim 4 fun e => e.scalar.size))
    | .tHandle ann => .ok ann.getSizeOf
    | .tPointer _ => .ok (BitVec.ofNat 64 Handle.tPointer.size)
    | .tArray _ => .ok (BitVec.ofNat 64 Handle.tArray.size)
    | .tTable _ _ => .ok (BitVec.ofNat 64 Handle.tTable.size)
    | .tStructure none => .error (some (.null "structType"))
    | .tStructure (some structType) =>
      if (g.struct structType).circular then .ok 0
      else structSize nonPodPadding fuel guard structType
    | .tTuple argTypes => do
      let size ← argTypes.foldlM (addArg (g.getAlignOf fuel guard) getSizeOf64) 0
      let align ← argTypes.foldlM (maxAlign (g.getAlignOf fuel guard)) 1
      pure (alignLong size align)
    | .tVariant argTypes => do
      let align ← argTypes.foldlM (maxAlign (g.getAlignOf fuel guard)) 4
      let maxSize ← argTypes.foldlM (maxArg getSizeOf64 align) 0
      pure (alignLong maxSize align)
    | .option _ => .ok 0
    | .tFixedArray _ none => .ok 0
    | .tFixedArray _ (some firstType) => getBaseSizeOf64 nonPodPadding fuel guard firstType

/-- `Structure::getSizeOf64` -/
def structSize [DecidableEq S] (nonPodPadding : Bool) : ℕ → List S → S → Result (BitVec 64)
  | 0, _, _ => .error none
  | fuel + 1, guard, structType =>
    if structType ∈ guard then .ok 1
    else do
      let inner := structType :: guard
      let laid ← (g.struct structType).fields.foldlM
        (g.addField nonPodPadding structType (g.getAlignOf fuel inner)
          (sizeOf (getBaseSizeOf64 nonPodPadding fuel inner) (g.getCountOf64 fuel))
          (structSize nonPodPadding fuel inner)) (0, none)
      let align ← g.structAlign fuel guard structType
      pure (alignLong laid.1 align)

end

def getSizeOf64 [DecidableEq S] (nonPodPadding : Bool) (fuel : ℕ) (guard : List S) :
    N → Result (BitVec 64) :=
  sizeOf (g.getBaseSizeOf64 nonPodPadding fuel guard) (g.getCountOf64 fuel)

end TypeGraph

end DaScript.CircularType
