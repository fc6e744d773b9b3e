import DaScript.Machinery.Layout
import DaScript.Simulate.TypeInfo

/-!
# Ast/TypeLayout — the layout of a type, computed twice

The compiler lays a type out from its `TypeDecl` (`ast_typedecl.cpp`, `ast.cpp`); a program that
runs does it again from the `TypeInfo` that `DebugInfoHelper` makes of it (`debug_info.cpp`).  One
counts in `uint64_t`, and in `int` where an offset is asked for, the other in `int` alone; a chain
of fixed arrays is a list of dimensions in the other, and an alignment begins at 1 in one and at 0
in the other.

`TypeDecl.align` and `TypeDecl.size` are the layout both are meant to be, in natural numbers.
-/

namespace DaScript.TypeLayout

/-- `Enumeration::baseType` -/
inductive EnumBase
  | tInt8 | tUInt8 | tInt16 | tUInt16 | tInt | tUInt | tInt64 | tUInt64
  deriving DecidableEq

namespace EnumBase

/-- As a scalar. -/
def scalar : EnumBase → Scalar
  | tInt8 => .tInt8
  | tUInt8 => .tUInt8
  | tInt16 => .tInt16
  | tUInt16 => .tUInt16
  | tInt => .tInt
  | tUInt => .tUInt
  | tInt64 => .tInt64
  | tUInt64 => .tUInt64

def getEnumType : EnumBase → EnumWidth
  | tInt8 | tUInt8 => .tEnumeration8
  | tInt16 | tUInt16 => .tEnumeration16
  | tInt | tUInt => .tEnumeration
  | tInt64 | tUInt64 => .tEnumeration64

end EnumBase

/-- The types that are words of memory: what they point to is laid out on its own. -/
inductive Handle
  | tString | tPointer | tArray | tTable
  deriving DecidableEq

namespace Handle

/-- `getTypeBaseSize` -/
def size : Handle → ℕ
  | tString => 8
  | tPointer => 8
  | tArray => sizeofArray
  | tTable => 64

/-- `getTypeBaseAlign` -/
def align : Handle → ℕ
  | _ => 8

end Handle

mutual

/-- `TypeDecl`, fully inferred. -/
inductive TypeDecl
  | scalar (type : Scalar)
  | enumeration (baseType : EnumBase)
  | handle (type : Handle)
  | structure (structType : Structure)
  | tuple (argTypes : ArgTypes)
  | variant (argTypes : ArgTypes)
  | fixedArray (fixedDim : ℕ+) (firstType : TypeDecl)

/-- `Structure`: its own fields, behind those of its parent; `cppLayout` is that of `[cpp_layout]`,
where a parent is padded. -/
inductive Structure
  | root (fields : ArgTypes)
  | child (parent : Structure) (cppLayout : Bool) (fields : ArgTypes)

/-- The types of arguments, or of fields. -/
inductive ArgTypes
  | nil
  | cons (argT : TypeDecl) (rest : ArgTypes)

end

mutual

/-- `TypeInfo`: the element of a chain of fixed arrays, its dimensions, and the size it was made
with. -/
inductive Info
  | mk (type : InfoType) (dim : List (BitVec 32)) (size : BitVec 32)

/-- What a `TypeInfo` is by its `type`; a `StructInfo` has its size and its fields. -/
inductive InfoType
  | scalar (type : Scalar)
  | enumeration (type : EnumWidth)
  | handle (type : Handle)
  | structure (size : BitVec 32) (fields : Infos)
  | tuple (argTypes : Infos)
  | variant (argTypes : Infos)

/-- `argTypes` or `fields` -/
inductive Infos
  | nil
  | cons (argT : Info) (rest : Infos)

end

/-- No types at all. -/
def ArgTypes.isEmpty : ArgTypes → Bool
  | .nil => true
  | .cons _ _ => false

/-- `das::max` on `int`. -/
def intMax (x y : BitVec 32) : BitVec 32 := if x.slt y then y else x

/-- `(size + al) & ~al`, on `int`. -/
def alignInt (size align : BitVec 32) : BitVec 32 :=
  let al := align - 1
  (size + al) &&& ~~~al

/-- `(size + al) & ~al`, with a `size` that is `uint64_t`. -/
def alignLong (size : BitVec 64) (align : BitVec 32) : BitVec 64 :=
  let al := (align - 1).signExtend 64
  (size + al) &&& ~~~al

/-- `int(size<=0x7fffffff ? size : 1)` -/
def toInt (size : BitVec 64) : BitVec 32 :=
  if size.toNat ≤ 0x7fffffff then size.setWidth 32 else 1

/-! ## `TypeDecl` -/

mutual

def TypeDecl.getAlignOf : TypeDecl → BitVec 32
  | .scalar type => BitVec.ofNat 32 type.align
  | .enumeration baseType => BitVec.ofNat 32 baseType.scalar.align
  | .handle type => BitVec.ofNat 32 type.align
  | .structure structType => structType.getAlignOf 1
  | .tuple argTypes => argTypes.getAlign 1
  | .variant argTypes => argTypes.getAlign 4
  | .fixedArray _ firstType => firstType.getAlignOf

/-- `Structure::getAlignOf`, from an alignment on. -/
def Structure.getAlignOf : Structure → BitVec 32 → BitVec 32
  | .root fields, align => fields.getAlign align
  | .child parent _ fields, align => fields.getAlign (parent.getAlignOf align)

/-- `align = das::max ( argT->getAlignOf(), align )`, as `getTupleAlign` and `getVariantAlign` -/
def ArgTypes.getAlign : ArgTypes → BitVec 32 → BitVec 32
  | .nil, align => align
  | .cons argT rest, align => rest.getAlign (intMax argT.getAlignOf align)

end

def TypeDecl.getCountOf64 : TypeDecl → BitVec 64
  | .fixedArray fixedDim firstType => BitVec.ofNat 64 fixedDim * firstType.getCountOf64
  | _ => 1

mutual

def TypeDecl.getBaseSizeOf64 : TypeDecl → BitVec 64
  | .scalar type => BitVec.ofNat 64 type.size
  | .enumeration baseType => BitVec.ofNat 64 baseType.scalar.size
  | .handle type => BitVec.ofNat 64 type.size
  | .structure structType => structType.getSizeOf64
  | .tuple argTypes => alignLong (argTypes.sizeLoop 0) (argTypes.getAlign 1)
  | .variant argTypes =>
    alignLong (argTypes.maxLoop (argTypes.getAlign 4) 0) (argTypes.getAlign 4)
  | .fixedArray _ firstType => firstType.getBaseSizeOf64

def Structure.getSizeOf64 : Structure → BitVec 64
  | .root fields => alignLong (fields.sizeLoop 0) (fields.getAlign 1)
  | .child parent cppLayout fields =>
    -- the parent is padded before the first field that it does not have
    alignLong
      (fields.sizeLoop
        (if cppLayout && !fields.isEmpty then parent.getSizeOf64 else parent.sizeLoop))
      (fields.getAlign (parent.getAlignOf 1))

/-- The fields of a parent, as they are laid out in a child. -/
def Structure.sizeLoop : Structure → BitVec 64
  | .root fields => fields.sizeLoop 0
  | .child parent _ fields => fields.sizeLoop parent.sizeLoop

/-- The loop of `getTupleSize64`, and of `Structure::getSizeOf64`. -/
def ArgTypes.sizeLoop : ArgTypes → BitVec 64 → BitVec 64
  | .nil, size => size
  | .cons argT rest, size =>
    rest.sizeLoop (alignLong size argT.getAlignOf + argT.getBaseSizeOf64 * argT.getCountOf64)

/-- The loop of `getVariantSize64`. -/
def ArgTypes.maxLoop : ArgTypes → BitVec 32 → BitVec 64 → BitVec 64
  | .nil, _, maxSize => maxSize
  | .cons argT rest, align, maxSize =>
    let size := alignLong 4 align + argT.getBaseSizeOf64 * argT.getCountOf64
    rest.maxLoop align (if maxSize < size then size else maxSize)

end

def TypeDecl.getSizeOf64 (t : TypeDecl) : BitVec 64 := t.getBaseSizeOf64 * t.getCountOf64

def TypeDecl.getSizeOf (t : TypeDecl) : BitVec 32 := toInt t.getSizeOf64

/-- `getTupleFieldOffset`, from an offset on. -/
def ArgTypes.getTupleFieldOffset : ArgTypes → ℕ → BitVec 32 → BitVec 32
  | .nil, _, _ => -1
  | .cons argT _, 0, size => alignInt size argT.getAlignOf
  | .cons argT rest, index + 1, size =>
    rest.getTupleFieldOffset index (alignInt size argT.getAlignOf + argT.getSizeOf)

def ArgTypes.getVariantFieldOffset (argTypes : ArgTypes) : BitVec 32 :=
  alignInt 4 (argTypes.getAlign 4)

/-- The offsets of fields, as `InferTypes` passes them. -/
def ArgTypes.offsetLoop : ArgTypes → BitVec 64 → List (BitVec 32)
  | .nil, _ => []
  | .cons argT rest, fieldOffset =>
    let fieldOffset := alignLong fieldOffset argT.getAlignOf
    fieldOffset.setWidth 32 :: rest.offsetLoop (fieldOffset + argT.getSizeOf64)

/-- The offsets of the fields of a parent, as they are laid out in a child. -/
def Structure.offsetLoop : Structure → List (BitVec 32)
  | .root fields => fields.offsetLoop 0
  | .child parent _ fields => parent.offsetLoop ++ fields.offsetLoop parent.sizeLoop

/-- `FieldDeclaration::offset`, of all fields. -/
def Structure.fieldOffsets : Structure → List (BitVec 32)
  | .root fields => fields.offsetLoop 0
  | .child parent cppLayout fields =>
    parent.offsetLoop ++
      fields.offsetLoop (if cppLayout then parent.getSizeOf64 else parent.sizeLoop)

/-! ## `TypeInfo` -/

/-- The dimensions of a chain, as `makeTypeInfo` collects them. -/
def TypeDecl.dims : TypeDecl → List (BitVec 32)
  | .fixedArray fixedDim firstType => BitVec.ofNat 32 fixedDim :: firstType.dims
  | _ => []

mutual

/-- The element of a chain, as `makeTypeInfo` and `makeStructureDebugInfo` make it. -/
def TypeDecl.makeType : TypeDecl → InfoType
  | .scalar type => .scalar type
  | .enumeration baseType => .enumeration baseType.getEnumType
  | .handle type => .handle type
  | .structure structType => .structure (toInt structType.getSizeOf64) (structType.makeFields .nil)
  | .tuple argTypes => .tuple (argTypes.makeArgs .nil)
  | .variant argTypes => .variant (argTypes.makeArgs .nil)
  | .fixedArray _ firstType => firstType.makeType

/-- The fields, before others. -/
def Structure.makeFields : Structure → Infos → Infos
  | .root fields, infos => fields.makeArgs infos
  | .child parent _ fields, infos => parent.makeFields (fields.makeArgs infos)

/-- The arguments, before others. -/
def ArgTypes.makeArgs : ArgTypes → Infos → Infos
  | .nil, infos => infos
  | .cons argT rest, infos =>
    .cons (.mk argT.makeType argT.dims argT.getSizeOf) (rest.makeArgs infos)

end

def TypeDecl.makeTypeInfo (t : TypeDecl) : Info := .mk t.makeType t.dims t.getSizeOf

def getDimSize (dim : List (BitVec 32)) : BitVec 32 := dim.foldl (· * ·) 1

mutual

def Info.getTypeAlign : Info → BitVec 32
  | .mk type _ _ => type.getTypeBaseAlign

def InfoType.getTypeBaseAlign : InfoType → BitVec 32
  | .scalar type => BitVec.ofNat 32 type.align
  | .enumeration type => BitVec.ofNat 32 type.size
  | .handle type => BitVec.ofNat 32 type.align
  | .structure _ fields => fields.getAlign 0
  | .tuple argTypes => argTypes.getAlign 0
  | .variant argTypes => argTypes.getAlign 4

/-- `getStructAlign`, `getTupleAlign` and `getVariantAlign`, from an alignment on. -/
def Infos.getAlign : Infos → BitVec 32 → BitVec 32
  | .nil, al => al
  | .cons argT rest, al => rest.getAlign (intMax al argT.getTypeAlign)

end

mutual

def Info.getTypeSize : Info → BitVec 32
  | .mk type dim _ => getDimSize dim * type.getTypeBaseSize

def InfoType.getTypeBaseSize : InfoType → BitVec 32
  | .scalar type => BitVec.ofNat 32 type.size
  | .enumeration type => BitVec.ofNat 32 type.size
  | .handle type => BitVec.ofNat 32 type.size
  | .structure size _ => size
  | .tuple argTypes => alignInt (argTypes.sizeLoop 0) (argTypes.getAlign 0)
  | .variant argTypes =>
    alignInt (argTypes.maxLoop (argTypes.getAlign 4) 0) (argTypes.getAlign 4)

/-- The loop of `getTupleSize`. -/
def Infos.sizeLoop : Infos → BitVec 32 → BitVec 32
  | .nil, size => size
  | .cons argT rest, size =>
    rest.sizeLoop (alignInt size argT.getTypeAlign + argT.getTypeSize)

/-- The loop of `getVariantSize`. -/
def Infos.maxLoop : Infos → BitVec 32 → BitVec 32 → BitVec 32
  | .nil, _, maxSize => maxSize
  | .cons argT rest, align, maxSize =>
    rest.maxLoop align (intMax (alignInt 4 align + argT.getTypeSize) maxSize)

end

def Info.size : Info → BitVec 32
  | .mk _ _ size => size

/-- `getTupleFieldOffset`, from an offset on. -/
def Infos.getTupleFieldOffset : Infos → ℕ → BitVec 32 → BitVec 32
  | .nil, _, _ => -1
  | .cons argT _, 0, size => alignInt size argT.getTypeAlign
  | .cons argT rest, index + 1, size =>
    rest.getTupleFieldOffset index (alignInt size argT.getTypeAlign + argT.getTypeSize)

/-- `walk_tuple`: where it finds an entry, from an offset on. -/
def Infos.walkTuple : Infos → ℕ → BitVec 32 → BitVec 32
  | .nil, _, _ => -1
  | .cons argT _, 0, fieldOffset => alignInt fieldOffset argT.getTypeAlign
  | .cons argT rest, index + 1, fieldOffset =>
    rest.walkTuple index (alignInt fieldOffset argT.getTypeAlign + argT.size)

/-- `getVariantFieldOffset`, and where `walk_variant` finds what a variant has. -/
def Infos.getVariantFieldOffset (argTypes : Infos) : BitVec 32 :=
  alignInt 4 (argTypes.getAlign 4)

/-! ## The layout they are meant to be -/

open Layout

mutual

/-- The alignment of a type. -/
def TypeDecl.align : TypeDecl → ℕ
  | .scalar type => type.align
  | .enumeration baseType => baseType.scalar.align
  | .handle type => type.align
  | .structure structType => structType.align 1
  | .tuple argTypes => argTypes.align 1
  | .variant argTypes => argTypes.align 4
  | .fixedArray _ firstType => firstType.align

def Structure.align : Structure → ℕ → ℕ
  | .root fields, align => fields.align align
  | .child parent _ fields, align => fields.align (parent.align align)

def ArgTypes.align : ArgTypes → ℕ → ℕ
  | .nil, align => align
  | .cons argT rest, align => rest.align (max argT.align align)

end

mutual

/-- **The size of a type.** -/
def TypeDecl.size : TypeDecl → ℕ
  | .scalar type => type.size
  | .enumeration baseType => baseType.scalar.size
  | .handle type => type.size
  | .structure structType => structType.size
  | .tuple argTypes => roundUp (stop 0 argTypes.items) (argTypes.align 1)
  | .variant argTypes => roundUp (argTypes.payload (argTypes.align 4) 0) (argTypes.align 4)
  | .fixedArray fixedDim firstType => fixedDim * firstType.size

def Structure.size : Structure → ℕ
  | .root fields => roundUp (stop 0 fields.items) (fields.align 1)
  | .child parent cppLayout fields =>
    roundUp
      (stop (if cppLayout && !fields.isEmpty then parent.size else stop 0 parent.items)
        fields.items)
      (fields.align (parent.align 1))

/-- All fields, those of the parent first. -/
def Structure.items : Structure → List Item
  | .root fields => fields.items
  | .child parent _ fields => parent.items ++ fields.items

def ArgTypes.items : ArgTypes → List Item
  | .nil => []
  | .cons argT rest => ⟨argT.size, argT.align⟩ :: rest.items

/-- The end of the largest that a variant may have. -/
def ArgTypes.payload : ArgTypes → ℕ → ℕ → ℕ
  | .nil, _, maxSize => maxSize
  | .cons argT rest, align, maxSize =>
    rest.payload align (max (roundUp 4 align + argT.size) maxSize)

end

/-! ## What is claimed of it -/

/-- What a type has, if it is of these types. -/
def ArgTypes.Mem (t : TypeDecl) : ArgTypes → Prop
  | .nil => False
  | .cons argT rest => t = argT ∨ rest.Mem t

/-- A field of a structure, or of its parent. -/
def Structure.Mem (t : TypeDecl) : Structure → Prop
  | .root fields => fields.Mem t
  | .child parent _ fields => parent.Mem t ∨ fields.Mem t

/-- **A type occurs in another**, at any depth. -/
inductive Occurs : TypeDecl → TypeDecl → Prop
  | self (t : TypeDecl) : Occurs t t
  | field {t u : TypeDecl} {structType : Structure} (hmem : structType.Mem u)
      (hoccurs : Occurs t u) : Occurs t (.structure structType)
  | entry {t u : TypeDecl} {argTypes : ArgTypes} (hmem : argTypes.Mem u)
      (hoccurs : Occurs t u) : Occurs t (.tuple argTypes)
  | option {t u : TypeDecl} {argTypes : ArgTypes} (hmem : argTypes.Mem u)
      (hoccurs : Occurs t u) : Occurs t (.variant argTypes)
  | element {t u : TypeDecl} {fixedDim : ℕ+} (hoccurs : Occurs t u) :
      Occurs t (.fixedArray fixedDim u)

/-- No fields, own or inherited. -/
def Structure.NoFields : Structure → Prop
  | .root fields => fields = .nil
  | .child parent _ fields => parent.NoFields ∧ fields = .nil

/-- A structure without fields, or a tuple without entries. -/
def TypeDecl.NoFields : TypeDecl → Prop
  | .structure structType => structType.NoFields
  | .tuple argTypes => argTypes = .nil
  | _ => False

/-- Both find an entry at the same offset, and so does a walk. -/
def TypeDecl.OffsetsAgree : TypeDecl → Prop
  | .tuple argTypes => ∀ index < argTypes.items.length,
      argTypes.getTupleFieldOffset index 0 =
          (argTypes.makeArgs .nil).getTupleFieldOffset index 0 ∧
        argTypes.getTupleFieldOffset index 0 = (argTypes.makeArgs .nil).walkTuple index 0
  | .variant argTypes =>
    argTypes.getVariantFieldOffset = (argTypes.makeArgs .nil).getVariantFieldOffset
  | _ => True

/-- **The two layouts of a type agree.** -/
structure TypeDecl.Agrees (t : TypeDecl) : Prop where
  size : t.getSizeOf = t.makeTypeInfo.getTypeSize
  made : t.getSizeOf = t.makeTypeInfo.size
  align : t.getAlignOf = t.makeTypeInfo.getTypeAlign
  offsets : t.OffsetsAgree

/-- **A sound layout**: every part at a multiple of its alignment and inside, no two parts meeting;
what a variant has lies behind its index, and the elements of a fixed array are a multiple of their
alignment apart. -/
def TypeDecl.SoundParts : TypeDecl → Prop
  | .structure structType =>
    Laid 0 structType.items (structType.fieldOffsets.map BitVec.toNat)
      (TypeDecl.structure structType).getSizeOf.toNat
  | .tuple argTypes =>
    Laid 0 argTypes.items ((List.range argTypes.items.length).map fun index =>
      (argTypes.getTupleFieldOffset index 0).toNat) (TypeDecl.tuple argTypes).getSizeOf.toNat
  | .variant argTypes => ∀ t, argTypes.Mem t →
    Laid 4 [⟨t.size, t.align⟩] [argTypes.getVariantFieldOffset.toNat]
      (TypeDecl.variant argTypes).getSizeOf.toNat
  | .fixedArray _ firstType => firstType.align ∣ firstType.size
  | _ => True

/-- The sizes and alignments of `TypeDecl` are those of a sound layout. -/
structure TypeDecl.Sound (t : TypeDecl) : Prop where
  size : t.getSizeOf.toNat = t.size
  align : t.getAlignOf.toNat = t.align
  parts : t.SoundParts

end DaScript.TypeLayout
