import Mathlib.Tactic

/-!
# Simulate/TypeInfo — what a program knows of its types when it runs

`TypeInfo` and `StructInfo` of `simulate/debug_info.h`, as far as walking data needs them: sizes,
alignments, the hashes the compiler gave, and where the parts of a composite type lie.  The entries
of a tuple keep the offsets of `TypeDecl::getTupleFieldOffset`; a walk computes its own
(`DataWalker::walk_tuple`), from alignments an empty structure has none of.
-/

namespace DaScript

/-- The types written as their bytes: scalars, vectors, ranges and bitfields. -/
inductive Scalar
  | tBool | tInt8 | tUInt8 | tInt16 | tUInt16 | tInt64 | tUInt64
  | tInt | tInt2 | tInt3 | tInt4
  | tUInt | tBitfield | tBitfield8 | tBitfield16 | tBitfield64
  | tUInt2 | tUInt3 | tUInt4
  | tFloat | tFloat2 | tFloat3 | tFloat4 | tDouble
  | tRange | tURange | tRange64 | tURange64
  deriving DecidableEq, Repr

namespace Scalar

/-- `getTypeBaseSize` -/
def size : Scalar → ℕ
  | tBool | tInt8 | tUInt8 | tBitfield8 => 1
  | tInt16 | tUInt16 | tBitfield16 => 2
  | tInt | tUInt | tBitfield | tFloat => 4
  | tInt64 | tUInt64 | tBitfield64 | tDouble | tInt2 | tUInt2 | tFloat2 | tRange | tURange => 8
  | tInt3 | tUInt3 | tFloat3 => 12
  | tInt4 | tUInt4 | tFloat4 | tRange64 | tURange64 => 16

/-- `getTypeBaseAlign` -/
def align : Scalar → ℕ
  | tBool | tInt8 | tUInt8 | tBitfield8 => 1
  | tInt16 | tUInt16 | tBitfield16 => 2
  | tInt64 | tUInt64 | tBitfield64 | tDouble | tRange64 | tURange64 => 8
  | _ => 4

theorem size_bounds (s : Scalar) : 0 < s.size ∧ s.size ≤ 16 := by cases s <;> decide

end Scalar

/-- The width of an enumeration. -/
inductive EnumWidth
  | tEnumeration | tEnumeration8 | tEnumeration16 | tEnumeration64
  deriving DecidableEq, Repr

namespace EnumWidth

/-- `getTypeBaseSize`, and `getTypeBaseAlign`. -/
def size : EnumWidth → ℕ
  | tEnumeration => 4
  | tEnumeration8 => 1
  | tEnumeration16 => 2
  | tEnumeration64 => 8

theorem size_bounds (w : EnumWidth) : 0 < w.size ∧ w.size ≤ 16 := by cases w <;> decide

end EnumWidth

mutual

/-- **`TypeInfo`** — a type with `dimSize` set is one `dim`, whose `elem` is the type `walk_dim`
makes of it. -/
inductive TypeInfo
  | scalar (type : Scalar)
  | enumeration (type : EnumWidth) (enumHash : ℕ)
  | string
  | struct (hash size : ℕ) (fields : Fields)
  | tuple (size : ℕ) (argTypes : Fields)
  | dim (hash dimSize count : ℕ) (elem : TypeInfo)
  | array (hash : ℕ) (firstType : TypeInfo)
  | variant (size : ℕ) (argTypes : Fields)
  | function
  | lambda
  | handle (hash size align : ℕ)
  /-- tables, pointers, iterators, blocks, null pointers: what is not serialized -/
  | unsupported (size : ℕ) (message : String)

/-- The fields of a structure, the entries of a tuple or a variant: where each lies, and what. -/
inductive Fields
  | nil
  | cons (offset : ℕ) (info : TypeInfo) (rest : Fields)

end

/-- `sizeof(Array)` -/
def sizeofArray : ℕ := 40

namespace TypeInfo

def size : TypeInfo → ℕ
  | scalar t => t.size
  | enumeration t _ => t.size
  | string => 8
  | struct _ size _ => size
  | tuple size _ => size
  | dim _ _ count elem => count * elem.size
  | array _ _ => sizeofArray
  | variant size _ => size
  | function => 8
  | lambda => 8
  | handle _ size _ => size
  | unsupported size _ => size

/-- `isRefType`: the types `binary_save` and `binary_load` take. -/
def isRefType : TypeInfo → Bool
  | struct .. | tuple .. | dim .. | array .. | variant .. | handle .. => true
  | _ => false

end TypeInfo

mutual

/-- `getTypeAlign` -/
def TypeInfo.align : TypeInfo → ℕ
  | .scalar t => t.align
  | .enumeration t _ => t.size
  | .string => 8
  | .struct _ _ fields => fields.align
  | .tuple _ argTypes => argTypes.align
  | .dim _ _ _ elem => elem.align
  | .array _ _ => 8
  | .variant _ argTypes => max 4 argTypes.align
  | .function => 8
  | .lambda => 8
  | .handle _ _ align => align
  | .unsupported _ _ => 8

/-- `getStructAlign` and `getTupleAlign`: none at all without fields. -/
def Fields.align : Fields → ℕ
  | .nil => 0
  | .cons _ info rest => max info.align rest.align

end

/-- `(offset + fa) & ~fa` for `fa = align - 1`; without an alignment `fa` is -1, which clears. -/
def alignOffset (align offset : ℕ) : ℕ :=
  if align = 0 then 0 else (offset + (align - 1)) / align * align

/-! ## Layouts the compiler makes -/

/-- The offsets of `TypeDecl::getTupleFieldOffset`: nothing is aligned to less than a byte. -/
def Fields.Compiled : Fields → ℕ → Prop
  | .nil, _ => True
  | .cons offset info rest, start =>
    offset = alignOffset (max 1 info.align) start ∧ rest.Compiled (offset + info.size)

mutual

/-- **A type as the compiler lays it out** — the parts of a composite type lie one behind the other
inside it; hashes and counts fit the integers they are kept in. -/
def TypeInfo.WellFormed : TypeInfo → Prop
  | .scalar _ => True
  | .enumeration _ enumHash => enumHash < 2 ^ 64
  | .string => True
  | .struct hash size fields => hash < 2 ^ 64 ∧ fields.Inside 0 size
  | .tuple size argTypes => argTypes ≠ .nil ∧ argTypes.Compiled 0 ∧ argTypes.Inside 0 size
  | .dim hash dimSize _ elem => hash < 2 ^ 64 ∧ dimSize < 2 ^ 32 ∧ elem.WellFormed
  | .array hash firstType => hash < 2 ^ 64 ∧ firstType.WellFormed
  | .variant .. | .function | .lambda | .handle .. | .unsupported .. => False

/-- The fields lie between `start` and `size`, in their order. -/
def Fields.Inside : Fields → ℕ → ℕ → Prop
  | .nil, start, size => start ≤ size
  | .cons offset info rest, start, size =>
    start ≤ offset ∧ info.WellFormed ∧ rest.Inside (offset + info.size) size

end

theorem Fields.Inside.le_size : ∀ (fields : Fields) {start size : ℕ},
    fields.Inside start size → start ≤ size
  | .nil, _, _, h => h
  | .cons _ _ rest, _, _, h => by
    have := Fields.Inside.le_size rest h.2.2
    exact h.1.trans (by omega)

mutual

/-- **A walk finds the entries of every tuple where the compiler put them.** -/
def TypeInfo.Laid : TypeInfo → Prop
  | .struct _ _ fields => fields.Laid
  | .tuple _ argTypes => argTypes.Walked 0
  | .dim _ _ _ elem => elem.Laid
  | .array _ firstType => firstType.Laid
  | _ => True

def Fields.Laid : Fields → Prop
  | .nil => True
  | .cons _ info rest => info.Laid ∧ rest.Laid

/-- The offsets `walk_tuple` computes from `fieldOffset` on are those of the entries. -/
def Fields.Walked : Fields → ℕ → Prop
  | .nil, _ => True
  | .cons offset info rest, fieldOffset =>
    alignOffset info.align fieldOffset = offset ∧ info.Laid ∧ rest.Walked (offset + info.size)

end

end DaScript
