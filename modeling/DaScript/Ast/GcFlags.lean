import Mathlib.Data.Fintype.Sum

/-!
# Ast/GcFlags — what a value may refer to

`TypeDecl::gcFlags` of `ast_typedecl.cpp`: whether a value of a type may hold, directly or behind
other references, one into the heap or one to a string.  Structures and annotations that have been
entered are kept, and are not entered again.
-/

namespace DaScript.GcFlags

/-! ## Types -/

/-- `Type`, of which `other` are those that `gcFlags` does not ask for. -/
inductive BaseType
  | tStructure | tTuple | tVariant | option | tArray | tTable | tFixedArray | tHandle | tString
  | tPointer | tLambda | tIterator | other
  deriving DecidableEq

/-- `TypeDecl`; structures are `S`, annotations of handled types are `A`. -/
inductive TypeDecl (S A : Type)
  | mk (baseType : BaseType) (structType : Option S) (ann : Option A)
    (firstType secondType : Option (TypeDecl S A)) (argTypes : List (TypeDecl S A))

def gcFlag_heap : BitVec 32 := 1

def gcFlag_stringHeap : BitVec 32 := 2

/-- `Structure::FieldDeclaration` -/
structure Field (S A : Type) where
  name : String
  type : TypeDecl S A
  privateField : Bool
  hasInitValue : Bool

structure Structure (S A : Type) where
  getMangledName : String
  isLambda : Bool
  isClass : Bool
  parent : Option S
  fields : List (Field S A)

/-- An annotation, by what `getGcFlags` goes through: flags of its own, and types. -/
structure Annotation (S A : Type) where
  gcFlags : BitVec 32
  types : List (TypeDecl S A)

/-- **The types of a program.**  Structures are known by their names, and fields by theirs. -/
structure Program (S A : Type) where
  struct : S → Structure S A
  ann : A → Annotation S A
  injective : ∀ s s', (struct s).getMangledName = (struct s').getMangledName → s = s'
  nodup : ∀ s, ((struct s).fields.map Field.name).Nodup
  noSpace : ∀ s, ∀ field ∈ (struct s).fields, ' ' ∉ field.name.toList

variable {S A : Type}

/-- What is entered once: structures (`dep`) and annotations (`depA`). -/
inductive Node (S A : Type)
  | struct (structType : S)
  | ann (ann : A)
  deriving DecidableEq

/-- Structures or annotations. -/
def Node.equiv : S ⊕ A ≃ Node S A where
  toFun := Sum.elim .struct .ann
  invFun
    | .struct s => .inl s
    | .ann a => .inr a
  left_inv := by rintro (_ | _) <;> rfl
  right_inv := by rintro (_ | _) <;> rfl

instance [Fintype S] [Fintype A] : Fintype (Node S A) := Fintype.ofEquiv (S ⊕ A) Node.equiv

namespace TypeDecl

variable (enter : Node S A → List (Node S A) → Option (BitVec 32 × List (Node S A)))

mutual

/-- `gcFlags`, where `enter` goes through a structure or an annotation. -/
def gcFlags : TypeDecl S A → List (Node S A) → Option (BitVec 32 × List (Node S A))
  | mk baseType structType ann firstType secondType argTypes, dep =>
    match baseType with
    | .tStructure =>
      match structType with
      | some structType => enter (.struct structType) dep
      | none => some (0, dep)
    | .tTuple | .tVariant | .option => gcFlagsAll argTypes dep
    | .tArray | .tTable => do
      let (gcf, dep) ← gcFlagsOf firstType dep
      let (gcf', dep) ← gcFlagsOf secondType dep
      some (gcFlag_heap ||| gcf ||| gcf', dep)
    | .tFixedArray => gcFlagsOf firstType dep
    | .tHandle =>
      match ann with
      | some ann => enter (.ann ann) dep
      | none => some (0, dep)
    | .tString => some (gcFlag_stringHeap, dep)
    | .tPointer => do
      let (gcf, dep) ← gcFlagsOf firstType dep
      some (gcFlag_heap ||| gcf, dep)
    | .tLambda | .tIterator => some (gcFlag_heap ||| gcFlag_stringHeap, dep)
    | .other => some (0, dep)

/-- `if ( firstType ) gcf |= firstType->gcFlags(dep,depA)` -/
def gcFlagsOf : Option (TypeDecl S A) → List (Node S A) → Option (BitVec 32 × List (Node S A))
  | none, dep => some (0, dep)
  | some type, dep => gcFlags type dep

/-- `for ( const auto & arg : argTypes ) gcf |= arg->gcFlags(dep,depA)` -/
def gcFlagsAll : List (TypeDecl S A) → List (Node S A) → Option (BitVec 32 × List (Node S A))
  | [], dep => some (0, dep)
  | type :: types, dep => do
    let (gcf, dep) ← gcFlags type dep
    let (gcf', dep) ← gcFlagsAll types dep
    some (gcf ||| gcf', dep)

end

end TypeDecl

namespace Program

variable (P : Program S A)

/-- The flags that a structure or an annotation has by itself. -/
def ownFlags : Node S A → BitVec 32
  | .struct s =>
    if (P.struct s).isLambda || (P.struct s).isClass then gcFlag_heap ||| gcFlag_stringHeap else 0
  | .ann a => (P.ann a).gcFlags

/-- The types that a structure or an annotation goes through. -/
def types : Node S A → List (TypeDecl S A)
  | .struct s => (P.struct s).fields.map Field.type
  | .ann a => (P.ann a).types

variable [DecidableEq S] [DecidableEq A]

/-- A structure or an annotation in `gcFlags`, so many of them deep at most. -/
def enter : ℕ → Node S A → List (Node S A) → Option (BitVec 32 × List (Node S A))
  | 0, _, _ => none
  | fuel + 1, node, dep =>
    if node ∈ dep then some (0, dep)
    else do
      let (gcf, dep) ← TypeDecl.gcFlagsAll (enter fuel) (P.types node) (node :: dep)
      some (P.ownFlags node ||| gcf, dep)

/-- `gcFlags`, so many structures deep at most. -/
def gcFlagsIn (fuel : ℕ) (type : TypeDecl S A) : Option (BitVec 32) :=
  (TypeDecl.gcFlags (P.enter fuel) type []).map Prod.fst

/-- `gcFlags`: no structure or annotation is entered twice. -/
def gcFlags [Fintype S] [Fintype A] (type : TypeDecl S A) : Option (BitVec 32) :=
  P.gcFlagsIn (Fintype.card (Node S A) + 1) type

end Program

/-! ## References -/

/-- Flags with one of a mask. -/
def Has (mask gcf : BitVec 32) : Prop := gcf &&& mask ≠ 0

instance (mask gcf : BitVec 32) : Decidable (Has mask gcf) := inferInstanceAs (Decidable (_ ≠ _))

@[simp] theorem has_or {mask gcf gcf' : BitVec 32} :
    Has mask (gcf ||| gcf') ↔ Has mask gcf ∨ Has mask gcf' := by
  rw [Has, Has, Has, BitVec.and_or_distrib_right, ← not_and_or]
  exact BitVec.or_eq_zero_iff.not

theorem has_union {mask mask' gcf : BitVec 32} :
    Has (mask ||| mask') gcf ↔ Has mask gcf ∨ Has mask' gcf := by
  rw [Has, Has, Has, BitVec.and_or_distrib_left, ← not_and_or]
  exact BitVec.or_eq_zero_iff.not

@[simp] theorem has_zero {mask : BitVec 32} : ¬ Has mask 0#32 := by
  simp [Has]

namespace TypeDecl

/-- The flags that a value of a type is there for itself. -/
def ownFlags : TypeDecl S A → BitVec 32
  | mk .tArray .. | mk .tTable .. | mk .tPointer .. => gcFlag_heap
  | mk .tString .. => gcFlag_stringHeap
  | mk .tLambda .. | mk .tIterator .. => gcFlag_heap ||| gcFlag_stringHeap
  | _ => 0

/-- The structure or annotation that a type is of. -/
def node : TypeDecl S A → Option (Node S A)
  | mk .tStructure structType .. => structType.map .struct
  | mk .tHandle _ ann .. => ann.map .ann
  | _ => none

/-- The types of what a value holds or refers to, structures apart. -/
def parts : TypeDecl S A → List (TypeDecl S A)
  | mk .tTuple _ _ _ _ argTypes | mk .tVariant _ _ _ _ argTypes | mk .option _ _ _ _ argTypes =>
    argTypes
  | mk .tArray _ _ firstType secondType _ | mk .tTable _ _ firstType secondType _ =>
    firstType.toList ++ secondType.toList
  | mk .tFixedArray _ _ firstType .. | mk .tPointer _ _ firstType .. => firstType.toList
  | _ => []

end TypeDecl

namespace Program

variable (P : Program S A)

/-- **A value of a type holds or refers to one of another**: in a field, as an alternative or an
element, or behind a pointer. -/
inductive RefersTo : TypeDecl S A → TypeDecl S A → Prop
  | part {type part : TypeDecl S A} (h : part ∈ type.parts) : RefersTo type part
  | field {type part : TypeDecl S A} {node : Node S A} (hnode : type.node = some node)
    (h : part ∈ P.types node) : RefersTo type part

/-- The flags of a type by itself. -/
def typeFlags (type : TypeDecl S A) : BitVec 32 :=
  type.ownFlags ||| (type.node.elim 0 P.ownFlags)

/-- **A value of a type may hold a reference**, directly or through a chain of references. -/
def MayHold (mask : BitVec 32) (type : TypeDecl S A) : Prop :=
  ∃ part, Relation.ReflTransGen P.RefersTo type part ∧ Has mask (P.typeFlags part)

variable {P} {mask : BitVec 32}

theorem MayHold.of_refersTo {type part : TypeDecl S A} (h : P.RefersTo type part)
    (hpart : P.MayHold mask part) : P.MayHold mask type := by
  obtain ⟨last, hchain, hlast⟩ := hpart
  exact ⟨last, hchain.head h, hlast⟩

theorem MayHold.of_flags {type : TypeDecl S A} (h : Has mask (P.typeFlags type)) :
    P.MayHold mask type :=
  ⟨type, .refl, h⟩

end Program

end DaScript.GcFlags
