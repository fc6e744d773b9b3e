import DaScript.Ast.GcFlags

/-!
# Ast/DebugInfo — what the collector reads of types

`makeStructureDebugInfo`, `makeTypeInfo` and `makeVariableDebugInfo` of
`ast_debug_info_helper.cpp`.  Nodes are kept by name, so that each is made once, and a structure is
known before its fields are.
-/

namespace DaScript.DebugInfo

open GcFlags

def flag_hasInitValue : BitVec 32 := 0x200
def flag_heapGC : BitVec 32 := 0x2000
def flag_stringHeapGC : BitVec 32 := 0x4000
def flag_private : BitVec 32 := 0x8000

namespace StructFlags

def flag_class : BitVec 32 := 1
def flag_lambda : BitVec 32 := 2
def flag_heapGC : BitVec 32 := 4
def flag_stringHeapGC : BitVec 32 := 8

end StructFlags

/-- `if ( cond ) flags |= flag` -/
def flagIf (cond : Bool) (flag : BitVec 32) : BitVec 32 := if cond then flag else 0

/-- `TypeInfo`; other nodes are known by their addresses. -/
structure TypeInfo where
  flags : BitVec 32 := 0
  structType : Option ℕ := none
  firstType : Option ℕ := none
  secondType : Option ℕ := none
  argTypes : List ℕ := []

structure VarInfo extends TypeInfo where
  name : String := ""
  nextGcField : ℕ := 0

structure StructInfo where
  flags : BitVec 32 := 0
  count : ℕ := 0
  fields : List ℕ := []
  firstGcField : ℕ := 0

/-- `DebugInfoHelper`, with the nodes that it has made. -/
structure Helper where
  structInfos : List StructInfo := []
  typeInfos : List TypeInfo := []
  varInfos : List VarInfo := []
  smn2s : List (String × ℕ) := []
  tmn2t : List (String × ℕ) := []
  vmn2v : List (String × ℕ) := []

/-- What is made, and the helper after it; `none` is a recursion that is too deep. -/
abbrev Make (α : Type) : Type := StateT Helper Option α

/-! ## Nodes -/

/-- A node for a structure, under its name. -/
def newStructInfo (mangledName : String) : Make ℕ := fun h =>
  some (h.structInfos.length, { h with
    structInfos := h.structInfos ++ [{}]
    smn2s := (mangledName, h.structInfos.length) :: h.smn2s })

/-- A node for a type, under its name. -/
def newTypeInfo (mangledName : String) : Make ℕ := fun h =>
  some (h.typeInfos.length, { h with
    typeInfos := h.typeInfos ++ [{}]
    tmn2t := (mangledName, h.typeInfos.length) :: h.tmn2t })

/-- A node for a variable, under no name yet. -/
def newVarInfo : Make ℕ := fun h =>
  some (h.varInfos.length, { h with varInfos := h.varInfos ++ [{}] })

def setStructInfo (at' : ℕ) (sti : StructInfo) : Make Unit := fun h =>
  some ((), { h with structInfos := h.structInfos.set at' sti })

def setTypeInfo (at' : ℕ) (info : TypeInfo) : Make Unit := fun h =>
  some ((), { h with typeInfos := h.typeInfos.set at' info })

def setVarInfo (at' : ℕ) (vi : VarInfo) : Make Unit := fun h =>
  some ((), { h with varInfos := h.varInfos.set at' vi })

/-- `vmn2v[mangledName] = vi` -/
def nameVarInfo (mangledName : String) (at' : ℕ) : Make Unit := fun h =>
  some ((), { h with vmn2v := (mangledName, at') :: h.vmn2v })

/-! ## The chain of fields -/

/-- `var->flags & (TypeInfo::flag_heapGC | TypeInfo::flag_stringHeapGC)` -/
def VarInfo.isGc (vi : VarInfo) : Bool := decide (Has (flag_heapGC ||| flag_stringHeapGC) vi.flags)

/-- The loop of `makeStructureDebugInfo` that puts fields into the chain. -/
structure Chain where
  varInfos : List VarInfo
  prev : Option ℕ
  firstGcField : ℕ

/-- `sti->fields[prev]->nextGcField = i` -/
def setNext (fields : List ℕ) (prev i : ℕ) (varInfos : List VarInfo) : List VarInfo :=
  match fields[prev]? with
  | none => varInfos
  | some at' => varInfos.modify at' fun vi => { vi with nextGcField := i }

/-- One field in that loop. -/
def Chain.link (fields : List ℕ) (c : Chain) (i : ℕ) : Chain :=
  match fields[i]?.bind fun at' => c.varInfos[at']? with
  | none => c
  | some vi =>
    if vi.isGc then
      match c.prev with
      | none => { c with firstGcField := i, prev := some i }
      | some prev => { c with varInfos := setNext fields prev i c.varInfos, prev := some i }
    else c

/-- `if (prev != -1) sti->fields[prev]->nextGcField = sti->count` -/
def Chain.finish (fields : List ℕ) (c : Chain) (count : ℕ) : List VarInfo :=
  match c.prev with
  | none => c.varInfos
  | some prev => setNext fields prev count c.varInfos

/-- The chain of a structure: where it starts, and its links. -/
def linkFields (sti : StructInfo) (varInfos : List VarInfo) : ℕ × List VarInfo :=
  if sti.count ≠ 0 ∧ Has (StructFlags.flag_heapGC ||| StructFlags.flag_stringHeapGC) sti.flags then
    let c := (List.range sti.count).foldl (Chain.link sti.fields) ⟨varInfos, none, sti.count⟩
    (c.firstGcField, c.finish sti.fields sti.count)
  else (sti.count, varInfos)

/-- The structure's node at the end of `makeStructureDebugInfo`, and its fields' links. -/
def setChain (at' : ℕ) (sti : StructInfo) : Make Unit := fun h =>
  let (firstGcField, varInfos) := linkFields sti h.varInfos
  some ((), { h with
    structInfos := h.structInfos.set at' { sti with firstGcField }
    varInfos })

/-- The fields that `BaseGcDataWalker::walk_struct` goes through, of at most so many. -/
def walkFields (sti : StructInfo) (varInfos : List VarInfo) : ℕ → ℕ → Option (List ℕ)
  | 0, _ => none
  | fuel + 1, i =>
    if i = sti.count then some []
    else do
      let vi ← sti.fields[i]?.bind fun at' => varInfos[at']?
      let rest ← walkFields sti varInfos fuel vi.nextGcField
      some (i :: rest)

/-! ## Making nodes -/

section Make

variable {S A : Type} [DecidableEq S] [DecidableEq A] [Fintype S] [Fintype A] (P : Program S A)
  (mangledName : TypeDecl S A → String)

/-- The name of a field's node. -/
def fieldName (s : S) (var : Field S A) : String :=
  (P.struct s).getMangledName ++ " field " ++ var.name

/-- `new TypeDecl(structType)` -/
def ofStructure (s : S) : TypeDecl S A := .mk .tStructure (some s) none none none []

/-- What is made by name: a structure, or the type of the structure that one is derived from. -/
inductive Request (S : Type)
  | struct (structType : S)
  | parent (structType : S)

/-- The flags of a type that the collector asks for. -/
def gcFlagsOf (type : TypeDecl S A) : Make (BitVec 32) := do
  let gcf ← liftM (P.gcFlags type)
  pure (flagIf (Has gcFlag_heap gcf) flag_heapGC |||
    flagIf (Has gcFlag_stringHeap gcf) flag_stringHeapGC)

/-- `makeTypeInfo(nullptr, type)`, of what its node is filled with. -/
def makeNamed (type : TypeDecl S A) (fill : Make TypeInfo) : Make ℕ := fun h =>
  match h.tmn2t.lookup (mangledName type) with
  | some info => some (info, h)
  | none => (do
    let info ← newTypeInfo (mangledName type)
    let filled ← fill
    setTypeInfo info filled
    pure info : Make ℕ) h

section Types

variable (make : Request S → Make ℕ)

/-- `info->structType = makeStructureDebugInfo(*elemType->structType)` -/
def makeStructType (baseType : BaseType) (structType : Option S) : Make (Option ℕ) :=
  match baseType, structType with
  | .tStructure, some s => do
    let sti ← make (.struct s)
    pure (some sti)
  | _, _ => pure none

/-- The type of the parent, where a structure has one. -/
def makeParentType (baseType : BaseType) (structType : Option S) : Make (Option ℕ) :=
  match baseType, structType with
  | .tStructure, some s =>
    match (P.struct s).parent with
    | some p => do
      let info ← make (.parent p)
      pure (some info)
    | none => pure none
  | _, _ => pure none

mutual

/-- `makeTypeInfo`, the node of `type`; `elemType` is where its fixed arrays end. -/
def fillTypeInfo (type : TypeDecl S A) : TypeDecl S A → Make TypeInfo
  | .mk .tFixedArray _ _ (some elemType) _ _ => fillTypeInfo type elemType
  | .mk baseType structType _ firstType secondType argTypes => do
    let sti ← makeStructType make baseType structType
    let flags ← gcFlagsOf P type
    let first ← (match firstType with
      | some _ => makeTypeInfoOf firstType
      | none => makeParentType P make baseType structType)
    let second ← makeTypeInfoOf secondType
    let args ← makeTypeInfoAll argTypes
    pure { flags, structType := sti, firstType := first, secondType := second, argTypes := args }

/-- `makeTypeInfo(nullptr, type)`, where there is a type. -/
def makeTypeInfoOf : Option (TypeDecl S A) → Make (Option ℕ)
  | none => pure none
  | some type => do
    let info ← makeNamed mangledName type (fillTypeInfo type type)
    pure (some info)

/-- `makeTypeInfo(nullptr, type)`, for all arguments. -/
def makeTypeInfoAll : List (TypeDecl S A) → Make (List ℕ)
  | [] => pure []
  | type :: types => do
    let info ← makeNamed mangledName type (fillTypeInfo type type)
    let infos ← makeTypeInfoAll types
    pure (info :: infos)

end

/-- `makeTypeInfo(nullptr, type)` -/
def makeTypeInfo (type : TypeDecl S A) : Make ℕ :=
  makeNamed mangledName type (fillTypeInfo P mangledName make type type)

/-- `makeVariableDebugInfo`, of a field. -/
def makeVariableDebugInfo (s : S) (var : Field S A) : Make ℕ := fun h =>
  match h.vmn2v.lookup (fieldName P s var) with
  | some vi => some (vi, h)
  | none => (do
    let vi ← newVarInfo
    let info ← fillTypeInfo P mangledName make var.type var.type
    setVarInfo vi { info with
      name := var.name
      flags := info.flags ||| flagIf var.hasInitValue flag_hasInitValue }
    nameVarInfo (fieldName P s var) vi
    pure vi : Make ℕ) h

/-- `if (var.privateField) vi->flags |= TypeInfo::flag_private` -/
def setPrivate (var : Field S A) (at' : ℕ) : Make Unit := fun h =>
  some ((), { h with varInfos := h.varInfos.modify at' fun vi =>
    { vi with flags := vi.flags ||| flagIf var.privateField flag_private } })

/-- The loop of `makeStructureDebugInfo` over the fields. -/
def makeFields (s : S) : List (Field S A) → Make (List ℕ)
  | [] => pure []
  | var :: vars => do
    let vi ← makeVariableDebugInfo P mangledName make s var
    setPrivate var vi
    let vis ← makeFields s vars
    pure (vi :: vis)

def makeStructureDebugInfo (s : S) : Make ℕ := fun h =>
  match h.smn2s.lookup (P.struct s).getMangledName with
  | some sti => some (sti, h)
  | none => (do
    let sti ← newStructInfo (P.struct s).getMangledName
    let gcf ← liftM (P.gcFlags (ofStructure s))
    let flags := flagIf (P.struct s).isClass StructFlags.flag_class |||
      flagIf (P.struct s).isLambda StructFlags.flag_lambda |||
      flagIf (Has gcFlag_heap gcf) StructFlags.flag_heapGC |||
      flagIf (Has gcFlag_stringHeap gcf) StructFlags.flag_stringHeapGC
    let count := (P.struct s).fields.length
    setStructInfo sti { flags, count }
    let fields ← makeFields P mangledName make s (P.struct s).fields
    setChain sti { flags, count, fields }
    pure sti : Make ℕ) h

end Types

/-- What is made by name, so many calls deep at most. -/
def make : ℕ → Request S → Make ℕ
  | 0, _ => fun _ => none
  | fuel + 1, .struct s => makeStructureDebugInfo P mangledName (make fuel) s
  | fuel + 1, .parent p => makeTypeInfo P mangledName (make fuel) (ofStructure p)

/-- Debug info is made of structures and of types, as they are asked for. -/
def makeAll (fuel : ℕ) : List (S ⊕ TypeDecl S A) → Make Unit
  | [] => pure ()
  | .inl s :: rest => do
    let _ ← makeStructureDebugInfo P mangledName (make P mangledName fuel) s
    makeAll fuel rest
  | .inr type :: rest => do
    let _ ← makeTypeInfo P mangledName (make P mangledName fuel) type
    makeAll fuel rest

end Make

end DaScript.DebugInfo
