import DaScript.Daslib.Algorithm
import DaScript.Machinery.Generations
import DaScript.Machinery.Stateful
import DaScript.Simulate.BinSerializer

/-!
# Daslib/Decs — entities, archetypes and what is deferred

The state of `daslib/decs.das` and its operations.  An entity is found through its slot in
`entityLookup`, which has the generation that is alive, the archetype and the index of its row.

Creating takes an id at once, from the top of `entityFreeList` or past the end of the table;
everything else of `create_entity`, `update_entity` and `delete_entity` waits for `commit`.  What
panics leaves what it did before.

The callbacks see their entity and its component map, or panic.  Names are of any linear order, and
`Naming` has what is particular about them.  Arrays are shorter than an `int` can count, where the
source does not check that they are.
-/

namespace DaScript.Decs

open Algorithm Stateful

/-! ## Data -/

abbrev ComponentHash := BitVec 64

/-- `CTypeInfo`: what is compared of a type, and its size. -/
structure CTypeInfo where
  hash : BitVec 64
  size : ℕ
  deriving DecidableEq

/-- `EntityId`: `id` and `generation`. -/
abbrev EntityId := Generations.Handle 32

def invalidEntityId : EntityId := ⟨0, 0⟩

def maxEntityId : ℕ := 0xFFFFFFFF

structure Component (Name : Type) where
  name : Name
  hash : ComponentHash
  stride : ℕ
  data : List UInt8
  info : CTypeInfo

/-- `ComponentValue`; the data is 64 bytes. -/
structure ComponentValue (Name : Type) where
  name : Name
  info : CTypeInfo
  data : List UInt8

abbrev ComponentMap (Name : Type) := List (ComponentValue Name)

structure Archetype (Name : Type) where
  hash : ComponentHash
  components : List (Component Name)
  size : ℤ
  eidIndex : ℤ

structure EcsRequest (Name : Type) where
  hash : ComponentHash
  req : List Name
  reqn : List Name
  archetypes : List ℕ

/-- A slot of `entityLookup`. -/
structure Lookup where
  generation : BitVec 32
  archetype : ComponentHash
  index : ℤ
  deriving DecidableEq

/-- What a callback makes of the components of an entity; `none` where it panics. -/
abbrev Fill (Name : Type) := EntityId → ComponentMap Name → Option (ComponentMap Name)

/-- `DeferAction` -/
inductive Action (Name : Type)
  | create (eid : EntityId) (blk : Fill Name)
  | update (eid : EntityId) (blk : Fill Name)
  | delete (eid : EntityId)

/-- `DecsState` and the other variables of the module.  A table that gives 0, or what has hash 0,
where it has nothing is a function.  `entityFreeList` has its top first.  `issued` is not of the
source, and nothing reads it: the ids the creating operations have taken, the last first. -/
structure World (Name : Type) where
  archetypeLookup : ComponentHash → ℕ
  allArchetypes : List (Archetype Name)
  entityFreeList : List EntityId
  entityLookup : List Lookup
  componentTypeCheck : Name → CTypeInfo
  ecsQueries : List (EcsRequest Name)
  queryLookup : ComponentHash → ℕ
  deferActions : List (Action Name)
  insideQuery : ℕ
  issued : List EntityId

/-- The state of a program that begins. -/
def World.initial (Name : Type) : World Name where
  archetypeLookup := fun _ => 0
  allArchetypes := []
  entityFreeList := []
  entityLookup := []
  componentTypeCheck := fun _ => ⟨0, 0⟩
  ecsQueries := []
  queryLookup := fun _ => 0
  deferActions := []
  insideQuery := 0
  issued := []

/-- Where an operation panics. -/
inductive Panic
  | insideQuery
  | outOfRange
  | tooMany
  | typeMismatch
  | differs
  | assertion
  | callback
  deriving DecidableEq

/-- An operation. -/
abbrev Run (Name : Type) := EStateM Panic (World Name)

/-- What is particular about names: which is `eid`, how they are hashed, and the hash of the type
of `eid`. -/
structure Naming (Name : Type) where
  eid : Name
  hash : Name → ComponentHash
  eidType : BitVec 64

variable {Name : Type} [LinearOrder Name] (N : Naming Name)

/-- `a[i]` -/
def at' {α : Type} (a : List α) (i : ℤ) : Option α := if 0 ≤ i then a[i.toNat]? else none

/-! ## Component maps -/

/-- The bytes of an `EntityId`, and those of its `ComponentValue` after them. -/
def eidBytes (eid : EntityId) : List UInt8 :=
  leBytes 4 eid.id ++ leBytes 4 eid.generation.toNat ++ List.replicate 56 0

/-- `make_component("eid", eid)` -/
def makeEid (eid : EntityId) : ComponentValue Name := ⟨N.eid, ⟨N.eidType, 8⟩, eidBytes eid⟩

/-- `set(cmp, name, value)`, of what `make_component` gives. -/
def set (cmp : ComponentMap Name) (cv : ComponentValue Name) : Option (ComponentMap Name) :=
  let idx := lowerBound cmp fun x => x.name < cv.name
  match cmp[idx]? with
  | some old =>
    if old.name = cv.name then
      if old.info.hash ≠ cv.info.hash then none else some (List.set cmp idx cv)
    else some (cmp.insertIdx idx cv)
  | none => some (cmp.insertIdx idx cv)

/-- `remove(cmp, name)` -/
def remove (cmp : ComponentMap Name) (name : Name) : ComponentMap Name :=
  let idx := lowerBound cmp fun x => x.name < name
  if cmp[idx]?.any fun x => x.name = name then cmp.eraseIdx idx else cmp

def cmpArchetypeHash (cmp : ComponentMap Name) : ComponentHash :=
  cmp.foldl (fun ahash kv => ahash.rotateLeft 2 ^^^ N.hash kv.name) 0

/-! ## Requests -/

/-- `has(arch, name)` -/
def Archetype.has (arch : Archetype Name) (name : Name) : Bool :=
  binarySearch arch.components (fun x => x.name < name) fun x => name < x.name

def canProcessRequest (erq : EcsRequest Name) (arch : Archetype Name) : Bool :=
  erq.hash = arch.hash ∨ (∀ r ∈ erq.req, arch.has r) ∧ ∀ r ∈ erq.reqn, ¬arch.has r

/-! ## Archetypes -/

/-- What happens to an archetype through a reference to it. -/
def changeArchetype (idx : ℕ) (f : Archetype Name → Archetype Name) : Run Name Unit :=
  modify fun w => { w with allArchetypes := w.allArchetypes.modify idx f }

def withArchetype (hash : ComponentHash) (blk : ℕ → Bool → Run Name Unit) : Run Name Unit := do
  let w ← get
  let isNew : Bool := w.archetypeLookup hash = 0
  onlyIf isNew <| modify fun w => { w with
    allArchetypes := w.allArchetypes ++ [⟨hash, [], 0, 0⟩]
    archetypeLookup := Function.update w.archetypeLookup hash (w.allArchetypes.length + 1) }
  let w ← get
  modify fun w => { w with insideQuery := w.insideQuery + 1 }
  blk (w.archetypeLookup hash - 1) isNew
  modify fun w => { w with insideQuery := w.insideQuery - 1 }

/-- One turn of the loop of `create_archetype`. -/
def createComponent (idx : ℕ) (kv : ComponentValue Name × ℕ) : Run Name Unit := do
  let w ← get
  let ct := w.componentTypeCheck kv.1.name
  stopIf .typeMismatch (ct.hash ≠ 0 ∧ kv.1.info.hash ≠ ct.hash)
  onlyIf (ct.hash = 0) <| modify fun w => { w with
    componentTypeCheck := Function.update w.componentTypeCheck kv.1.name kv.1.info }
  changeArchetype idx fun arch => { arch with
    components := arch.components ++
      [⟨kv.1.name, N.hash kv.1.name, kv.1.info.size, [], kv.1.info⟩] }
  onlyIf (kv.1.name = N.eid) do
    let arch ← orStop .outOfRange w.allArchetypes[idx]?
    stopIf .assertion (arch.eidIndex ≠ -1)
    changeArchetype idx fun arch => { arch with eidIndex := kv.2 }

def createArchetype (idx : ℕ) (cmp : ComponentMap Name) : Run Name Unit := do
  changeArchetype idx fun arch => { arch with eidIndex := -1 }
  cmp.zipIdx.forM (createComponent N idx)
  let w ← get
  let arch ← orStop .outOfRange w.allArchetypes[idx]?
  stopIf .assertion (arch.eidIndex = -1)
  modify fun w => { w with
    ecsQueries := w.ecsQueries.map fun erq =>
      if canProcessRequest erq arch then { erq with archetypes := erq.archetypes ++ [idx] }
      else erq }

/-! ## Rows -/

/-- `memcpy(addr(a[i]), bytes)`, after the check of `a[i]`. -/
def copyIn (a : List UInt8) (i : ℤ) (bytes : List UInt8) : Option (List UInt8) :=
  if 0 ≤ i ∧ i < a.length then
    some (a.take i.toNat ++ bytes ++ a.drop (i.toNat + bytes.length))
  else none

/-- The bytes `memcpy` reads from `addr(a[i])`, after the check of `a[i]`. -/
def copyOut (a : List UInt8) (i : ℤ) (size : ℕ) : Option (List UInt8) :=
  if 0 ≤ i ∧ i < a.length then some ((a.drop i.toNat).take size) else none

/-- A loop over the columns of an archetype and the values of a map.  What a column becomes comes
with whether the loop goes on. -/
def eachColumn (f : Component Name → ComponentValue Name → Component Name × Bool) :
    List (Component Name) → ComponentMap Name → List (Component Name) × Bool
  | c :: components, comp :: cmp =>
    if (f c comp).2 then
      ((f c comp).1 :: (eachColumn f components cmp).1, (eachColumn f components cmp).2)
    else ((f c comp).1 :: components, false)
  | components, _ => (components, true)

/-- `memcpy(addr(c.data[eidx * int64(c.stride)]), addr(comp.data), c.stride)` -/
def Component.write (c : Component Name) (eidx : ℤ) (comp : ComponentValue Name) :
    Component Name × Bool :=
  match copyIn c.data (eidx * c.stride) (comp.data.take c.stride) with
  | some data => ({ c with data := data }, true)
  | none => (c, false)

/-- `c.data |> resize(length)`, with zeros where it grows. -/
def Component.resize (c : Component Name) (length : ℕ) : Component Name :=
  { c with data := c.data.take length ++ List.replicate (length - c.data.length) 0 }

/-- The row of a map, written in every column. -/
def writeRow (idx : ℕ) (eidx : ℤ) (cmp : ComponentMap Name)
    (grow : Component Name → Component Name) : Run Name Unit := do
  let w ← get
  let arch ← orStop .outOfRange w.allArchetypes[idx]?
  let columns := eachColumn (fun c comp => (grow c).write eidx comp) arch.components cmp
  changeArchetype idx fun arch => { arch with components := columns.1 }
  stopIf .outOfRange (columns.2 = false)

/-- `create_entity(arch, eid, cmp)` -/
def createRow (idx : ℕ) (cmp : ComponentMap Name) : Run Name ℤ := do
  let w ← get
  let arch ← orStop .outOfRange w.allArchetypes[idx]?
  changeArchetype idx fun arch => { arch with size := arch.size + 1 }
  writeRow idx arch.size cmp fun c => c.resize (c.data.length + c.stride)
  return arch.size

/-- `get_eid(arch, index).id` -/
def Archetype.getEidId (arch : Archetype Name) (index : ℤ) : Option ℕ :=
  (at' arch.components arch.eidIndex).bind fun ceid =>
    (copyOut ceid.data (index * ceid.stride) 4).map leNat

/-- A slot of `entityLookup`, written after the check of its index. -/
def changeLookup (id : ℕ) (f : Lookup → Lookup) : Run Name Unit := do
  let w ← get
  stopIf .outOfRange (w.entityLookup.length ≤ id)
  modify fun w => { w with entityLookup := w.entityLookup.modify id f }

/-- The last row of a column, copied over another. -/
def Component.fillHole (c : Component Name) (di last : ℤ) : Option (Component Name) :=
  (copyOut c.data (last * c.stride) c.stride).bind fun bytes =>
    (copyIn c.data (di * c.stride) bytes).map fun data => { c with data := data }

/-- The loop that fills the hole, as far as it gets. -/
def fillHoles (di last : ℤ) : List (Component Name) → List (Component Name) × Bool
  | [] => ([], true)
  | c :: components =>
    match c.fillHole di last with
    | some c => (c :: (fillHoles di last components).1, (fillHoles di last components).2)
    | none => (c :: components, false)

/-- `remove_entity(arch, di)` -/
def removeRow (idx : ℕ) (di : ℤ) : Run Name Unit := do
  changeArchetype idx fun arch => { arch with size := arch.size - 1 }
  let w ← get
  let arch ← orStop .outOfRange w.allArchetypes[idx]?
  onlyIf (di ≠ arch.size) do
    let eidLastId ← orStop .outOfRange (arch.getEidId arch.size)
    changeLookup eidLastId fun lookup => { lookup with index := di }
    let columns := fillHoles di arch.size arch.components
    changeArchetype idx fun arch => { arch with components := columns.1 }
    stopIf .outOfRange (columns.2 = false)
  stopIf .outOfRange (arch.size < 0)
  changeArchetype idx fun arch => { arch with
    components := arch.components.map fun c => c.resize (arch.size.toNat * c.stride) }

/-! ## What is deferred, and done in the end -/

/-- The index of an archetype, less the one that `archetypeLookup` adds. -/
def archetypeIndex (w : World Name) (hash : ComponentHash) : Option ℕ :=
  match w.archetypeLookup hash with
  | 0 => none
  | found + 1 => some found

/-- The block that `create_entity_imm` and `update_entity_imm` give to `with_archetype`. -/
def place (eid : EntityId) (cmp : ComponentMap Name) (hash : ComponentHash) : Run Name Unit :=
  withArchetype hash fun idx isNew => do
    onlyIf isNew (createArchetype N idx cmp)
    let eidx ← createRow idx cmp
    changeLookup eid.id fun _ => ⟨eid.generation, hash, eidx⟩

def createEntityImm (eid : EntityId) (blk : Fill Name) : Run Name Unit := do
  let cmp ← orStop .callback (blk eid [makeEid N eid])
  let cmp ← orStop .typeMismatch (set cmp (makeEid N eid))
  place N eid cmp (cmpArchetypeHash N cmp)

/-- The value of a component, in 64 bytes. -/
def Component.value (c : Component Name) (eidx : ℤ) : Option (ComponentValue Name) :=
  (copyOut c.data (eidx * c.stride) c.stride).map fun bytes =>
    ⟨c.name, c.info, bytes ++ List.replicate (64 - bytes.length) 0⟩

def updateEntityImm (eid : EntityId) (blk : Fill Name) : Run Name Unit := do
  let w ← get
  let lookup ← orStop .outOfRange w.entityLookup[eid.id]?
  onlyIf (lookup.generation = eid.generation) do
    let idx ← orStop .outOfRange (archetypeIndex w lookup.archetype)
    let arch ← orStop .outOfRange w.allArchetypes[idx]?
    let cmp ← orStop .outOfRange (arch.components.mapM fun c => c.value lookup.index)
    let cmp ← orStop .callback (blk eid cmp)
    let cmp ← orStop .typeMismatch (set cmp (makeEid N eid))
    let newAhash := cmpArchetypeHash N cmp
    if arch.hash = newAhash then
      writeRow idx lookup.index cmp id
    else do
      removeRow idx lookup.index
      place N eid cmp newAhash

def deleteEntityImm (eid : EntityId) : Run Name Unit := do
  let w ← get
  let lookup ← orStop .outOfRange w.entityLookup[eid.id]?
  onlyIf (lookup.generation = eid.generation) do
    modify fun w => { w with
      entityLookup := w.entityLookup.modify eid.id fun lookup => { lookup with generation := 0 }
      entityFreeList := eid :: w.entityFreeList }
    let idx ← orStop .outOfRange (archetypeIndex w lookup.archetype)
    removeRow idx lookup.index

/-- What a deferred action does. -/
def carryOut : Action Name → Run Name Unit
  | .create eid blk => createEntityImm N eid blk
  | .update eid blk => updateEntityImm N eid blk
  | .delete eid => deleteEntityImm eid

def commit : Run Name Unit := do
  let w ← get
  stopIf .insideQuery (w.insideQuery ≠ 0)
  modify fun w => { w with deferActions := [] }
  w.deferActions.forM (carryOut N)

/-! ## What is called -/

/-- An id that has been taken. -/
def issue (eid : EntityId) : Run Name Unit :=
  modify fun w => { w with issued := eid :: w.issued }

def newEntityId : Run Name EntityId := do
  let w ← get
  match w.entityFreeList with
  | eid :: rest =>
    modify fun w => { w with entityFreeList := rest }
    issue { eid with generation := eid.generation + 1 }
    return { eid with generation := eid.generation + 1 }
  | [] =>
    stopIf .tooMany (maxEntityId < w.entityLookup.length)
    modify fun w => { w with entityLookup := w.entityLookup ++ [⟨0, 0, 0⟩] }
    issue ⟨w.entityLookup.length, 1⟩
    return ⟨w.entityLookup.length, 1⟩

/-- An action, put off. -/
def defer (action : Action Name) : Run Name Unit :=
  modify fun w => { w with deferActions := w.deferActions ++ [action] }

def createEntity (blk : Fill Name) : Run Name Unit := do
  let eid ← newEntityId
  defer (.create eid blk)

/-- A row of `create_entities`, with its slot. -/
def fillRow (idx : ℕ) (ahash : ComponentHash) (eid : EntityId) (eidx : ℤ)
    (cmp : ComponentMap Name) : Run Name Unit := do
  writeRow idx eidx cmp id
  changeLookup eid.id fun _ => ⟨eid.generation, ahash, eidx⟩

/-- The loop of `create_entities`, which goes on with the map the last turn has left. -/
def fillRows (idx : ℕ) (ahash : ComponentHash) (base : ℤ)
    (blk : ℕ → Fill Name) : ℕ → ℕ → ComponentMap Name → Run Name Unit
  | 0, _, _ => pure ()
  | more + 1, i, cmp => do
    let eid ← newEntityId
    let cmp ← orStop .typeMismatch (set cmp (makeEid N eid))
    let cmp ← orStop .callback (blk i eid cmp)
    let cmp ← orStop .typeMismatch (set cmp (makeEid N eid))
    stopIf .differs (cmpArchetypeHash N cmp ≠ ahash)
    fillRow idx ahash eid (base + i) cmp
    fillRows idx ahash base blk more (i + 1) cmp

def createEntities (count : ℤ) (blk : ℕ → Fill Name) : Run Name Unit := onlyIf (0 < count) do
  let w ← get
  stopIf .insideQuery (w.insideQuery ≠ 0)
  let firstEid ← newEntityId
  let cmp ← orStop .callback (blk 0 firstEid [makeEid N firstEid])
  let cmp ← orStop .typeMismatch (set cmp (makeEid N firstEid))
  let ahash := cmpArchetypeHash N cmp
  withArchetype ahash fun idx isNew => do
    onlyIf isNew (createArchetype N idx cmp)
    let w ← get
    let arch ← orStop .outOfRange w.allArchetypes[idx]?
    changeArchetype idx fun arch => { arch with
      components := arch.components.map fun c =>
        c.resize (c.data.length + c.stride * count.toNat) }
    fillRow idx ahash firstEid arch.size cmp
    fillRows N idx ahash arch.size blk (count.toNat - 1) 1 cmp
    changeArchetype idx fun arch => { arch with size := arch.size + count }

/-- What `create_entities_from_cmp` fills an archetype with, at an index, for an entity. -/
abbrev FillBlk (Name : Type) := Archetype Name → ℤ → EntityId → ℕ → Option (Archetype Name)

/-- The ids that `create_entities_from_cmp` takes. -/
def direct (idBase count : ℕ) : List EntityId := (List.range' idBase count).map fun id => ⟨id, 1⟩

/-- The loop of `create_entities_from_cmp`. -/
def fillDirect (idx : ℕ) (ahash : ComponentHash) (base : ℤ) (idBase : ℕ)
    (fillBlk : FillBlk Name) : ℕ → ℕ → Run Name Unit
  | 0, _ => pure ()
  | more + 1, i => do
    let eid : EntityId := ⟨idBase + i, 1⟩
    let w ← get
    let arch ← orStop .outOfRange w.allArchetypes[idx]?
    let arch ← orStop .callback (fillBlk arch (base + i) eid i)
    changeArchetype idx fun _ => arch
    changeLookup eid.id fun _ => ⟨eid.generation, ahash, base + i⟩
    fillDirect idx ahash base idBase fillBlk more (i + 1)

def createEntitiesFromCmp (count : ℤ) (cmp : ComponentMap Name) (fillBlk : FillBlk Name) :
    Run Name Unit := onlyIf (0 < count) do
  let w ← get
  stopIf .insideQuery (w.insideQuery ≠ 0)
  let cmp ← orStop .typeMismatch (set cmp (makeEid N invalidEntityId))
  let ahash := cmpArchetypeHash N cmp
  withArchetype ahash fun idx isNew => do
    onlyIf isNew (createArchetype N idx cmp)
    let w ← get
    let arch ← orStop .outOfRange w.allArchetypes[idx]?
    changeArchetype idx fun arch => { arch with
      components := arch.components.map fun c =>
        c.resize (c.data.length + c.stride * count.toNat) }
    stopIf .tooMany ((maxEntityId : ℤ) < w.entityLookup.length + count - 1)
    modify fun w => { w with
      entityLookup := w.entityLookup ++ List.replicate count.toNat ⟨0, 0, 0⟩
      issued := direct w.entityLookup.length count.toNat ++ w.issued }
    stopIf .tooMany (0x7FFFFFFF < arch.size + count - 1)
    fillDirect idx ahash arch.size w.entityLookup.length fillBlk count.toNat 0
    changeArchetype idx fun arch => { arch with size := arch.size + count }

def isAlive (w : World Name) (eid : EntityId) : Bool :=
  eid ≠ invalidEntityId ∧ w.entityLookup[eid.id]?.any fun lookup =>
    lookup.generation = eid.generation

/-- A call of the module. -/
inductive Call (Name : Type)
  | createEntity (blk : Fill Name)
  | createEntities (count : ℤ) (blk : ℕ → Fill Name)
  | createEntitiesFromCmp (count : ℤ) (cmp : ComponentMap Name) (fillBlk : FillBlk Name)
  | updateEntity (eid : EntityId) (blk : Fill Name)
  | deleteEntity (eid : EntityId)
  | commit

/-- What a call does. -/
def Call.run : Call Name → Run Name Unit
  | .createEntity blk => Decs.createEntity blk
  | .createEntities count blk => Decs.createEntities N count blk
  | .createEntitiesFromCmp count cmp fillBlk => Decs.createEntitiesFromCmp N count cmp fillBlk
  | .updateEntity eid blk => defer (.update eid blk)
  | .deleteEntity eid => defer (.delete eid)
  | .commit => Decs.commit N

end DaScript.Decs
