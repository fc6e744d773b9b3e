import DaScript.Daslib.Decs

/-!
# Daslib/DecsQueries — requests, and the queries that are kept for them

`req_hash`, `compile_request`, `lookup_request`, `for_each_archetype`, `for_eid_archetype` and
`restart` of `daslib/decs.das`.  A request that is looked up first is kept with its matches, which
`create_archetype` adds to; afterwards its hash finds it.

Requests live in variables of the program.
-/

namespace DaScript.Decs

open Algorithm Stateful

variable {Name : Type} [LinearOrder Name] (N : Naming Name)

def reqHash (req reqn : List Name) : ComponentHash :=
  reqn.foldl (fun ahash kv => ahash.rotateLeft 2 ^^^ ~~~N.hash kv)
    (req.foldl (fun ahash kv => ahash.rotateLeft 2 ^^^ N.hash kv) 0)

def compileRequest (erq : EcsRequest Name) : EcsRequest Name :=
  { erq with
    req := sortUnique erq.req
    reqn := sortUnique erq.reqn
    hash := reqHash N (sortUnique erq.req) (sortUnique erq.reqn) }

/-- The request, compiled if it was not. -/
def compiled (erq : EcsRequest Name) : EcsRequest Name :=
  if erq.hash = 0 then compileRequest N erq else erq

/-- The indices of the archetypes that a request can process, in their order. -/
def processable (erq : EcsRequest Name) (archetypes : List (Archetype Name)) : List ℕ :=
  (List.range archetypes.length).filter fun i => archetypes[i]?.any (canProcessRequest erq)

/-- The request, with the archetypes that are there pushed to those it had. -/
def pushed (erq : EcsRequest Name) (archetypes : List (Archetype Name)) : EcsRequest Name :=
  { erq with archetypes := erq.archetypes ++ processable erq archetypes }

/-- A query more, to be found under its hash. -/
def World.addQuery (w : World Name) (erq : EcsRequest Name) : World Name :=
  { w with
    ecsQueries := w.ecsQueries ++ [erq]
    queryLookup := Function.update w.queryLookup erq.hash (w.ecsQueries.length + 1) }

/-- `lookup_request`: what becomes of the request, and the index of its query. -/
def lookupRequest (erq : EcsRequest Name) : Run Name (EcsRequest Name × ℕ) := do
  let erq := compiled N erq
  let w ← get
  if w.queryLookup erq.hash = 0 then do
    let erq := pushed erq w.allArchetypes
    modify fun w => w.addQuery erq
    pure (erq, w.ecsQueries.length)
  else pure (erq, w.queryLookup erq.hash - 1)

/-- The query of a request that a function returns, looked for by its hash first. -/
def queryIndex (hash : ComponentHash) (erq : EcsRequest Name) : Run Name ℕ := do
  let w ← get
  if w.queryLookup hash = 0 then do
    let found ← lookupRequest N erq
    pure found.2
  else pure (w.queryLookup hash - 1)

/-- The archetypes that a query has its block invoked for. -/
def visit : List ℕ → Run Name (List ℕ)
  | [] => pure []
  | aidx :: aclone => do
    let w ← get
    let arch ← orStop .outOfRange w.allArchetypes[aidx]?
    let visited ← visit aclone
    pure (if 0 < arch.size then aidx :: visited else visited)

/-- `for_each_archetype(erq, blk)`: what becomes of the request, and what `blk` is invoked for. -/
def forEachArchetype (erq : EcsRequest Name) : Run Name (EcsRequest Name × List ℕ) := do
  let found ← lookupRequest N erq
  let w ← get
  let query ← orStop .outOfRange w.ecsQueries[found.2]?
  let visited ← visit query.archetypes
  pure (found.1, visited)

/-- `for_each_archetype(hash, erq, blk)`: what `blk` is invoked for. -/
def forEachArchetypeBy (hash : ComponentHash) (erq : EcsRequest Name) : Run Name (List ℕ) := do
  let qi ← queryIndex N hash erq
  let w ← get
  let query ← orStop .outOfRange w.ecsQueries[qi]?
  visit query.archetypes

/-- `for_eid_archetype`: whether it finds the entity, and so invokes its block. -/
def forEidArchetype (eid : EntityId) (hash : ComponentHash) (erq : EcsRequest Name) :
    Run Name Bool := do
  let w ← get
  let lookup ← orStop .outOfRange w.entityLookup[eid.id]?
  if lookup.generation ≠ eid.generation then pure false
  else do
    let qi ← queryIndex N hash erq
    let w ← get
    match archetypeIndex w lookup.archetype with
    | none => pure false
    | some aidx => do
      let query ← orStop .outOfRange w.ecsQueries[qi]?
      if binarySearch query.archetypes (fun x => x < aidx) fun x => aidx < x then do
        let arch ← orStop .outOfRange w.allArchetypes[aidx]?
        stopIf .assertion (arch.size ≤ 0)
        stopIf .tooMany (0x7FFFFFFF < lookup.index)
        pure true
      else pure false

def restart : Run Name Unit := do
  let w ← get
  stopIf .insideQuery (w.insideQuery ≠ 0)
  modify fun w => { World.initial Name with insideQuery := w.insideQuery, issued := w.issued }

end DaScript.Decs
