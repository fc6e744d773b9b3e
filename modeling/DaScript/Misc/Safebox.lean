import Mathlib.Data.List.AList
import Mathlib.Tactic

/-!
# Misc/Safebox — a map that can be added to while it is traversed

`safebox` in `misc/safebox.h`.  A box has its objects by key and, beside them, in the order they
came in.  A traversal locks it: what is inserted then waits in `postponed` until the traversal that
locked the box resolves it.

A callback is the tree of the calls it makes, each with what follows it for every answer.
-/

namespace DaScript

/-- A key of a box, `uint64_t`. -/
abbrev Key := BitVec 64

structure Safebox (V : Type) where
  objects : AList fun _ : Key => V
  objectsInOrder : List V
  postponed : List (Key × V)
  locked : Bool

/-- The loops over a box: `foreach`, its `const` overload, and `find_first`. -/
inductive Traversal
  | foreach
  | foreachConst
  | findFirst
  deriving DecidableEq

/-- What a callback does with the box, up to the `bool` it returns. -/
inductive Callback (V : Type)
  | ret (stop : Bool)
  | find (key : Key) (next : V → Callback V)
  | insert (key : Key) (value : V) (next : Bool → Callback V)
  | traverse (how : Traversal) (closure : V → Callback V) (next : Callback V)

/-- What happened: what a call was given, and what it returned. -/
inductive BoxEvent (V : Type)
  | insert (key : Key) (value : V) (inserted : Bool)
  | find (key : Key) (value : V)
  | replace (key : Key) (value : V)
  | remove (key : Key) (removed : Bool)
  | refreshKey (oldKey newKey : Key) (refreshed : Bool)
  | clear

/-- Only `find_first` breaks where its closure returns `true`. -/
def Traversal.breaks : Traversal → Bool
  | findFirst => true
  | _ => false

/-- Only the `const` overload does not end in `tryResolve`. -/
def Traversal.resolves : Traversal → Bool
  | foreachConst => false
  | _ => true

/-- `for ( auto & obj : objectsInOrder ) …`, with the `break` of `find_first`. -/
def visit {V S : Type} (breaks : Bool) (closure : V → S → S × Bool) : List V → S → S
  | [], s => s
  | obj :: objs, s =>
    let r := closure obj s
    if breaks && r.2 then r.1 else visit breaks closure objs r.1

namespace Safebox

variable {V : Type}

/-- `safebox()` -/
def empty : Safebox V := ⟨∅, [], [], false⟩

def clear (b : Safebox V) : Safebox V := ⟨∅, [], [], b.locked⟩

def tryResolve (b : Safebox V) : Safebox V :=
  if b.locked then b
  else
    { objects := b.postponed.foldl (fun objects p => objects.insert p.1 p.2) b.objects
      objectsInOrder := b.postponed.map Prod.snd ++ b.objectsInOrder
      postponed := []
      locked := b.locked }

def insert (b : Safebox V) (key : Key) (value : V) : Bool × Safebox V :=
  if b.locked then
    if key ∈ b.objects then (false, b)
    else if b.postponed.any fun pp => pp.1 == key then (false, b)
    else (true, { b with postponed := b.postponed ++ [(key, value)] })
  else if key ∈ b.objects then (false, b)
  else (true, { b with objects := b.objects.insert key value,
                       objectsInOrder := b.objectsInOrder ++ [value] })

def replace (b : Safebox V) (key : Key) (value : V) : Safebox V :=
  { b with objects := b.objects.replace key value }

/-- `find`, which returns `ValueType()` where there is nothing. -/
def find [Inhabited V] (b : Safebox V) (key : Key) : V :=
  match b.objects.lookup key with
  | some value => value
  | none => ((b.postponed.find? fun kv => kv.1 == key).map Prod.snd).getD default

/-- `remove`; `none` where it passes `end()` to `erase`. -/
def remove [DecidableEq V] (b : Safebox V) (key : Key) : Option (Bool × Safebox V) :=
  match b.objects.lookup key with
  | some pObj =>
    if pObj ∈ b.objectsInOrder then
      some (true, { b with objects := b.objects.erase key,
                           objectsInOrder := b.objectsInOrder.erase pObj })
    else none
  | none => some (false, b)

def refreshKey (b : Safebox V) (oldKey newKey : Key) : Bool × Safebox V :=
  match b.objects.lookup oldKey with
  | some pObj => (true, { b with objects := (b.objects.erase oldKey).insert newKey pObj })
  | none => (false, b)

/-! ## Traversals -/

/-- A box with what happened to it, the last first. -/
abbrev Logged (V : Type) := Safebox V × List (BoxEvent V)

/-- How a traversal ends: the lock that was there before, then `tryResolve`. -/
def unlock (how : Traversal) (saveLock : Bool) (b : Safebox V) : Safebox V :=
  if how.resolves then tryResolve { b with locked := saveLock } else { b with locked := saveLock }

/-- `foreach` and `find_first` -/
def traverse (how : Traversal) (closure : V → Logged V → Logged V × Bool) (s : Logged V) :
    Logged V :=
  let visited := visit how.breaks closure s.1.objectsInOrder ({ s.1 with locked := true }, s.2)
  (unlock how s.1.locked visited.1, visited.2)

/-- A callback, run on a box. -/
def run [Inhabited V] : Callback V → Logged V → Logged V × Bool
  | .ret stop, s => (s, stop)
  | .find key next, s => run (next (s.1.find key)) (s.1, .find key (s.1.find key) :: s.2)
  | .insert key value next, s =>
    let r := s.1.insert key value
    run (next r.1) (r.2, .insert key value r.1 :: s.2)
  | .traverse how closure next, s => run next (traverse how (fun obj => run (closure obj)) s)

/-- What is called on a box that is not being traversed. -/
inductive Call (V : Type)
  | insert (key : Key) (value : V)
  | find (key : Key)
  | replace (key : Key) (value : V)
  | remove (key : Key)
  | refreshKey (oldKey newKey : Key)
  | clear
  | traverse (how : Traversal) (closure : V → Callback V)

/-- A call; `none` where it passes `end()` to `erase`. -/
def step [Inhabited V] [DecidableEq V] (s : Logged V) : Call V → Option (Logged V)
  | .insert key value =>
    some ((s.1.insert key value).2, .insert key value (s.1.insert key value).1 :: s.2)
  | .find key => some (s.1, .find key (s.1.find key) :: s.2)
  | .replace key value => some (s.1.replace key value, .replace key value :: s.2)
  | .remove key => (s.1.remove key).map fun r => (r.2, .remove key r.1 :: s.2)
  | .refreshKey oldKey newKey =>
    some ((s.1.refreshKey oldKey newKey).2,
      .refreshKey oldKey newKey (s.1.refreshKey oldKey newKey).1 :: s.2)
  | .clear => some (s.1.clear, .clear :: s.2)
  | .traverse how closure => some (traverse how (fun obj => run (closure obj)) s)

/-- What a call asks of the box: `replace` of a present key, `refresh_key` from a present key to an
absent one. -/
def Asks (b : Safebox V) : Call V → Prop
  | .replace key _ => key ∈ b.objects
  | .refreshKey oldKey newKey => oldKey ∈ b.objects ∧ newKey ∉ b.objects
  | _ => True

/-- The runs from an empty box, of calls that meet `P`. -/
inductive Runs [Inhabited V] [DecidableEq V] (P : Safebox V → Call V → Prop) : Logged V → Prop
  | empty : Runs P (empty, [])
  | step {s s' : Logged V} {c : Call V} (hrun : Runs P s) (hasks : s.1.Asks c)
      (hmeets : P s.1 c) (hstep : step s c = some s') : Runs P s'

/-! ## What it is for -/

/-- **What a key has**, after what happened. -/
def view : List (BoxEvent V) → Key → Option V
  | [], _ => none
  | .insert key value true :: events, k => if k = key then some value else view events k
  | .replace key value :: events, k => if k = key then some value else view events k
  | .remove key _ :: events, k => if k = key then none else view events k
  | .refreshKey oldKey newKey _ :: events, k =>
    if k = newKey then view events oldKey else if k = oldKey then none else view events k
  | .clear :: _, _ => none
  | _ :: events, k => view events k

/-- **Every answer is right**: `insert` is told whether the key was absent, `find` what the key
has, and `remove` and `refresh_key` whether it was there. -/
def Right [Inhabited V] : List (BoxEvent V) → Prop
  | [] => True
  | .insert key _ inserted :: events => inserted = (view events key).isNone ∧ Right events
  | .find key value :: events => value = (view events key).getD default ∧ Right events
  | .remove key removed :: events => removed = (view events key).isSome ∧ Right events
  | .refreshKey oldKey _ refreshed :: events =>
    refreshed = (view events oldKey).isSome ∧ Right events
  | _ :: events => Right events

/-- **A box that is an insertion-ordered map**, where no traversal is active. -/
structure Ordered [Inhabited V] [DecidableEq V] (b : Safebox V) (events : List (BoxEvent V)) :
    Prop where
  inOrder : b.objectsInOrder.Perm (b.objects.entries.map Sigma.snd)
  postponed : b.postponed = []
  right : Right events
  lookup : ∀ key, b.objects.lookup key = view events key
  find : ∀ key, b.find key = (view events key).getD default
  remove : ∀ key, (b.remove key).isSome

/-! ## What the steps must meet -/

/-- The callback, on a locked box that it does not change: whether all it inserts is there. -/
def quiet [Inhabited V] (b : Safebox V) : Callback V → Bool → Bool × Bool
  | .ret stop, present => (present, stop)
  | .find key next, present => quiet b (next (b.find key)) present
  | .insert key _ next, present => quiet b (next false) (present && key ∈ b.objects)
  | .traverse how closure next, present =>
    quiet b next (visit how.breaks (fun obj => quiet b (closure obj)) b.objectsInOrder present)

/-- **What the code needs of a call**: `replace` stores what the key has already, and a `const`
traversal inserts no absent key. -/
def Keeps [Inhabited V] (b : Safebox V) : Call V → Prop
  | .replace key value => b.objects.lookup key = some value
  | .traverse .foreachConst closure =>
    visit false (fun obj => quiet b (closure obj)) b.objectsInOrder true = true
  | _ => True

end Safebox

end DaScript
