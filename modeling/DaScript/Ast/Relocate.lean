import DaScript.Ast.Statements

/-!
# Ast/Relocate — variables that a finally list may see too early

`RelocatePotentiallyUninitialized` of `ast_allocate_stack.cpp`.  A `return` before a `let` may leave
the block, and the finally list sees a variable whose `let` was not reached.  Such a `let` goes to
the top of its block without initializers; assignments stay in its place.

Then names are looked up again (`reinfer`).  The first variable of a `let` has a new name by then,
the others keep theirs.

What expressions do is a parameter (`Meaning`).  Blocks that are expressions are left out.
-/

namespace DaScript.Relocate

/-! ## Bodies -/

/-- An expression: what it does, and the variables it does it to. -/
structure Expr where
  op : ℕ
  vars : List ℕ
  deriving DecidableEq

/-- What is known of a variable; `zero` is what its memory holds when it is cleared. -/
structure Variable (ν : Type) where
  name : String
  line : ℕ
  column : ℕ
  init_via_move : Bool
  used_in_finally : Bool
  zero : ν

/-- **A statement.**  The body of a loop or of an `if` is a block, with a finally list. -/
inductive Stmt
  | expr (e : Expr)
  | assign (init_via_move : Bool) (left : ℕ) (right : Expr)
  | let (vars : List (ℕ × Option Expr)) (hasEarlyOut : Bool)
  | ifThenElse (cond : Expr) (list finalList elseList elseFinalList : List Stmt)
  | block (list finalList : List Stmt)
  | while (cond : Expr) (list finalList : List Stmt)
  | for (iterators : List ℕ) (sources : List Expr) (list finalList : List Stmt)
  | return (subexpr : Option Expr)
  | break
  | continue

/-- The variables a statement declares for what follows it. -/
def Stmt.declared : Stmt → List ℕ
  | .let vars _ => vars.map Prod.fst
  | _ => []

/-- The variables of a block. -/
def declaredAll (list : List Stmt) : List ℕ := list.flatMap Stmt.declared

/-! ## What they do -/

variable {ε ν : Type}

/-- What variables hold, and the effects so far, the last first. -/
structure State (ε ν : Type) where
  env : ℕ → ν
  effects : List ε

/-- **What expressions do**, evaluated or moved from: by what the variables hold and the effects so
far, the new effects, and a panic, or a value and what is left in the variables.  How the iterators
of a loop are moved: a panic, or the end, or the items and the iterators after them.  And which
values are true. -/
structure Meaning (ε ν : Type) where
  eval : ℕ → List ν → List ε → List ε × Option (ν × List ν)
  move : ℕ → List ν → List ε → List ε × Option (ν × List ν)
  next : Bool → List ν → List ε → List ε × Option (Option (List ν × List ν))
  truth : ν → Bool

/-- Values go into variables, one after the other. -/
def setAll : List ℕ → List ν → (ℕ → ν) → ℕ → ν
  | x :: xs, v :: vs, env => setAll xs vs (Function.update env x v)
  | _, _, env => env

/-- A block is entered: its variables are zero, as a finally list may see them. -/
def State.enter (table : ℕ → Variable ν) (xs : List ℕ) (s : State ε ν) : State ε ν :=
  { s with env := fun x => if x ∈ xs then (table x).zero else s.env x }

def State.set (s : State ε ν) (x : ℕ) (v : ν) : State ε ν :=
  { s with env := Function.update s.env x v }

namespace Meaning

variable (M : Meaning ε ν)

/-- An expression does something, and what is left is written into its variables. -/
def run (does : ℕ → List ν → List ε → List ε × Option (ν × List ν)) (e : Expr)
    (s : State ε ν) : State ε ν × Option ν :=
  match does e.op (e.vars.map s.env) s.effects with
  | (new, none) => ({ s with effects := new ++ s.effects }, none)
  | (new, some (v, left)) =>
    ({ env := setAll e.vars left s.env, effects := new ++ s.effects }, some v)

/-- The value for a variable. -/
def init (via_move : Bool) (e : Expr) (s : State ε ν) : State ε ν × Option ν :=
  run (if via_move then M.move else M.eval) e s

/-- `ExprCopy`, `ExprMove`, and what `SimNode_Let` does for one variable. -/
def assign (via_move : Bool) (x : ℕ) (e : Expr) (s : State ε ν) : State ε ν × Control ν :=
  match M.init via_move e s with
  | (s, none) => (s, .panic)
  | (s, some v) => (s.set x v, .done)

/-- The sources of a loop. -/
def evalAll : List Expr → State ε ν → State ε ν × Option (List ν)
  | [], s => (s, some [])
  | e :: es, s =>
    match run M.eval e s with
    | (s, none) => (s, none)
    | (s, some v) =>
      match evalAll es s with
      | (s, none) => (s, none)
      | (s, some vs) => (s, some (v :: vs))

/-- A condition and what comes of it. -/
def choose (r : State ε ν × Option ν) (t f : State ε ν → State ε ν × Control ν) :
    State ε ν × Control ν :=
  match r with
  | (s, none) => (s, .panic)
  | (s, some v) => if M.truth v then t s else f s

/-- A loop is left; with a finally list behind its body the condition is asked once more. -/
def leave (asks : Bool) (cond : Expr) (s : State ε ν) (c : Control ν) : State ε ν × Control ν :=
  if asks then
    match run M.eval cond s with
    | (s, none) => (s, .panic)
    | (s, some _) => (s, c)
  else (s, c)

/-- `SimNode_While`, for so many turns. -/
def whileLoop (asks : Bool) (cond : Expr) (body : State ε ν → State ε ν × Control ν) :
    ℕ → State ε ν → State ε ν × Control ν
  | 0, s => (s, .hang)
  | turns + 1, s =>
    M.choose (run M.eval cond s) (fun s =>
      match body s with
      | (s, .done) | (s, .continue) => whileLoop asks cond body turns s
      | (s, .break) => M.leave asks cond s .done
      | (s, .return v) => M.leave asks cond s (.return v)
      | r => r) fun s => (s, .done)

/-- `SimNode_ForWithIterator`, for so many turns. -/
def forLoop (xs : List ℕ) (body : State ε ν → State ε ν × Control ν) :
    ℕ → Bool → List ν → State ε ν → State ε ν × Control ν
  | 0, _, _, s => (s, .hang)
  | turns + 1, first, its, s =>
    match M.next first its s.effects with
    | (new, none) => ({ s with effects := new ++ s.effects }, .panic)
    | (new, some none) => ({ s with effects := new ++ s.effects }, .done)
    | (new, some (some (items, its))) =>
      match body { env := setAll xs items s.env, effects := new ++ s.effects } with
      | (s, .done) | (s, .continue) => forLoop xs body turns false its s
      | (s, .break) => (s, .done)
      | r => r

variable (table : ℕ → Variable ν) (turns : ℕ)

/-- `SimNode_Let`: one variable after the other. -/
def declare : List (ℕ × Option Expr) → State ε ν → State ε ν × Control ν
  | [], s => (s, .done)
  | (x, none) :: vars, s => declare vars (s.set x (table x).zero)
  | (x, some e) :: vars, s => Control.next (M.assign (table x).init_via_move x e s) (declare vars)

mutual

/-- **A run**; loops get `turns`. -/
def exec : Stmt → State ε ν → State ε ν × Control ν
  | .expr e, s =>
    match run M.eval e s with
    | (s, none) => (s, .panic)
    | (s, some _) => (s, .done)
  | .assign via_move left right, s => M.assign via_move left right s
  | .let vars _, s => M.declare table vars s
  | .ifThenElse cond list finalList elseList elseFinalList, s =>
    M.choose (run M.eval cond s)
      (fun s => Control.after (execList list (s.enter table (declaredAll (list ++ finalList))))
        fun s => execFinals finalList s)
      fun s =>
        Control.after (execList elseList (s.enter table (declaredAll (elseList ++ elseFinalList))))
          fun s => execFinals elseFinalList s
  | .block list finalList, s =>
    Control.after (execList list (s.enter table (declaredAll (list ++ finalList))))
      fun s => execFinals finalList s
  | .while cond list finalList, s =>
    M.whileLoop (!finalList.isEmpty) cond
      (fun s => Control.after (execList list (s.enter table (declaredAll (list ++ finalList))))
        fun s => execFinals finalList s) turns s
  | .for iterators sources list finalList, s =>
    match M.evalAll sources s with
    | (s, none) => (s, .panic)
    | (s, some its) =>
      M.forLoop iterators
        (fun s => Control.after (execList list (s.enter table (declaredAll (list ++ finalList))))
          fun s => execFinals finalList s) turns true its s
  | .return none, s => (s, .return none)
  | .return (some e), s =>
    match run M.eval e s with
    | (s, none) => (s, .panic)
    | (s, some v) => (s, .return (some v))
  | .break, s => (s, .break)
  | .continue, s => (s, .continue)

/-- `SimNode_Block`: one after the other, until one stops. -/
def execList : List Stmt → State ε ν → State ε ν × Control ν
  | [], s => (s, .done)
  | first :: rest, s => Control.next (exec first s) fun s => execList rest s

/-- The loop of `evalFinal`, which no stop ends. -/
def execFinals : List Stmt → State ε ν → State ε ν × Control ν
  | [], s => (s, .done)
  | first :: rest, s => Control.nextFinal (exec first s) fun s => execFinals rest s

end

end Meaning

/-! ## `RelocatePotentiallyUninitialized` -/

section Relocation

variable (table : ℕ → Variable ν)

/-- `anyNeedRelocate` -/
def moves (vars : List (ℕ × Option Expr)) (hasEarlyOut : Bool) : Bool :=
  hasEarlyOut && vars.any fun var => (table var.1).used_in_finally

/-- `afterThisExpression` -/
def assignments (vars : List (ℕ × Option Expr)) : List Stmt :=
  vars.filterMap fun var => var.2.map (.assign (table var.1).init_via_move var.1)

/-- What stays of a `let` that is moved. -/
def leftover (vars : List (ℕ × Option Expr)) : Stmt :=
  match assignments table vars with
  | [assign] => assign
  | list => .block list []

/-- `onTopOfTheBlock`, the first in front. -/
def moved : List Stmt → List (List ℕ)
  | [] => []
  | .let vars hasEarlyOut :: rest =>
    if moves table vars hasEarlyOut then vars.map Prod.fst :: moved rest else moved rest
  | _ :: rest => moved rest

/-- What is inserted at the top of a block, each `let` before those that are there already. -/
def onTop (list finalList : List Stmt) : List Stmt :=
  (moved table (list ++ finalList)).reverse.map fun xs => .let (xs.map (·, none)) true

mutual

def Stmt.visit : Stmt → Stmt
  | .let vars hasEarlyOut =>
    if moves table vars hasEarlyOut then leftover table vars else .let vars hasEarlyOut
  | .ifThenElse cond list finalList elseList elseFinalList =>
    .ifThenElse cond (onTop table list finalList ++ visitList list) (visitList finalList)
      (onTop table elseList elseFinalList ++ visitList elseList) (visitList elseFinalList)
  | .block list finalList =>
    .block (onTop table list finalList ++ visitList list) (visitList finalList)
  | .while cond list finalList =>
    .while cond (onTop table list finalList ++ visitList list) (visitList finalList)
  | .for iterators sources list finalList =>
    .for iterators sources (onTop table list finalList ++ visitList list) (visitList finalList)
  | .expr e => .expr e
  | .assign via_move left right => .assign via_move left right
  | .return subexpr => .return subexpr
  | .break => .break
  | .continue => .continue

def visitList : List Stmt → List Stmt
  | [] => []
  | s :: rest => s.visit :: visitList rest

end

end Relocation

/-! ## Names -/

section Names

variable (label : ℕ → String)

/-- The last variable in scope of that name. -/
def lookup (scope : List ℕ) (name : String) : Option ℕ := scope.find? fun x => label x = name

/-- The variable that is found by the name of another. -/
def refer (scope : List ℕ) (v : ℕ) : ℕ := (lookup label scope (label v)).getD v

def Expr.reinfer (scope : List ℕ) (e : Expr) : Expr :=
  { e with vars := e.vars.map (refer label scope) }

/-- An initializer sees the variables before it. -/
def reinferLet : List ℕ → List (ℕ × Option Expr) → List (ℕ × Option Expr)
  | _, [] => []
  | scope, (x, init) :: vars =>
    (x, init.map (Expr.reinfer label scope)) :: reinferLet (x :: scope) vars

mutual

/-- Names are looked up again; the finally list sees the variables of its block. -/
def Stmt.reinfer : List ℕ → Stmt → Stmt
  | scope, .expr e => .expr (e.reinfer label scope)
  | scope, .assign via_move left right =>
    .assign via_move (refer label scope left) (right.reinfer label scope)
  | scope, .let vars hasEarlyOut => .let (reinferLet label scope vars) hasEarlyOut
  | scope, .ifThenElse cond list finalList elseList elseFinalList =>
    .ifThenElse (cond.reinfer label scope)
      (reinferList scope list) (reinferList ((declaredAll list).reverse ++ scope) finalList)
      (reinferList scope elseList)
      (reinferList ((declaredAll elseList).reverse ++ scope) elseFinalList)
  | scope, .block list finalList =>
    .block (reinferList scope list) (reinferList ((declaredAll list).reverse ++ scope) finalList)
  | scope, .while cond list finalList =>
    .while (cond.reinfer label scope) (reinferList scope list)
      (reinferList ((declaredAll list).reverse ++ scope) finalList)
  | scope, .for iterators sources list finalList =>
    .for iterators (sources.map (Expr.reinfer label scope))
      (reinferList (iterators.reverse ++ scope) list)
      (reinferList ((declaredAll list).reverse ++ (iterators.reverse ++ scope)) finalList)
  | scope, .return subexpr => .return (subexpr.map (Expr.reinfer label scope))
  | _, .break => .break
  | _, .continue => .continue

def reinferList : List ℕ → List Stmt → List Stmt
  | _, [] => []
  | scope, s :: rest => s.reinfer scope :: reinferList (s.declared.reverse ++ scope) rest

end

/-- A variable is found by its name. -/
def Finds (scope : List ℕ) (v : ℕ) : Prop := lookup label scope (label v) = some v

def Expr.Resolves (scope : List ℕ) (e : Expr) : Prop := ∀ v ∈ e.vars, Finds label scope v

def ResolvesLet : List ℕ → List (ℕ × Option Expr) → Prop
  | _, [] => True
  | scope, (x, init) :: vars =>
    (∀ e ∈ init, e.Resolves label scope) ∧ ResolvesLet (x :: scope) vars

mutual

/-- **Each name still resolves to its own variable.** -/
def Stmt.Resolves : List ℕ → Stmt → Prop
  | scope, .expr e => e.Resolves label scope
  | scope, .assign _ left right => Finds label scope left ∧ right.Resolves label scope
  | scope, .let vars _ => ResolvesLet label scope vars
  | scope, .ifThenElse cond list finalList elseList elseFinalList =>
    cond.Resolves label scope ∧
      (ResolvesList scope list ∧ ResolvesList ((declaredAll list).reverse ++ scope) finalList) ∧
      ResolvesList scope elseList ∧
        ResolvesList ((declaredAll elseList).reverse ++ scope) elseFinalList
  | scope, .block list finalList =>
    ResolvesList scope list ∧ ResolvesList ((declaredAll list).reverse ++ scope) finalList
  | scope, .while cond list finalList =>
    cond.Resolves label scope ∧
      ResolvesList scope list ∧ ResolvesList ((declaredAll list).reverse ++ scope) finalList
  | scope, .for iterators sources list finalList =>
    (∀ e ∈ sources, e.Resolves label scope) ∧
      ResolvesList (iterators.reverse ++ scope) list ∧
      ResolvesList ((declaredAll list).reverse ++ (iterators.reverse ++ scope)) finalList
  | scope, .return subexpr => ∀ e ∈ subexpr, e.Resolves label scope
  | _, .break => True
  | _, .continue => True

def ResolvesList : List ℕ → List Stmt → Prop
  | _, [] => True
  | scope, s :: rest => s.Resolves scope ∧ ResolvesList (s.declared.reverse ++ scope) rest

end

end Names

/-! ## New names -/

section Renamed

variable (table : ℕ → Variable ν)

mutual

/-- What is picked of the variables that are moved, for all blocks in a statement. -/
def Stmt.gather (pick : List (List ℕ) → List ℕ) : Stmt → List ℕ
  | .ifThenElse _ list finalList elseList elseFinalList =>
    (pick (moved table (list ++ finalList)) ++ (gatherAll pick list ++ gatherAll pick finalList)) ++
      (pick (moved table (elseList ++ elseFinalList)) ++
        (gatherAll pick elseList ++ gatherAll pick elseFinalList))
  | .block list finalList =>
    pick (moved table (list ++ finalList)) ++ (gatherAll pick list ++ gatherAll pick finalList)
  | .while _ list finalList =>
    pick (moved table (list ++ finalList)) ++ (gatherAll pick list ++ gatherAll pick finalList)
  | .for _ _ list finalList =>
    pick (moved table (list ++ finalList)) ++ (gatherAll pick list ++ gatherAll pick finalList)
  | _ => []

def gatherAll (pick : List (List ℕ) → List ℕ) : List Stmt → List ℕ
  | [] => []
  | s :: rest => s.gather pick ++ gatherAll pick rest

end

/-- The variables that are moved. -/
def Stmt.lifts (s : Stmt) : List ℕ := s.gather table List.flatten

/-- The variables that `RenameVariables` renames: the first of each `let`. -/
def Stmt.renamed (s : Stmt) : List ℕ := s.gather table (List.filterMap List.head?)

def Variable.newName (var : Variable ν) : String :=
  var.name ++ "`at`" ++ toString var.line ++ "`" ++ toString var.column

/-- The names after the pass. -/
def label (body : Stmt) (x : ℕ) : String :=
  if x ∈ body.renamed table then (table x).newName else (table x).name

end Renamed

/-! ## Where no other variable comes first -/

section Clear

variable (table : ℕ → Variable ν) (label : ℕ → String)

/-- The scope at the top of a block. -/
def lifted (list finalList : List Stmt) (scope : List ℕ) : List ℕ :=
  (moved table (list ++ finalList)).reverse.flatten.reverse ++ scope

/-- What a statement still declares in its place. -/
def Stmt.stays : Stmt → List ℕ
  | .let vars hasEarlyOut => if moves table vars hasEarlyOut then [] else vars.map Prod.fst
  | _ => []

def staysAll (list : List Stmt) : List ℕ := list.flatMap (Stmt.stays table)

/-- The assignments for a `let` that is moved. -/
def ClearMoved (scope : List ℕ) (vars : List (ℕ × Option Expr)) : Prop :=
  ∀ var ∈ vars, ∀ e ∈ var.2, Finds label scope var.1 ∧ e.Resolves label scope

mutual

/-- **No other variable of a name comes first**, when those of moved `let`s stand at the top of
their blocks. -/
def Stmt.Clear : List ℕ → Stmt → Prop
  | scope, .expr e => e.Resolves label scope
  | scope, .assign _ left right => Finds label scope left ∧ right.Resolves label scope
  | scope, .let vars hasEarlyOut =>
    if moves table vars hasEarlyOut then ClearMoved label scope vars
    else ResolvesLet label scope vars
  | scope, .ifThenElse cond list finalList elseList elseFinalList =>
    cond.Resolves label scope ∧
      (ClearList (lifted table list finalList scope) list ∧
        ClearList ((staysAll table list).reverse ++ lifted table list finalList scope) finalList) ∧
      ClearList (lifted table elseList elseFinalList scope) elseList ∧
        ClearList ((staysAll table elseList).reverse ++ lifted table elseList elseFinalList scope)
          elseFinalList
  | scope, .block list finalList =>
    ClearList (lifted table list finalList scope) list ∧
      ClearList ((staysAll table list).reverse ++ lifted table list finalList scope) finalList
  | scope, .while cond list finalList =>
    cond.Resolves label scope ∧
      ClearList (lifted table list finalList scope) list ∧
      ClearList ((staysAll table list).reverse ++ lifted table list finalList scope) finalList
  | scope, .for iterators sources list finalList =>
    (∀ e ∈ sources, e.Resolves label scope) ∧
      ClearList (lifted table list finalList (iterators.reverse ++ scope)) list ∧
      ClearList ((staysAll table list).reverse ++
        lifted table list finalList (iterators.reverse ++ scope)) finalList
  | scope, .return subexpr => ∀ e ∈ subexpr, e.Resolves label scope
  | _, .break => True
  | _, .continue => True

def ClearList : List ℕ → List Stmt → Prop
  | _, [] => True
  | scope, s :: rest => s.Clear scope ∧ ClearList ((s.stays table).reverse ++ scope) rest

end

end Clear

/-! ## Variables before their declarations -/

section Order

def letVars (vars : List (ℕ × Option Expr)) : List ℕ :=
  vars.flatMap fun var => var.1 :: (var.2.map Expr.vars).getD []

mutual

/-- The variables in a statement. -/
def Stmt.occurs : Stmt → List ℕ
  | .expr e => e.vars
  | .assign _ left right => left :: right.vars
  | .let vars _ => letVars vars
  | .ifThenElse cond list finalList elseList elseFinalList =>
    cond.vars ++ (occursAll list ++ occursAll finalList) ++
      (occursAll elseList ++ occursAll elseFinalList)
  | .block list finalList => occursAll list ++ occursAll finalList
  | .while cond list finalList => cond.vars ++ (occursAll list ++ occursAll finalList)
  | .for iterators sources list finalList =>
    iterators ++ sources.flatMap Expr.vars ++ (occursAll list ++ occursAll finalList)
  | .return subexpr => (subexpr.map Expr.vars).getD []
  | .break => []
  | .continue => []

def occursAll : List Stmt → List ℕ
  | [] => []
  | s :: rest => s.occurs ++ occursAll rest

end

/-- The variables of a `let` are different ones, and an initializer does not refer to later ones. -/
def InOrderLet : List (ℕ × Option Expr) → Prop
  | [] => True
  | (x, init) :: vars =>
    (∀ y ∈ vars.map Prod.fst, y ≠ x ∧ ∀ e ∈ init, y ∉ e.vars) ∧ InOrderLet vars

mutual

/-- **A variable does not occur before it is declared.** -/
def Stmt.InOrder : Stmt → Prop
  | .let vars _ => InOrderLet vars
  | .ifThenElse _ list finalList elseList elseFinalList =>
    (InOrderList (declaredAll finalList) list ∧ InOrderList [] finalList) ∧
      InOrderList (declaredAll elseFinalList) elseList ∧ InOrderList [] elseFinalList
  | .block list finalList => InOrderList (declaredAll finalList) list ∧ InOrderList [] finalList
  | .while _ list finalList => InOrderList (declaredAll finalList) list ∧ InOrderList [] finalList
  | .for _ _ list finalList => InOrderList (declaredAll finalList) list ∧ InOrderList [] finalList
  | _ => True

def InOrderList (later : List ℕ) : List Stmt → Prop
  | [] => True
  | s :: rest => s.InOrder ∧ (∀ x ∈ declaredAll rest ++ later, x ∉ s.occurs) ∧
    InOrderList later rest

end

end Order

end DaScript.Relocate
