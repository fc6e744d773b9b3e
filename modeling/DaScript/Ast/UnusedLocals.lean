import DaScript.Ast.Statements

/-!
# Ast/UnusedLocals — variables that nobody needs

`TrackVariableFlags` and `RemoveUnusedLocalVariables` of `ast_unused.cpp`.  A variable that is only
read as a value, and whose value is known, is not needed, and one that is not read at all is not
either if its initializer does nothing.

A loop that is marked (`allowIteratorOptimization`) loses the sources of its unused variables, but
one.  That is right where such a source does nothing and does not end the loop, which is what the
mark promises (`Promised`).

What expressions do is a parameter (`Meaning`).  A variable is what it holds, local references and
blocks that are passed on are left out.
-/

namespace DaScript.UnusedLocals

/-! ## Expressions -/

/-- `ExprVar`: it is read as a value, or it is passed, to be written or not. -/
structure ExprVar where
  id : ℕ
  r2v : Bool
  write : Bool
  deriving DecidableEq

/-- **An expression.**  All but constants and variables are calls; the flag is `noSideEffects`. -/
inductive Expr (ν : Type)
  | const (value : ν) (constexpression noSideEffects : Bool)
  | var (v : ExprVar) (noSideEffects : Bool)
  | call (func : ℕ) (arguments : List (Expr ν)) (noSideEffects : Bool)

/-- A local variable, the argument of a function or a block, or that of a loop.  `zero` is what it
holds without an initializer; a type whose zero is no constant is an enumeration without 0. -/
structure Variable (ν : Type) where
  init : Option (Expr ν)
  zero : ν
  isFoldable : Bool
  zeroIsConst : Bool
  accessExtern : Bool

variable {ε ν : Type}

namespace Expr

def constexpression : Expr ν → Bool
  | const _ constexpression _ => constexpression
  | _ => false

def noSideEffects : Expr ν → Bool
  | const _ _ noSideEffects => noSideEffects
  | var _ noSideEffects => noSideEffects
  | call _ _ noSideEffects => noSideEffects

/-- The variable that is passed. -/
def passed : Expr ν → Option ExprVar
  | var v _ => if v.r2v then none else some v
  | _ => none

mutual

/-- The variables in an expression. -/
def vars : Expr ν → List ExprVar
  | const _ _ _ => []
  | var v _ => [v]
  | call _ arguments _ => varsAll arguments

def varsAll : List (Expr ν) → List ExprVar
  | [] => []
  | e :: rest => e.vars ++ varsAll rest

end

end Expr

/-! ## What expressions do -/

/-- What variables hold, and the effects and the turns of loops so far, the last first. -/
structure State (ε ν : Type) where
  env : ℕ → ν
  effects : List ε
  turns : List ℕ

/-- **What calls do**: after the effects so far, the new ones, and a panic, or a value and what is
left in the arguments.  What an iterator does when it is moved: a panic, or the end, or an item and
the iterator after it.  And which values are true. -/
structure Meaning (ε ν : Type) where
  call : ℕ → List ν → List ε → List ε × Option (ν × List ν)
  next : ν → List ε → List ε × Option (Option (ν × ν))
  truth : ν → Bool

namespace Meaning

variable (M : Meaning ε ν)

/-- What the arguments hold when the call begins. -/
def contents (s : State ε ν) : List (Expr ν) → List ν → List ν
  | e :: arguments, v :: values =>
    (match e.passed with
      | some x => s.env x.id
      | none => v) :: contents s arguments values
  | _, _ => []

/-- What is left in the arguments is written into those that are passed to be written. -/
def writeBack : List (Expr ν) → List ν → (ℕ → ν) → ℕ → ν
  | e :: arguments, v :: values, env =>
    writeBack arguments values (match e.passed with
      | some x => if x.write then Function.update env x.id v else env
      | none => env)
  | _, _, env => env

mutual

/-- `eval`; without a value it panics. -/
def eval : Expr ν → State ε ν → State ε ν × Option ν
  | .const value _ _, s => (s, some value)
  | .var v _, s => (s, some (s.env v.id))
  | .call func arguments _, s =>
    match evalAll arguments s with
    | (s, none) => (s, none)
    | (s, some values) =>
      match M.call func (contents s arguments values) s.effects with
      | (new, none) => ({ s with effects := new ++ s.effects }, none)
      | (new, some (v, left)) =>
        ({ s with env := writeBack arguments left s.env, effects := new ++ s.effects }, some v)

def evalAll : List (Expr ν) → State ε ν → State ε ν × Option (List ν)
  | [], s => (s, some [])
  | e :: rest, s =>
    match eval e s with
    | (s, none) => (s, none)
    | (s, some v) =>
      match evalAll rest s with
      | (s, none) => (s, none)
      | (s, some vs) => (s, some (v :: vs))

end

end Meaning

/-! ## Statements -/

/-- **A statement.**  A loop says where it is; no `else` is an empty block. -/
inductive Stmt (ν : Type)
  | expr (e : Expr ν)
  | let (xs : List ℕ)
  | ifThenElse (cond : Expr ν) (if_true if_false : Stmt ν)
  | block (list finalList : List (Stmt ν))
  | while (at_ : ℕ) (cond : Expr ν) (body : Stmt ν)
  | for (at_ : ℕ) (allowIteratorOptimization : Bool) (iterators : List (ℕ × Expr ν))
      (body : Stmt ν)
  | return (subexpr : Option (Expr ν))
  | break
  | continue

/-- The block has a finally list. -/
def Stmt.hasFinally : Stmt ν → Bool
  | .block _ finalList => !finalList.isEmpty
  | _ => false

/-- The items of a turn go into the variables of the loop. -/
def bindAll : List ℕ → List ν → (ℕ → ν) → ℕ → ν
  | x :: xs, v :: vs, env => bindAll xs vs (Function.update env x v)
  | _, _, env => env

/-- A turn begins. -/
def State.turn (s : State ε ν) (at_ : ℕ) : State ε ν := { s with turns := at_ :: s.turns }

namespace Meaning

variable (M : Meaning ε ν)

/-- The iterators of a loop are moved, all, or until one has ended. -/
def advance (stops : Bool) : List ν → List ε → List ε × Option (Option (List (ν × ν)))
  | [], h => (h, some (some []))
  | it :: its, h =>
    match M.next it h with
    | (new, none) => (new ++ h, none)
    | (new, some none) =>
      if stops then (new ++ h, some none)
      else
        match advance stops its (new ++ h) with
        | (h, none) => (h, none)
        | (h, some _) => (h, some none)
    | (new, some (some p)) =>
      match advance stops its (new ++ h) with
      | (h, none) => (h, none)
      | (h, some none) => (h, some none)
      | (h, some (some ps)) => (h, some (some (p :: ps)))

/-- `SimNode_ForWithIterator`, from a turn on, for so many turns. -/
def forLoop (at_ : ℕ) (xs : List ℕ) (body : State ε ν → State ε ν × Control ν) :
    ℕ → List (ν × ν) → State ε ν → State ε ν × Control ν
  | 0, _, s => (s, .hang)
  | turns + 1, ps, s =>
    match body { s.turn at_ with env := bindAll xs (ps.map Prod.fst) s.env } with
    | (s, .done) | (s, .continue) =>
      match M.advance true (ps.map Prod.snd) s.effects with
      | (h, none) => ({ s with effects := h }, .panic)
      | (h, some none) => ({ s with effects := h }, .done)
      | (h, some (some ps)) => forLoop at_ xs body turns ps { s with effects := h }
    | (s, .break) => (s, .done)
    | r => r

/-- A condition and what comes of it. -/
def choose (r : State ε ν × Option ν) (t f : State ε ν → State ε ν × Control ν) :
    State ε ν × Control ν :=
  match r with
  | (s, none) => (s, .panic)
  | (s, some v) => if M.truth v then t s else f s

/-- A loop is left; with a finally list behind its body the condition is asked once more. -/
def leave (asks : Bool) (cond : Expr ν) (s : State ε ν) (c : Control ν) : State ε ν × Control ν :=
  if asks then
    match M.eval cond s with
    | (s, none) => (s, .panic)
    | (s, some _) => (s, c)
  else (s, c)

/-- `SimNode_While`, for so many turns. -/
def whileLoop (at_ : ℕ) (asks : Bool) (cond : Expr ν)
    (body : State ε ν → State ε ν × Control ν) : ℕ → State ε ν → State ε ν × Control ν
  | 0, s => (s, .hang)
  | turns + 1, s =>
    M.choose (M.eval cond s) (fun s =>
      match body (s.turn at_) with
      | (s, .done) | (s, .continue) => whileLoop at_ asks cond body turns s
      | (s, .break) => M.leave asks cond s .done
      | (s, .return v) => M.leave asks cond s (.return v)
      | r => r) fun s => (s, .done)

variable (table : ℕ → Variable ν) (turns : ℕ)

/-- `SimNode_Let`: one variable after the other. -/
def declare : List ℕ → State ε ν → State ε ν × Control ν
  | [], s => (s, .done)
  | x :: xs, s =>
    match (table x).init with
    | none => declare xs { s with env := Function.update s.env x (table x).zero }
    | some init =>
      match M.eval init s with
      | (s, none) => (s, .panic)
      | (s, some v) => declare xs { s with env := Function.update s.env x v }

mutual

/-- **A run**; loops get `turns`. -/
def exec : Stmt ν → State ε ν → State ε ν × Control ν
  | .expr e, s =>
    match M.eval e s with
    | (s, none) => (s, .panic)
    | (s, some _) => (s, .done)
  | .let xs, s => M.declare table xs s
  | .ifThenElse cond if_true if_false, s =>
    M.choose (M.eval cond s) (fun s => exec if_true s) fun s => exec if_false s
  | .block list finalList, s => Control.after (execList list s) fun s => execFinals finalList s
  | .while at_ cond body, s =>
    M.whileLoop at_ body.hasFinally cond (fun s => exec body s) turns s
  | .for at_ _ iterators body, s =>
    match M.evalAll (iterators.map Prod.snd) s with
    | (s, none) => (s, .panic)
    | (s, some its) =>
      match M.advance false its s.effects with
      | (h, none) => ({ s with effects := h }, .panic)
      | (h, some none) => ({ s with effects := h }, .done)
      | (h, some (some ps)) =>
        M.forLoop at_ (iterators.map Prod.fst) (fun s => exec body s) turns ps
          { s with effects := h }
  | .return none, s => (s, .return none)
  | .return (some e), s =>
    match M.eval e s with
    | (s, none) => (s, .panic)
    | (s, some v) => (s, .return (some v))
  | .break, s => (s, .break)
  | .continue, s => (s, .continue)

/-- `SimNode_Block`: one after the other, until one stops. -/
def execList : List (Stmt ν) → State ε ν → State ε ν × Control ν
  | [], s => (s, .done)
  | first :: rest, s => Control.next (exec first s) fun s => execList rest s

/-- The loop of `evalFinal`, which no stop ends. -/
def execFinals : List (Stmt ν) → State ε ν → State ε ν × Control ν
  | [], s => (s, .done)
  | first :: rest, s => Control.nextFinal (exec first s) fun s => execFinals rest s

end

end Meaning

/-! ## `TrackVariableFlags` -/

section Track

variable (table : ℕ → Variable ν)

/-- The variables in initializers. -/
def initVars (xs : List ℕ) : List ExprVar :=
  xs.flatMap fun x => ((table x).init.map Expr.vars).getD []

mutual

/-- The variables in a statement. -/
def Stmt.vars : Stmt ν → List ExprVar
  | .expr e => e.vars
  | .let xs => initVars table xs
  | .ifThenElse cond if_true if_false => cond.vars ++ (if_true.vars ++ if_false.vars)
  | .block list finalList => stmtVars list ++ stmtVars finalList
  | .while _ cond body => cond.vars ++ body.vars
  | .for _ _ iterators body => Expr.varsAll (iterators.map Prod.snd) ++ body.vars
  | .return (some e) => e.vars
  | .return none => []
  | .break => []
  | .continue => []

def stmtVars : List (Stmt ν) → List ExprVar
  | [] => []
  | s :: rest => s.vars ++ stmtVars rest

end

mutual

/-- The variables of the loops in a statement. -/
def Stmt.loops : Stmt ν → List ℕ
  | .ifThenElse _ if_true if_false => if_true.loops ++ if_false.loops
  | .block list finalList => stmtLoops list ++ stmtLoops finalList
  | .while _ _ body => body.loops
  | .for _ _ iterators body => iterators.map Prod.fst ++ body.loops
  | _ => []

def stmtLoops : List (Stmt ν) → List ℕ
  | [] => []
  | s :: rest => s.loops ++ stmtLoops rest

end

/-- The flags of a variable. -/
structure Access where
  access_init : Bool
  access_get : Bool
  access_ref : Bool
  access_pass : Bool

def trackVariableFlags (body : Stmt ν) (x : ℕ) : Access where
  access_init := (table x).init.isSome || decide (x ∈ body.loops)
  access_get := (body.vars table).any fun v => v.id = x ∧ v.write = false
  access_ref := (body.vars table).any fun v => v.id = x ∧ v.write = true
  access_pass := (body.vars table).any fun v => v.id = x ∧ v.write = false ∧ v.r2v = false

end Track

/-! ## Constants for variables -/

mutual

/-- `visit(ExprVar *)` throughout an expression, where some variables are known.  The clone of a
constant has no flags. -/
def Expr.visit (known : ℕ → Option ν) : Expr ν → Expr ν
  | .const value constexpression noSideEffects => .const value constexpression noSideEffects
  | .var v noSideEffects =>
    match known v.id with
    | some value => if v.r2v then .const value false false else .var v noSideEffects
    | none => .var v noSideEffects
  | .call func arguments noSideEffects => .call func (visitAll known arguments) noSideEffects

def visitAll (known : ℕ → Option ν) : List (Expr ν) → List (Expr ν)
  | [] => []
  | e :: rest => e.visit known :: visitAll known rest

end

/-! ## `RemoveUnusedLocalVariables` -/

section Remove

variable (table : ℕ → Variable ν) (flags : ℕ → Access)

/-- What `visit(ExprVar *)` puts in the place of a variable. -/
def known (x : ℕ) : Option ν :=
  if (flags x).access_ref || (table x).accessExtern then none
  else
    match (table x).init with
    | some (.const value true _) => some value
    | some _ => none
    | none =>
      if (table x).isFoldable && !(flags x).access_init && (table x).zeroIsConst then
        some (table x).zero
      else none

/-- The variables after the pass, their initializers visited. -/
def visitTable (x : ℕ) : Variable ν :=
  { table x with init := (table x).init.map (Expr.visit (known table flags)) }

/-- `visitLet` returns nothing. -/
def removed (x : ℕ) : Bool :=
  let a := flags x
  let init := (visitTable table flags x).init
  (!a.access_get && !a.access_ref && !a.access_init && !a.access_pass) ||
  (!a.access_ref && !a.access_pass && init.any Expr.constexpression) ||
  (!a.access_ref && !a.access_pass && init.isNone && (table x).isFoldable) ||
  (!a.access_ref && !a.access_pass && !a.access_get && init.any Expr.noSideEffects)

/-- A variable of a loop that can go. -/
def unusedIterator (x : ℕ) : Bool := !(flags x).access_ref && !(flags x).access_get

/-- Which sources of a loop stay: those of the variables that are used, and one at least. -/
def stay : ℕ → List ℕ → List Bool
  | _, [] => []
  | size, x :: rest =>
    if unusedIterator flags x ∧ 1 < size then false :: stay (size - 1) rest
    else true :: stay size rest

/-- What stays of a list. -/
def keep {α : Type} : List Bool → List α → List α
  | true :: marks, a :: as => a :: keep marks as
  | false :: marks, _ :: as => keep marks as
  | _, _ => []

/-- The sources of a loop that stay. -/
def staying (allowIteratorOptimization : Bool) (xs : List ℕ) : List Bool :=
  if allowIteratorOptimization then stay flags xs.length xs else List.replicate xs.length true

mutual

def Stmt.visit : Stmt ν → Stmt ν
  | .expr e => .expr (e.visit (known table flags))
  | .let xs => .let (xs.filter fun x => !removed table flags x)
  | .ifThenElse cond if_true if_false =>
    .ifThenElse (cond.visit (known table flags)) if_true.visit if_false.visit
  | .block list finalList => .block (visitList list) (visitList finalList)
  | .while at_ cond body => .while at_ (cond.visit (known table flags)) body.visit
  | .for at_ allow iterators body =>
    .for at_ allow (keep (staying flags allow (iterators.map Prod.fst))
      (iterators.map fun it => (it.1, it.2.visit (known table flags)))) body.visit
  | .return none => .return none
  | .return (some e) => .return (some (e.visit (known table flags)))
  | .break => .break
  | .continue => .continue

def visitList : List (Stmt ν) → List (Stmt ν)
  | [] => []
  | s :: rest => s.visit :: visitList rest

end

end Remove

/-! ## What the mark of a loop promises -/

section Promise

variable (M : Meaning ε ν)

/-- A source that goes has done nothing. -/
def QuietSources : List Bool → List (Expr ν) → State ε ν → Prop
  | false :: marks, e :: es, s => (∃ v, M.eval e s = (s, some v)) ∧ QuietSources marks es s
  | true :: marks, e :: es, s =>
    match M.eval e s with
    | (_, none) => True
    | (s, some _) => QuietSources marks es s
  | _, _, _ => True

/-- Where sources go, no iterator does anything but give items, and those that go do not end before
the others. -/
def QuietStep (marks : List Bool) (its : List ν) (h : List ε) : Prop :=
  false ∈ marks → (∀ it ∈ its, ∃ r, M.next it h = ([], some r)) ∧
    ((∀ it ∈ keep marks its, M.next it h ≠ ([], some none)) →
      ∀ it ∈ its, M.next it h ≠ ([], some none))

/-- So it is in all turns of a loop. -/
def QuietTurns (at_ : ℕ) (xs : List ℕ) (body : State ε ν → State ε ν × Control ν)
    (promised : State ε ν → Prop) (marks : List Bool) :
    ℕ → List (ν × ν) → State ε ν → Prop
  | 0, _, _ => True
  | turns + 1, ps, s =>
    promised { s.turn at_ with env := bindAll xs (ps.map Prod.fst) s.env } ∧
    match body { s.turn at_ with env := bindAll xs (ps.map Prod.fst) s.env } with
    | (s, .done) | (s, .continue) =>
      QuietStep M marks (ps.map Prod.snd) s.effects ∧
      match M.advance true (ps.map Prod.snd) s.effects with
      | (h, some (some ps)) =>
        QuietTurns at_ xs body promised marks turns ps { s with effects := h }
      | _ => True
    | _ => True

/-- The turns of `while`. -/
def PromisedTurns (at_ : ℕ) (cond : Expr ν) (body : State ε ν → State ε ν × Control ν)
    (promised : State ε ν → Prop) : ℕ → State ε ν → Prop
  | 0, _ => True
  | turns + 1, s =>
    match M.eval cond s with
    | (_, none) => True
    | (s, some v) => M.truth v = true → promised (s.turn at_) ∧
      match body (s.turn at_) with
      | (s, .done) | (s, .continue) => PromisedTurns at_ cond body promised turns s
      | _ => True

variable (table : ℕ → Variable ν) (flags : ℕ → Access) (turns : ℕ)

mutual

/-- **The marks of loops keep their promise**, in a run. -/
def Promised : Stmt ν → State ε ν → Prop
  | .ifThenElse cond if_true if_false, s =>
    match M.eval cond s with
    | (_, none) => True
    | (s, some v) => if M.truth v then Promised if_true s else Promised if_false s
  | .block list finalList, s =>
    PromisedList list s ∧ ((M.execList table turns list s).2.lost = false →
      PromisedFinals finalList (M.execList table turns list s).1)
  | .while at_ cond body, s =>
    PromisedTurns M at_ cond (M.exec table turns body) (fun s => Promised body s) turns s
  | .for at_ allow iterators body, s =>
    QuietSources M (staying flags allow (iterators.map Prod.fst)) (iterators.map Prod.snd) s ∧
    match M.evalAll (iterators.map Prod.snd) s with
    | (_, none) => True
    | (s, some its) =>
      QuietStep M (staying flags allow (iterators.map Prod.fst)) its s.effects ∧
      match M.advance false its s.effects with
      | (h, some (some ps)) =>
        QuietTurns M at_ (iterators.map Prod.fst) (M.exec table turns body)
          (fun s => Promised body s) (staying flags allow (iterators.map Prod.fst)) turns ps
          { s with effects := h }
      | _ => True
  | _, _ => True

def PromisedList : List (Stmt ν) → State ε ν → Prop
  | [], _ => True
  | first :: rest, s => Promised first s ∧ ((M.exec table turns first s).2 = .done →
      PromisedList rest (M.exec table turns first s).1)

def PromisedFinals : List (Stmt ν) → State ε ν → Prop
  | [], _ => True
  | first :: rest, s => Promised first s ∧ ((M.exec table turns first s).2.lost = false →
      PromisedFinals rest (M.exec table turns first s).1)

end

end Promise

/-! ## Scopes -/

section Scopes

variable (table : ℕ → Variable ν) (loops : List ℕ)

/-- The variables that are read are in scope. -/
def ReadsIn (scope : List ℕ) (vars : List ExprVar) : Prop := ∀ v ∈ vars, v.id ∈ scope

/-- The variables a statement declares for what follows it. -/
def Stmt.declared : Stmt ν → List ℕ
  | .let xs => xs
  | _ => []

mutual

/-- `hasEarlyOut`: it may leave the block. -/
def Stmt.mayStop : Stmt ν → Bool
  | .ifThenElse _ if_true if_false => if_true.mayStop || if_false.mayStop
  | .block list finalList => mayStopAny list || mayStopAny finalList
  | .while _ _ body => body.mayStop
  | .for _ _ _ body => body.mayStop
  | .return _ => true
  | .break => true
  | .continue => true
  | _ => false

def mayStopAny : List (Stmt ν) → Bool
  | [] => false
  | s :: rest => s.mayStop || mayStopAny rest

end

/-- What is declared before the block may be left. -/
def early : List (Stmt ν) → List ℕ
  | [] => []
  | s :: rest => s.declared ++ if s.mayStop then [] else early rest

/-- An initializer sees the variables before it; what is declared is no argument, of a function or
of a loop. -/
def ScopedLet : List ℕ → List ℕ → Prop
  | _, [] => True
  | scope, x :: xs => ((table x).accessExtern = false ∧ x ∉ loops) ∧
    ReadsIn scope (((table x).init.map Expr.vars).getD []) ∧ ScopedLet (x :: scope) xs

mutual

/-- **What is read is in scope**; the finally list sees what is declared before its block may be
left. -/
def Scoped : List ℕ → Stmt ν → Prop
  | scope, .expr e => ReadsIn scope e.vars
  | scope, .let xs => ScopedLet table loops scope xs
  | scope, .ifThenElse cond if_true if_false =>
    ReadsIn scope cond.vars ∧ Scoped scope if_true ∧ Scoped scope if_false
  | scope, .block list finalList =>
    ScopedList scope list ∧ ScopedList (early list ++ scope) finalList
  | scope, .while _ cond body => ReadsIn scope cond.vars ∧ Scoped scope body
  | scope, .for _ _ iterators body =>
    (∀ x ∈ iterators.map Prod.fst, (table x).init = none) ∧
      ReadsIn scope (Expr.varsAll (iterators.map Prod.snd)) ∧
      Scoped (iterators.map Prod.fst ++ scope) body
  | scope, .return (some e) => ReadsIn scope e.vars
  | _, _ => True

def ScopedList : List ℕ → List (Stmt ν) → Prop
  | _, [] => True
  | scope, s :: rest => Scoped scope s ∧ ScopedList (s.declared ++ scope) rest

end

end Scopes

/-! ## What stays of a loop -/

section Stay

theorem stay_length (flags : ℕ → Access) (size : ℕ) (xs : List ℕ) :
    (stay flags size xs).length = xs.length := by
  induction xs generalizing size with
  | nil => rfl
  | cons x rest ih =>
    rw [stay]
    split
    · exact congrArg Nat.succ (ih _)
    · exact congrArg Nat.succ (ih _)

theorem staying_length (flags : ℕ → Access) (allow : Bool) (xs : List ℕ) :
    (staying flags allow xs).length = xs.length := by
  unfold staying
  split
  · exact stay_length _ _ _
  · exact List.length_replicate

variable {α β : Type}

theorem keep_map (f : α → β) (marks : List Bool) (l : List α) :
    keep marks (l.map f) = (keep marks l).map f := by
  induction marks generalizing l with
  | nil => cases l <;> rfl
  | cons mark marks ih =>
    cases l with
    | nil => cases mark <;> rfl
    | cons a l =>
      cases mark with
      | false => exact ih l
      | true => exact congrArg (List.cons (f a)) (ih l)

theorem keep_all {marks : List Bool} (h : false ∉ marks) {l : List α}
    (hlength : marks.length = l.length) : keep marks l = l := by
  induction marks generalizing l with
  | nil =>
    obtain rfl := List.length_eq_zero_iff.mp hlength.symm
    rfl
  | cons mark marks ih =>
    cases l with
    | nil => cases hlength
    | cons a l =>
      obtain ⟨hmark, hmarks⟩ := not_or.mp (fun hor => h (List.mem_cons.mpr hor))
      cases mark with
      | false => exact absurd rfl hmark
      | true => exact congrArg (List.cons a) (ih hmarks (Nat.succ.inj hlength))

theorem mem_of_mem_keep {marks : List Bool} {l : List α} {a : α} (h : a ∈ keep marks l) :
    a ∈ l := by
  induction marks generalizing l with
  | nil => cases l <;> cases h
  | cons mark marks ih =>
    cases l with
    | nil => cases mark <;> cases h
    | cons b l =>
      cases mark with
      | false => exact List.mem_cons_of_mem _ (ih h)
      | true =>
        obtain rfl | h := List.mem_cons.mp h
        · exact List.mem_cons_self
        · exact List.mem_cons_of_mem _ (ih h)

theorem mapM_keep {f : α → Option β} {marks : List Bool} {l : List α} {l' : List β}
    (h : l.mapM f = some l') : (keep marks l).mapM f = some (keep marks l') := by
  induction marks generalizing l l' with
  | nil => cases l <;> cases l' <;> rfl
  | cons mark marks ih =>
    cases l with
    | nil =>
      obtain rfl : [] = l' := Option.some.inj h
      cases mark <;> rfl
    | cons a l =>
      rw [List.mapM_cons] at h
      obtain ⟨b, hb, h⟩ := Option.bind_eq_some_iff.mp h
      obtain ⟨bs, hbs, h⟩ := Option.bind_eq_some_iff.mp h
      rw [← Option.some.inj h]
      cases mark with
      | false => exact ih hbs
      | true =>
        change (a :: keep marks l).mapM f = some (b :: keep marks bs)
        rw [List.mapM_cons, hb, ih hbs]
        rfl

theorem mapM_isSome {f : α → Option β} {l : List α} :
    (l.mapM f).isSome ↔ ∀ a ∈ l, (f a).isSome := by
  induction l with
  | nil => exact iff_of_true rfl fun _ ha => absurd ha List.not_mem_nil
  | cons a l ih =>
    rw [List.mapM_cons, List.forall_mem_cons, ← ih]
    cases f a with
    | none => simp
    | some b => cases l.mapM f <;> simp

end Stay

section Advance

variable (M : Meaning ε ν)

theorem advance_length {stops : Bool} {its : List ν} {h h' : List ε} {ps : List (ν × ν)}
    (hrun : M.advance stops its h = (h', some (some ps))) : ps.length = its.length := by
  induction its generalizing h h' ps with
  | nil =>
    cases hrun
    rfl
  | cons it its ih =>
    rw [Meaning.advance] at hrun
    generalize M.next it h = r at hrun
    obtain ⟨new, _ | _ | p⟩ := r
    · cases hrun
    · dsimp only at hrun
      split at hrun
      · cases hrun
      · generalize M.advance stops its (new ++ h) = q at hrun
        obtain ⟨h'', _ | r⟩ := q <;> cases hrun
    · dsimp only at hrun
      generalize hq : M.advance stops its (new ++ h) = q at hrun
      obtain ⟨h'', _ | _ | qs⟩ := q
      · cases hrun
      · cases hrun
      · cases hrun
        exact congrArg Nat.succ (ih hq)

theorem advance_quiet (stops : Bool) {its : List ν} {h : List ε}
    (hquiet : ∀ it ∈ its, ∃ r, M.next it h = ([], some r)) :
    M.advance stops its h = (h, some (its.mapM fun it => (M.next it h).2.join)) := by
  induction its with
  | nil => rfl
  | cons it its ih =>
    obtain ⟨hit, hrest⟩ := List.forall_mem_cons.mp hquiet
    obtain ⟨r, hr⟩ := hit
    rw [Meaning.advance, List.mapM_cons, hr]
    cases r with
    | none =>
      dsimp only [List.nil_append]
      split
      · rfl
      · rw [ih hrest]
        rfl
    | some p =>
      dsimp only [List.nil_append]
      rw [ih hrest]
      change _ = (h, some ((its.mapM fun it => (M.next it h).2.join).bind fun ps => some (p :: ps)))
      cases its.mapM fun it => (M.next it h).2.join <;> rfl

theorem advance_keep {marks : List Bool} {its : List ν} {h : List ε} (stops : Bool)
    (hlength : marks.length = its.length) (hquiet : QuietStep M marks its h) :
    M.advance stops (keep marks its) h =
      ((M.advance stops its h).1, (M.advance stops its h).2.map (Option.map (keep marks))) := by
  by_cases hgo : false ∈ marks
  · obtain ⟨hnothing, hends⟩ := hquiet hgo
    rw [advance_quiet M stops hnothing,
      advance_quiet M stops fun it hit => hnothing it (mem_of_mem_keep hit)]
    refine Prod.ext rfl (congrArg some ?_)
    cases hall : its.mapM fun it => (M.next it h).2.join with
    | some ps => exact mapM_keep hall
    | none =>
      have hsome : ∀ it ∈ its, ((M.next it h).2.join).isSome ↔ M.next it h ≠ ([], some none) := by
        intro it hit
        obtain ⟨r, hr⟩ := hnothing it hit
        rw [hr]
        cases r <;> simp
      refine Option.not_isSome_iff_eq_none.mp fun hkept => ?_
      have hevery : (its.mapM fun it => (M.next it h).2.join).isSome := by
        refine mapM_isSome.mpr fun it hit => (hsome it hit).mpr (hends (fun it' hit' => ?_) it hit)
        exact (hsome it' (mem_of_mem_keep hit')).mp (mapM_isSome.mp hkept it' hit')
      rw [hall] at hevery
      cases hevery
  · rw [keep_all hgo hlength]
    refine Prod.ext rfl ?_
    cases hrun : (M.advance stops its h).2 with
    | none => rfl
    | some r =>
      cases r with
      | none => rfl
      | some ps =>
        have hall : M.advance stops its h = ((M.advance stops its h).1, some (some ps)) :=
          Prod.ext rfl hrun
        have hps := advance_length M hall
        exact congrArg (some ∘ some) (keep_all hgo (hlength.trans hps.symm)).symm

end Advance

/-! ## Statements that do not stop -/

section Stays

variable (M : Meaning ε ν) (table : ℕ → Variable ν) (turns : ℕ)

theorem declare_control (xs : List ℕ) (s : State ε ν) :
    (M.declare table xs s).2 = .done ∨ (M.declare table xs s).2 = .panic := by
  induction xs generalizing s with
  | nil => exact .inl rfl
  | cons x xs ih =>
    rw [Meaning.declare]
    cases (table x).init with
    | none => exact ih _
    | some init =>
      dsimp only
      generalize M.eval init s = r
      obtain ⟨t, _ | v⟩ := r
      · exact .inr rfl
      · exact ih _

/-- It goes on after it, or nothing is run any more. -/
def Stays (r : State ε ν × Control ν) : Prop := r.2 = .done ∨ r.2.lost = true

variable {M table turns}

theorem whileLoop_stays {at_ : ℕ} {asks : Bool} {cond : Expr ν}
    {body : State ε ν → State ε ν × Control ν} (hbody : ∀ s, Stays (body s)) (turns : ℕ)
    (s : State ε ν) : Stays (M.whileLoop at_ asks cond body turns s) := by
  induction turns generalizing s with
  | zero => exact .inr rfl
  | succ turns ih =>
    rw [Meaning.whileLoop]
    generalize M.eval cond s = r
    obtain ⟨t, _ | v⟩ := r
    · exact .inr rfl
    · dsimp only [Meaning.choose]
      split
      · have h := hbody (t.turn at_)
        generalize body (t.turn at_) = q at h
        obtain ⟨u, c⟩ := q
        rcases h with rfl | hlost
        · exact ih u
        · cases c <;> first | (cases hlost; done) | exact .inr rfl
      · exact .inl rfl

theorem forLoop_stays {at_ : ℕ} {xs : List ℕ} {body : State ε ν → State ε ν × Control ν}
    (hbody : ∀ s, Stays (body s)) (turns : ℕ) (ps : List (ν × ν)) (s : State ε ν) :
    Stays (M.forLoop at_ xs body turns ps s) := by
  induction turns generalizing ps s with
  | zero => exact .inr rfl
  | succ turns ih =>
    rw [Meaning.forLoop]
    have h := hbody { s.turn at_ with env := bindAll xs (ps.map Prod.fst) s.env }
    generalize body _ = q at h
    obtain ⟨u, c⟩ := q
    rcases h with rfl | hlost
    · dsimp only
      generalize M.advance true _ _ = r
      obtain ⟨h', _ | _ | qs⟩ := r
      · exact .inr rfl
      · exact .inl rfl
      · exact ih qs _
    · cases c <;> first | (cases hlost; done) | exact .inr rfl

mutual

theorem exec_stays (s : Stmt ν) (hs : s.mayStop = false) (st : State ε ν) :
    Stays (M.exec table turns s st) := by
  cases s with
  | expr e =>
    rw [Meaning.exec]
    generalize M.eval e st = r
    obtain ⟨t, _ | v⟩ := r
    · exact .inr rfl
    · exact .inl rfl
  | «let» xs =>
    exact (declare_control M table xs st).imp_right fun hpanic => by
      rw [Meaning.exec, hpanic]
      rfl
  | ifThenElse cond if_true if_false =>
    obtain ⟨htrue, hfalse⟩ := Bool.or_eq_false_iff.mp hs
    rw [Meaning.exec]
    generalize M.eval cond st = r
    obtain ⟨t, _ | v⟩ := r
    · exact .inr rfl
    · dsimp only [Meaning.choose]
      split
      · exact exec_stays if_true htrue t
      · exact exec_stays if_false hfalse t
  | block list finalList =>
    obtain ⟨hlist, hfinal⟩ := Bool.or_eq_false_iff.mp hs
    have hrun := execList_stays list hlist st
    rw [Meaning.exec, Control.after]
    generalize M.execList table turns list st = r at hrun
    obtain ⟨t, c⟩ := r
    rcases hrun with rfl | hlost
    · have hrest := execFinals_stays finalList hfinal t
      dsimp only
      generalize M.execFinals table turns finalList t = q at hrest
      obtain ⟨u, c⟩ := q
      rcases hrest with rfl | hlost
      · exact .inl rfl
      · cases c <;> first | (cases hlost; done) | exact .inr rfl
    · dsimp only at hlost ⊢
      rw [if_pos hlost]
      exact .inr hlost
  | «while» at_ cond body => exact whileLoop_stays (fun t => exec_stays body hs t) turns st
  | «for» at_ allow iterators body =>
    rw [Meaning.exec]
    generalize M.evalAll _ st = r
    obtain ⟨t, _ | its⟩ := r
    · exact .inr rfl
    · dsimp only
      generalize M.advance false _ _ = q
      obtain ⟨h', _ | _ | qs⟩ := q
      · exact .inr rfl
      · exact .inl rfl
      · exact forLoop_stays (fun t => exec_stays body hs t) turns _ _
  | «return» subexpr => cases hs
  | «break» => cases hs
  | «continue» => cases hs

theorem execList_stays (list : List (Stmt ν)) (hlist : mayStopAny list = false) (st : State ε ν) :
    Stays (M.execList table turns list st) := by
  cases list with
  | nil => exact .inl rfl
  | cons s rest =>
    obtain ⟨hs, hrest⟩ := Bool.or_eq_false_iff.mp hlist
    have hrun := exec_stays s hs st
    rw [Meaning.execList]
    generalize M.exec table turns s st = r at hrun
    obtain ⟨t, c⟩ := r
    rcases hrun with rfl | hlost
    · exact execList_stays rest hrest t
    · cases c <;> first | (cases hlost; done) | exact .inr rfl

theorem execFinals_stays (list : List (Stmt ν)) (hlist : mayStopAny list = false)
    (st : State ε ν) : Stays (M.execFinals table turns list st) := by
  cases list with
  | nil => exact .inl rfl
  | cons s rest =>
    obtain ⟨hs, hrest⟩ := Bool.or_eq_false_iff.mp hlist
    have hrun := exec_stays s hs st
    rw [Meaning.execFinals]
    generalize M.exec table turns s st = r at hrun
    obtain ⟨t, c⟩ := r
    rcases hrun with rfl | hlost
    · exact execFinals_stays rest hrest t
    · dsimp only [Control.nextFinal] at hlost ⊢
      rw [if_pos hlost]
      exact .inr hlost

end

end Stays

end DaScript.UnusedLocals
