import Mathlib.Tactic

/-!
# Ast/Statements — blocks of statements, and what running them does

Blocks with their finally lists, `if`, `while`, `return`, `break` and `continue`, as the interpreter
runs them (`simulate/simulate.cpp`): a statement that stops ends its block, whose finally list then
runs whole, `evalFinal` keeping the stop for after it.

Expressions are leaves and `?:`.  What a leaf does is a parameter (`Meaning`): it sees the effects
so far and adds its own, so that a run is the effects it leaves and how it ends.
-/

namespace DaScript

/-- An expression, as far as `?:` shows it: whether its type is a reference, and whether it is made
in place. -/
inductive Expr
  | leaf (id : ℕ) (isRef isMakeLocal : Bool)
  | op3 (cond left right : Expr)
  | null
  deriving DecidableEq, Repr

namespace Expr

/-- `type->isRef()`; `?:` has the type of its left branch. -/
def isRef : Expr → Bool
  | leaf _ isRef _ => isRef
  | op3 _ left _ => left.isRef
  | null => false

/-- `rtti_isMakeLocal()` -/
def isMakeLocal : Expr → Bool
  | leaf _ _ isMakeLocal => isMakeLocal
  | _ => false

end Expr

/-- **A statement**; in a list, `expr` is an expression by itself. -/
inductive Stmt
  | expr (e : Expr)
  | ifThenElse (cond : Expr) (if_true : Stmt) (if_false : Option Stmt)
  | block (list finalList : List Stmt)
  | while (cond : Expr) (body : Stmt)
  | return (subexpr : Option Expr) (moveSemantics : Bool)
  | break
  | continue

/-- **What leaves do** — after the effects so far, the new ones, and a value or a panic; what it
takes to return a value by move; which values are true, and the integers they are.  An expression
that is not there may do anything. -/
structure Meaning (ε ν : Type) where
  leaf : ℕ → List ε → List ε × Option ν
  null : List ε → List ε × Option ν
  moved : ν → List ε → List ε × Option ν
  truth : ν → Bool
  index : ν → ℕ

/-- How a run ends: `stopFlags`, or no longer. -/
inductive Control (ν : Type)
  | done
  | return (v : Option ν)
  | break
  | continue
  | jump (label : ℕ)
  | panic
  | hang
  deriving DecidableEq

namespace Control

variable {σ ν : Type}

/-- A run has left the interpreter's loops: nothing more is run, finally or not. -/
def lost : Control ν → Bool
  | .panic | .hang => true
  | _ => false

/-- `evalFinal`: the finally list, unless nothing is run any more, and then what was to come. -/
def after (r : σ × Control ν) (finals : σ → σ × Control ν) : σ × Control ν :=
  match r with
  | (s, c) =>
    if c.lost then (s, c)
    else
      match finals s with
      | (s, c') => (s, if c'.lost then c' else c)

/-- One more statement, unless a stop was met. -/
def next (r : σ × Control ν) (rest : σ → σ × Control ν) : σ × Control ν :=
  match r with
  | (s, .done) => rest s
  | (s, c) => (s, c)

/-- One more statement, unless nothing is run any more. -/
def nextFinal (r : σ × Control ν) (rest : σ → σ × Control ν) : σ × Control ν :=
  match r with
  | (s, c) => if c.lost then (s, c) else rest s

theorem next_done (r : σ × Control ν) : next r (fun s => (s, .done)) = r := by
  obtain ⟨s, c⟩ := r
  cases c <;> rfl

theorem next_stop {r : σ × Control ν} (hstop : r.2 ≠ .done) (rest : σ → σ × Control ν) :
    next r rest = r := by
  obtain ⟨s, c⟩ := r
  cases c with
  | done => exact absurd rfl hstop
  | _ => rfl

theorem after_done (r : σ × Control ν) : after r (fun s => (s, .done)) = r := by
  obtain ⟨s, c⟩ := r
  cases c <;> rfl

theorem after_stop {r : σ × Control ν} (hstop : r.2 ≠ .done) (finals : σ → σ × Control ν) :
    (after r finals).2 ≠ .done := by
  obtain ⟨s, c⟩ := r
  unfold after
  dsimp only
  by_cases hlost : c.lost = true
  · rw [if_pos hlost]
    exact hstop
  · rw [if_neg hlost]
    by_cases hlost' : (finals s).2.lost = true
    · rw [if_pos hlost']
      intro hdone
      rw [show (finals s).2 = .done from hdone] at hlost'
      exact Bool.false_ne_true hlost'
    · rw [if_neg hlost']
      exact hstop

end Control

/-- The block has a finally list. -/
def Stmt.hasFinally : Stmt → Bool
  | .block _ finalList => !finalList.isEmpty
  | _ => false

variable {ε ν : Type}

namespace Meaning

variable (M : Meaning ε ν)

/-- A condition and what comes of it. -/
def choose {σ : Type} (r : σ × Option ν) (t f : σ → σ × Control ν) : σ × Control ν :=
  match r with
  | (s, none) => (s, .panic)
  | (s, some v) => if M.truth v then t s else f s

def eval : Expr → List ε → List ε × Option ν
  | .leaf id _ _, h => ((M.leaf id h).1 ++ h, (M.leaf id h).2)
  | .op3 cond left right, h =>
    match eval cond h with
    | (h, none) => (h, none)
    | (h, some v) => if M.truth v then eval left h else eval right h
  | .null, h => ((M.null h).1 ++ h, (M.null h).2)

/-- What a returned value goes through: only a reference has something to move from. -/
def give (isRef moveSemantics : Bool) (r : List ε × Option ν) : List ε × Option ν :=
  match r with
  | (h, none) => (h, none)
  | (h, some v) =>
    if isRef ∧ moveSemantics then ((M.moved v h).1 ++ h, (M.moved v h).2) else (h, some v)

/-- A loop is left; with a finally list behind its body the condition is asked once more. -/
def leave (asks : Bool) (cond : List ε → List ε × Option ν) (h : List ε) (c : Control ν) :
    List ε × Control ν :=
  if asks then
    match cond h with
    | (h, none) => (h, .panic)
    | (h, some _) => (h, c)
  else (h, c)

/-- `SimNode_While`, for so many turns. -/
def loop (asks : Bool) (cond : List ε → List ε × Option ν)
    (body : List ε → List ε × Control ν) : ℕ → List ε → List ε × Control ν
  | 0, h => (h, .hang)
  | turns + 1, h =>
    M.choose (cond h) (fun h =>
      match body h with
      | (h, .done) | (h, .continue) => loop asks cond body turns h
      | (h, .break) => leave asks cond h .done
      | (h, .return v) => leave asks cond h (.return v)
      | (h, c) => (h, c)) fun h => (h, .done)

/-- The value of a `return`. -/
def giveBack (r : List ε × Option ν) : List ε × Control ν :=
  match r with
  | (h, none) => (h, .panic)
  | (h, some v) => (h, .return (some v))

variable (turns : ℕ)

mutual

/-- **A run** after the effects `h`, the last first; loops get `turns`. -/
def exec : Stmt → List ε → List ε × Control ν
  | .expr e, h => M.choose (M.eval e h) (fun h => (h, .done)) fun h => (h, .done)
  | .ifThenElse cond if_true if_false, h =>
    M.choose (M.eval cond h) (fun h => exec if_true h) fun h => execElse if_false h
  | .block list finalList, h => Control.after (execList list h) fun h => execFinals finalList h
  | .while cond body, h => M.loop body.hasFinally (M.eval cond) (fun h => exec body h) turns h
  | .return none _, h => (h, .return none)
  | .return (some e) moveSemantics, h => giveBack (M.give e.isRef moveSemantics (M.eval e h))
  | .break, h => (h, .break)
  | .continue, h => (h, .continue)

/-- No else, nothing. -/
def execElse : Option Stmt → List ε → List ε × Control ν
  | none, h => (h, .done)
  | some s, h => exec s h

/-- `SimNode_Block`: one after the other, until one stops. -/
def execList : List Stmt → List ε → List ε × Control ν
  | [], h => (h, .done)
  | s :: rest, h => Control.next (exec s h) fun h => execList rest h

/-- The loop of `evalFinal`, which no stop ends. -/
def execFinals : List Stmt → List ε → List ε × Control ν
  | [], h => (h, .done)
  | s :: rest, h => Control.nextFinal (exec s h) fun h => execFinals rest h

end

end Meaning

end DaScript
