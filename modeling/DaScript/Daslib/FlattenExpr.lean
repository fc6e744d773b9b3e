import Mathlib.Tactic

/-!
# Daslib/FlattenExpr — the expressions that flatten folds

What `flatten_opt_common.das` and `flatten_opt_fold.das` look at: operators with the function that
inference found for them, calls, and a chain of one monoid as the list of its terms.
-/

namespace DaScript.Flatten

/-- `Type`, as far as it is asked for. -/
inductive BaseType
  | bool | int | string | float | other
  deriving DecidableEq

/-- A constant; a float that is a number has a place in an order, NaN has none. -/
inductive Value
  | bool (value : Bool)
  | int (value : ℤ)
  | string (value : String)
  | float (value : Option ℚ)
  | other (id : ℕ)
  deriving DecidableEq

/-- `ExprOp1.op` -/
inductive Op1
  | not | neg | other (name : String)
  deriving DecidableEq

/-- `ExprOp2.op` -/
inductive Op2
  | add | sub | mul | div
  | less | greater | lessEqual | greaterEqual | equal | notEqual
  | and | or | other (name : String)
  deriving DecidableEq

/-- What is known of `func`: whether it is there and built-in; and the type of the result. -/
structure Func where
  name : String
  builtIn : Bool
  result : BaseType

/-- `ExpressionPtr` -/
inductive Expr
  | const (value : Value)
  | var (name : String) (type : BaseType)
  | op1 (op : Op1) (func : Func) (subexpr : Expr)
  | op2 (op : Op2) (func : Func) (left right : Expr)
  | op3 (type : BaseType) (subexpr left right : Expr)
  | call (func : Func) (arguments : List Expr)
  | other (id : ℕ) (type : BaseType)

def Value.type : Value → BaseType
  | .bool _ => .bool
  | .int _ => .int
  | .string _ => .string
  | .float _ => .float
  | .other _ => .other

def Expr.type : Expr → BaseType
  | .const value => value.type
  | .var _ type | .op3 type _ _ _ | .other _ type => type
  | .op1 _ func _ | .op2 _ func _ _ | .call func _ => func.result

def isFloatValued (e : Expr) : Bool := e.type = .float

mutual

def isAllConst (hasSideeffects : Expr → Bool) : Expr → Bool
  | .const _ => true
  | .var _ _ | .other _ _ => false
  | .op1 _ _ subexpr => isAllConst hasSideeffects subexpr
  | .op2 _ _ left right => isAllConst hasSideeffects left && isAllConst hasSideeffects right
  | .op3 _ subexpr left right =>
    isAllConst hasSideeffects subexpr && isAllConst hasSideeffects left &&
      isAllConst hasSideeffects right
  | .call func arguments =>
    func.builtIn && !hasSideeffects (.call func arguments) &&
      areAllConst hasSideeffects arguments

/-- The loop over the arguments. -/
def areAllConst (hasSideeffects : Expr → Bool) : List Expr → Bool
  | [] => true
  | a :: arguments => isAllConst hasSideeffects a && areAllConst hasSideeffects arguments

end

/-! ## Chains -/

/-- `addOp`: which of the monoids. -/
inductive Chain
  | sum | product
  deriving DecidableEq

def Chain.addOp : Chain → Op2
  | .sum => .add
  | .product => .mul

def Chain.subOp : Chain → Op2
  | .sum => .sub
  | .product => .div

/-- An operator that the chain goes on below. -/
def Chain.has (addOp : Chain) (op : Op2) : Bool :=
  match addOp with
  | .sum => op = .add ∨ op = .sub
  | .product => op = .mul

structure ReTerm where
  neg : Bool
  e : Expr

/-- `collect_add` and `collect_mul`; there is no minus sign in a product. -/
def collect (addOp : Chain) : Expr → Bool → List ReTerm
  | .op2 op func left right, neg =>
    if addOp.has op then
      collect addOp left neg ++ collect addOp right (if op = .sub then !neg else neg)
    else [⟨neg, .op2 op func left right⟩]
  | .op1 op func subexpr, neg =>
    if addOp = .sum ∧ op = .neg then collect addOp subexpr !neg
    else [⟨neg, .op1 op func subexpr⟩]
  | e, neg => [⟨neg, e⟩]

/-- The function of an operator that is made anew: the next inference finds the built-in one. -/
def inferred (type : BaseType) : Func := ⟨"", true, type⟩

def negate (e : Expr) : Expr := .op1 .neg (inferred e.type) e

/-- The body of the loop of `build_chain`. -/
def buildNext (addOp : Chain) (acc : Expr) (t : ReTerm) : Expr :=
  .op2 (if t.neg then addOp.subOp else addOp.addOp) (inferred acc.type) acc t.e

/-- `build_chain`, of the first term and of the others. -/
def buildChain (addOp : Chain) (first : ReTerm) (terms : List ReTerm) : Expr :=
  terms.foldl (buildNext addOp) (if first.neg then negate first.e else first.e)

/-! ## The terms of a chain -/

section Collect

variable {addOp : Chain}

/-- The chain ends here. -/
def Ends (addOp : Chain) (e : Expr) : Prop := ∀ neg, collect addOp e neg = [⟨neg, e⟩]

theorem ends_of_mem_collect {e : Expr} {neg : Bool} {t : ReTerm} (h : t ∈ collect addOp e neg) :
    Ends addOp t.e := by
  induction e, neg using collect.induct addOp with
  | case1 op func left right neg hop ihl ihr =>
    rw [collect, if_pos hop, List.mem_append] at h
    exact h.elim ihl ihr
  | case2 op func left right neg hop =>
    rw [collect, if_neg hop, List.mem_singleton] at h
    subst h
    intro neg
    rw [collect, if_neg hop]
  | case3 op func subexpr neg hop ih =>
    rw [collect, if_pos hop] at h
    exact ih h
  | case4 op func subexpr neg hop =>
    rw [collect, if_neg hop, List.mem_singleton] at h
    subst h
    intro neg
    rw [collect, if_neg hop]
  | case5 e neg hop2 hop1 =>
    cases e with
    | op2 op func left right => exact absurd rfl (hop2 op func left right)
    | op1 op func subexpr => exact absurd rfl (hop1 op func subexpr)
    | _ =>
      rw [collect, List.mem_singleton] at h
      · subst h
        intro neg
        rw [collect] <;> simp
      all_goals simp

/-- A minus sign is there in sums only. -/
def Signed (addOp : Chain) (t : ReTerm) : Prop := addOp = .product → t.neg = false

theorem signed_of_mem_collect {e : Expr} {neg : Bool} (hneg : addOp = .product → neg = false)
    {t : ReTerm} (h : t ∈ collect addOp e neg) : Signed addOp t := by
  induction e, neg using collect.induct addOp with
  | case1 op func left right neg hop ihl ihr =>
    rw [collect, if_pos hop, List.mem_append] at h
    refine h.elim (ihl hneg) (ihr fun hproduct => ?_)
    subst hproduct
    rw [of_decide_eq_true hop, if_neg (by simp), hneg rfl]
  | case2 op func left right neg hop =>
    rw [collect, if_neg hop, List.mem_singleton] at h
    exact h ▸ hneg
  | case3 op func subexpr neg hop ih =>
    rw [collect, if_pos hop] at h
    exact ih (fun hproduct => absurd (hop.1.symm.trans hproduct) (by simp)) h
  | case4 op func subexpr neg hop =>
    rw [collect, if_neg hop, List.mem_singleton] at h
    exact h ▸ hneg
  | case5 e neg hop2 hop1 =>
    rw [collect, List.mem_singleton] at h
    · exact h ▸ hneg
    · exact hop2
    · exact hop1

theorem collect_buildNext (acc : Expr) {t : ReTerm} (ht : Ends addOp t.e) (hs : Signed addOp t) :
    collect addOp (buildNext addOp acc t) false = collect addOp acc false ++ [t] := by
  obtain ⟨neg, e⟩ := t
  cases addOp with
  | sum =>
    cases neg <;> simp [buildNext, collect, Chain.has, Chain.addOp, Chain.subOp, ht _]
  | product =>
    obtain rfl : neg = false := hs rfl
    simp [buildNext, collect, Chain.has, Chain.addOp, ht _]

theorem collect_buildChain {first : ReTerm} {terms : List ReTerm}
    (hends : ∀ t ∈ first :: terms, Ends addOp t.e)
    (hsigned : ∀ t ∈ first :: terms, Signed addOp t) :
    collect addOp (buildChain addOp first terms) false = first :: terms := by
  induction terms using List.reverseRecOn with
  | nil =>
    obtain ⟨neg, e⟩ := first
    have he : Ends addOp e := hends _ List.mem_cons_self
    rw [buildChain, List.foldl_nil]
    cases neg with
    | false => exact he false
    | true =>
      cases addOp with
      | sum =>
        rw [if_pos rfl, negate, collect, if_pos ⟨rfl, rfl⟩]
        exact he true
      | product => exact absurd (hsigned _ List.mem_cons_self rfl) (by simp)
  | append_singleton terms t ih =>
    have hsub : ∀ t' ∈ first :: terms, t' ∈ first :: (terms ++ [t]) := fun t' h =>
      List.mem_append_left [t] h
    have ht : t ∈ first :: (terms ++ [t]) := List.mem_cons_of_mem _ List.mem_concat_self
    rw [buildChain, List.foldl_append, List.foldl_cons, List.foldl_nil,
      collect_buildNext _ (hends t ht) (hsigned t ht)]
    exact congrArg (· ++ [t])
      (ih (fun t h => hends t (hsub t h)) fun t h => hsigned t (hsub t h))

end Collect

end DaScript.Flatten
