import Mathlib.Tactic

/-!
# Ast/SideEffects — which expressions have none

`NoSideEffectVisitor` of `ast_const_folding.cpp`, and what `ConstFolding` deletes on its word.  An
expression is a node over its children (`subexpr`, `left`, `right`, `arguments`, `values`, in their
order).  Some kinds of node ask their children and their function; others are given the flag in
`preVisit`, whatever is below them.

What nodes do is a parameter (`Meaning`), where functions do as their `sideEffectFlags` say.  State
is what a program can observe of it: temporaries and errors are none of it.
-/

namespace DaScript.SideEffects

def modifyArgument : ℕ := 2 ^ 3

/-- A function, as far as folding a call looks at it; `returnsConst` is the constant the last
statement of its body returns. -/
structure Func where
  sideEffectFlags : ℕ
  builtIn : Bool
  userScenario : Bool
  list : ℕ
  finalList : ℕ
  returnsConst : Option ℕ
  deriving DecidableEq, Repr

namespace Func

/-- `isNop`: it takes an empty list with a finally list for nothing. -/
def isNop (f : Func) : Bool := !f.builtIn && f.list == 0 && f.finalList != 0

/-- `getSimpleConst`: a function which is 'return const'. -/
def getSimpleConst (f : Func) : Option ℕ :=
  if f.builtIn ∨ f.userScenario then none
  else if f.list = 1 ∧ f.finalList = 0 then f.returnsConst
  else none

end Func

/-- What `a[i]` indexes. -/
inductive Indexed
  | mutableHandle | table | other
  deriving DecidableEq, Repr

/-- **The kinds of node**: `other` is every kind the visitor says nothing of. -/
inductive Kind
  | const (value : ℕ)
  | var (id : ℕ)
  | addr (id : ℕ)
  | makeBlock (id : ℕ)
  | makeGenerator (id : ℕ)
  | find | keyExists | swizzle (mask : ℕ) | field (id : ℕ) | safeField (id : ℕ)
  | isVariant (id : ℕ) | asVariant (id : ℕ) | safeAsVariant (id : ℕ)
  | «at» (indexed : Indexed) | safeAt
  | cast | nullCoalescing | op1 (func : Func) | op2 (func : Func) | op3 | call (func : Func)
  | makeTuple | makeArray | makeStruct (block : Bool) | makeVariant
  | stringBuilder | ref2Value | ptr2Ref | ref2Ptr
  | other (id : ℕ)
  deriving DecidableEq, Repr

namespace Kind

/-- `rtti_isMakeLocal()` -/
def isMakeLocal : Kind → Bool
  | makeTuple | makeArray | makeStruct _ | makeVariant => true
  | _ => false

/-- No flag but `modifyArgument`: the effects are on arguments. -/
def onArguments (f : Func) : Bool := f.sideEffectFlags ||| modifyArgument == modifyArgument

/-- **The node itself changes what can be observed**, given whether it has arguments and all of
them are temporaries. -/
def acts (temporaries : Bool) : Kind → Bool
  | op1 f | op2 f => f.sideEffectFlags != 0
  | call f =>
    f.sideEffectFlags != 0 && !(temporaries && onArguments f) && f.getSimpleConst.isNone
  | «at» indexed => indexed != .other
  | makeStruct block => block
  | other _ => true
  | _ => false

/-- The flag is set before the children are seen. -/
def ignores : Kind → Bool
  | find | keyExists | swizzle _ | field _ | safeField _ | isVariant _ | asVariant _
  | safeAsVariant _ | safeAt | «at» .other => true
  | const _ | var _ | addr _ | makeBlock _ | makeGenerator _ => true
  | _ => false

end Kind

/-- **An expression.** -/
inductive Expression
  | node (kind : Kind) (children : List Expression)

namespace Expression

/-- `rtti_isMakeLocal()` -/
def isMakeLocal : Expression → Bool
  | node kind _ => kind.isMakeLocal

/-- There are arguments, and all are freshly-built make-local rvalues. -/
def temporaries (children : List Expression) : Bool :=
  !children.isEmpty && children.all isMakeLocal

mutual

/-- **`NoSideEffectVisitor`**: the flag it leaves.  A cast copies its child's flag before that is
computed, when it is false. -/
def noSideEffects : Expression → Bool
  | node kind children =>
    match kind with
    | .const _ | .var _ | .addr _ | .makeBlock _ | .makeGenerator _ => true
    | .find | .keyExists | .swizzle _ | .field _ | .safeField _ => true
    | .isVariant _ | .asVariant _ | .safeAsVariant _ | .safeAt => true
    | .at indexed => indexed == .other
    | .cast | .other _ => false
    | .op1 f | .op2 f => allNoSideEffects children && f.sideEffectFlags == 0
    | .call f =>
      (f.sideEffectFlags == 0 || temporaries children && Kind.onArguments f) &&
        allNoSideEffects children
    | .makeStruct block => !block && allNoSideEffects children
    | .nullCoalescing | .op3 | .makeTuple | .makeArray | .makeVariant | .stringBuilder
    | .ref2Value | .ptr2Ref | .ref2Ptr => allNoSideEffects children

def allNoSideEffects : List Expression → Bool
  | [] => true
  | e :: rest => noSideEffects e && allNoSideEffects rest

end

mutual

/-- The expression and its subexpressions. -/
def parts : Expression → List Expression
  | node kind children => node kind children :: partsList children

def partsList : List Expression → List Expression
  | [] => []
  | e :: rest => parts e ++ partsList rest

end

/-- The node has an effect of its own. -/
def acts : Expression → Bool
  | node kind children => kind.acts (temporaries children)

end Expression

/-- **What nodes do**, given the values of their children: functions and nodes that do not act
change nothing, and what a make-local makes is fresh. -/
structure Meaning (S V : Type) where
  truth : V → Bool
  isNull : V → Bool
  short : Func → V → Option V
  apply : Kind → List V → S → S × V
  fresh : V → Bool
  keeps : ∀ kind vs s, kind.acts (!vs.isEmpty && vs.all fresh) = false → (apply kind vs s).1 = s
  made : ∀ kind vs s, kind.isMakeLocal = true → fresh (apply kind vs s).2 = true
  simple : ∀ f c vs s, f.getSimpleConst = some c →
    apply (.call f) vs s = (s, (apply (.const c) [] s).2)

namespace Meaning

variable {S V : Type} (M : Meaning S V)

/-- Children one after the other. -/
def each : List (S → S × V) → S → S × List V
  | [], s => (s, [])
  | r :: rest, s => ((each rest (r s).1).1, (r s).2 :: (each rest (r s).1).2)

/-- **A node**, given its children: `?:`, `??`, `&&` and `||` do not run all of them. -/
def run (kind : Kind) (children : List (S → S × V)) (s : S) : S × V :=
  match kind, children with
  | .op3, [subexpr, left, right] =>
    let chosen := if M.truth (subexpr s).2 then left (subexpr s).1 else right (subexpr s).1
    M.apply .op3 [chosen.2] chosen.1
  | .nullCoalescing, [subexpr, defaultValue] =>
    let chosen := if M.isNull (subexpr s).2 then defaultValue (subexpr s).1 else subexpr s
    M.apply .nullCoalescing [chosen.2] chosen.1
  | .op2 f, [left, right] =>
    match M.short f (left s).2 with
    | some v => ((left s).1, v)
    | none => M.apply (.op2 f) [(left s).2, (right (left s).1).2] (right (left s).1).1
  | kind, children => M.apply kind (each children s).2 (each children s).1

mutual

def eval : Expression → S → S × V
  | .node kind children => M.run kind (runs children)

def runs : List Expression → List (S → S × V)
  | [] => []
  | e :: rest => eval e :: runs rest

end

end Meaning

/-- **Evaluating it changes nothing**, whatever the nodes mean, from any state. -/
def Pure (e : Expression) : Prop :=
  ∀ (S V : Type) (M : Meaning S V) (s : S), (M.eval e s).1 = s

/-! ## Deletions -/

/-- **What `ConstFolding` looks at to delete it** — a statement; an `if` with nothing in it; a `?:`
of one constant; a `for` with nothing in it, its sources with whether they are iterators; a call. -/
inductive Spot
  | statement (e : Expression)
  | ifThenElse (cond : Expression)
  | op3 (subexpr : Expression) (value : ℕ)
  | for (sources : List (Expression × Bool))
  | call (func : Func) (arguments : List Expression)

namespace Spot

open Expression

/-- It is deleted, on the strength of flags. -/
def deleted : Spot → Bool
  | statement e => e.noSideEffects
  | ifThenElse cond => cond.noSideEffects
  | op3 subexpr _ => subexpr.noSideEffects
  | «for» sources => sources.all fun src => src.1.noSideEffects && !src.2
  | call f arguments => allNoSideEffects arguments && (f.isNop || f.getSimpleConst.isSome)

/-- The expressions of a spot are parts of an expression. -/
def In (e : Expression) : Spot → Prop
  | statement x => x ∈ parts e
  | ifThenElse cond => cond ∈ parts e
  | op3 subexpr value =>
    node .op3 [subexpr, node (.const value) [], node (.const value) []] ∈ parts e
  | «for» sources => ∀ src ∈ sources, src.1 ∈ parts e
  | call f arguments => node (.call f) arguments ∈ parts e

variable {S V : Type} (M : Meaning S V)

/-- The state a spot leaves, and it was not deleted. -/
def run : Spot → S → S
  | statement e, s => (M.eval e s).1
  | ifThenElse cond, s => (M.eval cond s).1
  | op3 subexpr value, s =>
    (M.eval (node .op3 [subexpr, node (.const value) [], node (.const value) []]) s).1
  | «for» sources, s => (Meaning.each (M.runs (sources.map Prod.fst)) s).1
  | call f arguments, s => (M.eval (node (.call f) arguments) s).1

end Spot

/-- **The analysis is sound for an expression** and its parts: what has the flag changes nothing,
nor does any part of it, and what is deleted did nothing. -/
def Sound (e : Expression) : Prop :=
  (∀ p ∈ e.parts, p.noSideEffects = true → ∀ q ∈ p.parts, Pure q) ∧
    ∀ spot : Spot, spot.In e → spot.deleted = true →
      ∀ (S V : Type) (M : Meaning S V) (s : S), spot.run M s = s

open Expression

/-- **Nothing is hidden**: below a node that is given its flag no node acts, and no function that
acts is taken for one that does nothing. -/
def Clear (e : Expression) : Prop :=
  ∀ kind children, node kind children ∈ e.parts →
    (kind.ignores = true → ∀ q ∈ partsList children, q.acts = false) ∧
      ∀ f, kind = .call f → f.isNop = true → allNoSideEffects children = true →
        kind.acts (temporaries children) = false

/-! ## Parts -/

theorem mem_parts_self (e : Expression) : e ∈ e.parts := by
  cases e
  exact List.mem_cons_self ..

theorem mem_partsList {e : Expression} {children : List Expression} (h : e ∈ children)
    {q : Expression} (hq : q ∈ e.parts) : q ∈ partsList children := by
  induction children with
  | nil => exact absurd h List.not_mem_nil
  | cons c rest ih =>
    rw [partsList, List.mem_append]
    rcases List.mem_cons.mp h with rfl | h
    · exact Or.inl hq
    · exact Or.inr (ih h)

mutual

theorem parts_trans {p q : Expression} : ∀ e : Expression, p ∈ e.parts → q ∈ p.parts → q ∈ e.parts
  | node kind children, hp, hq => by
    rcases List.mem_cons.mp hp with rfl | hp
    · exact hq
    · exact List.mem_cons_of_mem _ (partsList_trans children hp hq)

theorem partsList_trans {p q : Expression} : ∀ children : List Expression,
    p ∈ partsList children → q ∈ p.parts → q ∈ partsList children
  | [], hp, _ => absurd hp List.not_mem_nil
  | c :: rest, hp, hq => by
    rcases List.mem_append.mp hp with hp | hp
    · exact List.mem_append_left _ (parts_trans c hp hq)
    · exact List.mem_append_right _ (partsList_trans rest hp hq)

end

theorem Clear.part {e p : Expression} (h : Clear e) (hp : p ∈ e.parts) : Clear p :=
  fun kind children hmem => h kind children (parts_trans e hp hmem)

/-! ## What the flag says -/

theorem flag_node {kind : Kind} {children : List Expression}
    (h : noSideEffects (node kind children) = true) :
    kind.acts (temporaries children) = false ∧
      (kind.ignores = true ∨ allNoSideEffects children = true) := by
  rw [noSideEffects.eq_def] at h
  cases kind with
  | «at» indexed =>
    cases indexed with
    | other => exact ⟨rfl, Or.inl rfl⟩
    | _ => exact nomatch h
  | cast => exact nomatch h
  | other id => exact nomatch h
  | op1 f =>
    obtain ⟨hall, hflags⟩ := Bool.and_eq_true_iff.mp h
    exact ⟨by rw [Kind.acts, bne, hflags]; rfl, Or.inr hall⟩
  | op2 f =>
    obtain ⟨hall, hflags⟩ := Bool.and_eq_true_iff.mp h
    exact ⟨by rw [Kind.acts, bne, hflags]; rfl, Or.inr hall⟩
  | call f =>
    obtain ⟨hfunc, hall⟩ := Bool.and_eq_true_iff.mp h
    refine ⟨?_, Or.inr hall⟩
    rcases Bool.or_eq_true_iff.mp hfunc with hflags | htemp
    · rw [Kind.acts, bne, hflags]
      rfl
    · rw [Kind.acts, htemp, Bool.not_true, Bool.and_false, Bool.false_and]
  | makeStruct block =>
    obtain ⟨hblock, hall⟩ := Bool.and_eq_true_iff.mp h
    exact ⟨by rw [Kind.acts]; simpa using hblock, Or.inr hall⟩
  | nullCoalescing => exact ⟨rfl, Or.inr h⟩
  | op3 => exact ⟨rfl, Or.inr h⟩
  | makeTuple => exact ⟨rfl, Or.inr h⟩
  | makeArray => exact ⟨rfl, Or.inr h⟩
  | makeVariant => exact ⟨rfl, Or.inr h⟩
  | stringBuilder => exact ⟨rfl, Or.inr h⟩
  | ref2Value => exact ⟨rfl, Or.inr h⟩
  | ptr2Ref => exact ⟨rfl, Or.inr h⟩
  | ref2Ptr => exact ⟨rfl, Or.inr h⟩
  | _ => exact ⟨rfl, Or.inl rfl⟩

mutual

theorem quiet_of_flag : ∀ e : Expression, Clear e → e.noSideEffects = true →
    ∀ q ∈ e.parts, q.acts = false
  | node kind children, hclear, hflag, q, hq => by
    obtain ⟨hacts, hbelow⟩ := flag_node hflag
    rcases List.mem_cons.mp hq with rfl | hq
    · exact hacts
    · rcases hbelow with hignores | hall
      · exact (hclear kind children (mem_parts_self _)).1 hignores q hq
      · refine quiet_of_flags children (fun c hc => ?_) hall q hq
        exact hclear.part (List.mem_cons_of_mem _ (mem_partsList hc (mem_parts_self c)))

theorem quiet_of_flags : ∀ children : List Expression, (∀ c ∈ children, Clear c) →
    allNoSideEffects children = true → ∀ q ∈ partsList children, q.acts = false
  | [], _, _, _, hq => absurd hq List.not_mem_nil
  | c :: rest, hclear, hall, q, hq => by
    rw [allNoSideEffects, Bool.and_eq_true] at hall
    rcases List.mem_append.mp hq with hq | hq
    · exact quiet_of_flag c (hclear c (List.mem_cons_self ..)) hall.1 q hq
    · exact quiet_of_flags rest (fun c hc => hclear c (List.mem_cons_of_mem _ hc)) hall.2 q hq

end

theorem flag_of_ignores {kind : Kind} {children : List Expression} (h : kind.ignores = true) :
    noSideEffects (node kind children) = true := by
  rw [noSideEffects.eq_def]
  cases kind with
  | «at» indexed => cases indexed <;> first | rfl | exact nomatch h
  | _ => first | rfl | exact nomatch h

theorem flag_of_mem {children : List Expression} (h : allNoSideEffects children = true)
    {c : Expression} (hc : c ∈ children) : c.noSideEffects = true := by
  induction children with
  | nil => exact absurd hc List.not_mem_nil
  | cons c' rest ih =>
    rw [allNoSideEffects, Bool.and_eq_true] at h
    rcases List.mem_cons.mp hc with rfl | hc
    · exact h.1
    · exact ih h.2 hc

/-! ## Running it -/

section Runs

variable {S V : Type} {M : Meaning S V}

theorem acts_mono {kind : Kind} {t t' : Bool} (h : t = true → t' = true)
    (hacts : kind.acts t = false) : kind.acts t' = false := by
  cases kind with
  | call f =>
    cases t
    · cases t'
      · exact hacts
      · simp only [Kind.acts, Bool.and_eq_false_iff, Bool.false_and, Bool.not_false] at hacts ⊢
        tauto
    · rw [h rfl]
      exact hacts
  | _ => exact hacts

theorem each_state {rs : List (S → S × V)} (h : ∀ r ∈ rs, ∀ s, (r s).1 = s) (s : S) :
    (Meaning.each rs s).1 = s := by
  induction rs generalizing s with
  | nil => rfl
  | cons r rest ih =>
    rw [Meaning.each, h r (List.mem_cons_self ..)]
    exact ih (fun r hr => h r (List.mem_cons_of_mem _ hr)) s

theorem run_state {kind : Kind} {rs : List (S → S × V)} (h : ∀ r ∈ rs, ∀ s, (r s).1 = s) (s : S)
    (hacts : kind.acts (!(Meaning.each rs s).2.isEmpty && (Meaning.each rs s).2.all M.fresh)
      = false) : (M.run kind rs s).1 = s := by
  unfold Meaning.run
  split
  · rename_i cond left right
    refine (M.keeps .op3 _ _ rfl).trans ?_
    split_ifs
    · rw [h left (by simp), h cond (by simp)]
    · rw [h right (by simp), h cond (by simp)]
  · rename_i subexpr defaultValue
    refine (M.keeps .nullCoalescing _ _ rfl).trans ?_
    split_ifs
    · rw [h defaultValue (by simp), h subexpr (by simp)]
    · exact h subexpr (by simp) s
  · rename_i f left right
    split
    · exact h left (by simp) s
    · refine (M.keeps (.op2 f) _ _ hacts).trans ?_
      rw [h right (by simp), h left (by simp)]
  · exact (M.keeps kind _ _ hacts).trans (each_state h s)

theorem each_fresh {rs : List (S → S × V)} (h : ∀ r ∈ rs, ∀ s, M.fresh (r s).2 = true) (s : S) :
    (Meaning.each rs s).2.all M.fresh = true := by
  induction rs generalizing s with
  | nil => rfl
  | cons r rest ih =>
    rw [Meaning.each, List.all_cons, h r (List.mem_cons_self ..)]
    exact ih (fun r hr => h r (List.mem_cons_of_mem _ hr)) _

theorem length_each (rs : List (S → S × V)) (s : S) :
    (Meaning.each rs s).2.length = rs.length := by
  induction rs generalizing s with
  | nil => rfl
  | cons r rest ih => rw [Meaning.each, List.length_cons, List.length_cons, ih]

theorem runs_eq_map (children : List Expression) : M.runs children = children.map M.eval := by
  induction children with
  | nil => rfl
  | cons c rest ih => rw [Meaning.runs, ih, List.map_cons]

theorem eval_fresh {e : Expression} (h : e.isMakeLocal = true) (s : S) :
    M.fresh (M.eval e s).2 = true := by
  obtain ⟨kind, children⟩ := e
  have h : kind.isMakeLocal = true := h
  rw [Meaning.eval]
  unfold Meaning.run
  split
  · exact nomatch h
  · exact nomatch h
  · exact nomatch h
  · exact M.made _ _ _ h

theorem fresh_of_temporaries {children : List Expression} (h : temporaries children = true)
    (s : S) : (!(Meaning.each (M.runs children) s).2.isEmpty &&
      (Meaning.each (M.runs children) s).2.all M.fresh) = true := by
  obtain ⟨hne, hall⟩ := Bool.and_eq_true_iff.mp h
  rw [runs_eq_map, Bool.and_eq_true_iff]
  constructor
  · rw [Bool.not_eq_true', List.isEmpty_eq_false_iff] at hne ⊢
    intro hnil
    refine hne (List.length_eq_zero_iff.mp ?_)
    rw [← List.length_map M.eval, ← length_each _ s, hnil]
    rfl
  · refine each_fresh (fun r hr s => ?_) s
    obtain ⟨c, hc, rfl⟩ := List.mem_map.mp hr
    exact eval_fresh (List.all_eq_true.mp hall c hc) s

theorem eval_node {kind : Kind} {children : List Expression}
    (hacts : kind.acts (temporaries children) = false)
    (h : ∀ c ∈ children, ∀ s, (M.eval c s).1 = s) (s : S) :
    (M.eval (node kind children) s).1 = s := by
  rw [Meaning.eval]
  refine run_state (fun r hr s => ?_) s (acts_mono (fun htemp => ?_) hacts)
  · rw [runs_eq_map] at hr
    obtain ⟨c, hc, rfl⟩ := List.mem_map.mp hr
    exact h c hc s
  · exact fresh_of_temporaries htemp s

mutual

theorem eval_quiet : ∀ e : Expression, (∀ q ∈ e.parts, q.acts = false) → ∀ s : S,
    (M.eval e s).1 = s
  | node _ children, hquiet, s =>
    eval_node (hquiet _ (mem_parts_self _)) (evals_quiet children fun q hq =>
      hquiet q (List.mem_cons_of_mem _ hq)) s

theorem evals_quiet : ∀ children : List Expression,
    (∀ q ∈ partsList children, q.acts = false) → ∀ c ∈ children, ∀ s : S, (M.eval c s).1 = s
  | [], _, _, hc, _ => absurd hc List.not_mem_nil
  | c :: rest, hquiet, c', hc', s => by
    rcases List.mem_cons.mp hc' with heq | hc'
    · rw [heq]
      exact eval_quiet c (fun q hq => hquiet q (List.mem_append_left _ hq)) s
    · exact evals_quiet rest (fun q hq => hquiet q (List.mem_append_right _ hq)) c' hc' s

end

end Runs

/-! ## A meaning that tells -/

/-- Every node that acts counts, unless its function is known to be a constant; what is not made
locally is not fresh. -/
def loudApply (kind : Kind) (vs : List Bool) (s : ℕ) : ℕ × Bool :=
  (if kind.acts (!vs.isEmpty && vs.all id) then s + 1 else s, kind.isMakeLocal)

theorem loudApply_simple {f : Func} {c : ℕ} (h : f.getSimpleConst = some c) (vs : List Bool)
    (s : ℕ) : loudApply (.call f) vs s = (s, false) := by
  rw [loudApply, Kind.acts, h, Option.isNone_some, Bool.and_false]
  rfl

/-- **The loud meaning.** -/
def loud : Meaning ℕ Bool where
  truth := id
  isNull := id
  short := fun _ _ => none
  apply := loudApply
  fresh := id
  keeps := fun kind vs s h => by rw [loudApply, h]; rfl
  made := fun _ _ _ h => h
  simple := fun _ _ vs s h => loudApply_simple h vs s

theorem eval_loud_snd (e : Expression) (s : ℕ) : (loud.eval e s).2 = e.isMakeLocal := by
  obtain ⟨kind, children⟩ := e
  rw [Meaning.eval]
  unfold Meaning.run
  split <;> rfl

theorem each_loud (children : List Expression) (s : ℕ) :
    (Meaning.each (loud.runs children) s).2 = children.map isMakeLocal := by
  induction children generalizing s with
  | nil => rfl
  | cons c rest ih =>
    rw [Meaning.runs, Meaning.each, List.map_cons, eval_loud_snd, ih]

theorem eval_loud {kind : Kind} {children : List Expression}
    (hacts : kind.acts (temporaries children) = true)
    (h : ∀ c ∈ children, ∀ s, (loud.eval c s).1 = s) (s : ℕ) :
    (loud.eval (node kind children) s).1 = s + 1 := by
  have hrun : ∀ r ∈ loud.runs children, ∀ s, (r s).1 = s := fun r hr s => by
    rw [runs_eq_map] at hr
    obtain ⟨c, hc, rfl⟩ := List.mem_map.mp hr
    exact h c hc s
  have htemp : (!(children.map isMakeLocal).isEmpty && (children.map isMakeLocal).all id)
      = temporaries children := by
    rw [temporaries, List.isEmpty_map, List.all_map]
    rfl
  rw [Meaning.eval]
  unfold Meaning.run
  split
  · exact nomatch hacts
  · exact nomatch hacts
  · rename_i f left right hruns
    rw [hruns] at hrun
    have hop2 : ∀ temp, Kind.acts temp (.op2 f) = true := fun _ => hacts
    change (loudApply (.op2 f) _ (right (left s).1).1).1 = s + 1
    rw [loudApply, if_pos (hop2 _), hrun right (by simp), hrun left (by simp)]
  · change (loudApply _ (Meaning.each (loud.runs children) s).2
      (Meaning.each (loud.runs children) s).1).1 = s + 1
    rw [loudApply, each_loud, htemp, if_pos hacts, each_state hrun]

/-! ## Soundness -/

/-- A function with a side effect. -/
def effectful : Func := ⟨4, true, false, 0, 0, none⟩

/-- `f().a` -/
def fieldOfCall : Expression := node (.field 0) [node (.call effectful) []]

end DaScript.SideEffects
