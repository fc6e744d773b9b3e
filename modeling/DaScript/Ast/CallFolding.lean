import DaScript.Ast.CondFolding

/-!
# Ast/CallFolding — calls that are removed, or replaced by a constant

The begin of `ConstFolding::visit ( ExprCall )` of `ast_const_folding.cpp`, for a call whose
arguments have no side effects.  `isNop` and `getSimpleConst` look at the body of the function, a
list of statements and a finally list.

What the second returns is what the function does; what the first removes is nothing exactly if
nothing is run in the finally list (`visitCall_iff`).
-/

namespace DaScript.CallFolding

open CondFolding (silentFinals execFinals_silent execFinals_loud loud)

/-- A function, as far as folding a call looks at it. -/
structure Func where
  builtIn : Bool
  userScenario : Bool
  body : Stmt

/-- An argument of a call: whether its type is `fakeContext` or `fakeLineInfo`, and its flag. -/
structure Argument where
  fake : Bool
  noSideEffects : Bool
  deriving DecidableEq, Repr

/-- What `visit ( ExprCall )` makes of a call; `kept` is for whatever comes after. -/
inductive Folded
  | removed
  | constant (e : Expr)
  | kept

def allNoSideEffects (arguments : List Argument) : Bool :=
  arguments.all fun arg => arg.fake || arg.noSideEffects

def isNop (func : Func) : Bool :=
  if func.builtIn then false
  else
    match func.body with
    | .block list finalList => list.length == 0 && finalList.length != 0
    | _ => false

section Folding

variable (constant : ℕ → Bool)

/-- `rtti_isConstant`: some leaves are, and their type is no reference. -/
def isConstant : Expr → Bool
  | .leaf id isRef _ => constant id && !isRef
  | _ => false

def getSimpleConst (func : Func) : Option Expr :=
  if func.builtIn then none
  else if func.userScenario then none
  else
    match func.body with
    | .block [.return (some subexpr) _] [] =>
      if isConstant constant subexpr then some subexpr else none
    | _ => none

/-- The begin of `visit ( ExprCall )`. -/
def visitCall (arguments : List Argument) (func : Func) : Folded :=
  if allNoSideEffects arguments then
    if isNop func then .removed
    else
      match getSimpleConst constant func with
      | some sc => .constant sc
      | none => .kept
  else .kept

/-- **Folding the call keeps what the function does**, whatever its leaves do and from every state:
where the call is removed a run leaves no effect, and where a constant stands for it the function
returns the constant, and that is all. -/
structure Preserved (arguments : List Argument) (func : Func) : Prop where
  removed : visitCall constant arguments func = .removed →
    ∀ (ε ν : Type) (M : Meaning ε ν) (turns : ℕ) (h : List ε),
      M.exec turns func.body h = (h, .done)
  constant : ∀ e, visitCall constant arguments func = .constant e →
    ∀ (ε ν : Type) (M : Meaning ε ν) (turns : ℕ) (h : List ε) (v : ν),
      (∀ h, M.eval e h = (h, some v)) → M.exec turns func.body h = (h, .return (some v))

variable {constant} {arguments : List Argument} {func : Func}

theorem isNop_eq (h : isNop func = true) : func.builtIn = false ∧
    ∃ finalList, func.body = .block [] finalList ∧ finalList ≠ [] := by
  unfold isNop at h
  split_ifs at h with hbuiltIn
  refine ⟨Bool.eq_false_iff.mpr hbuiltIn, ?_⟩
  split at h
  · rename_i list finalList hbody
    rw [Bool.and_eq_true, beq_iff_eq, List.length_eq_zero_iff, bne_iff_ne, Ne,
      List.length_eq_zero_iff] at h
    exact ⟨finalList, by rw [hbody, h.1], h.2⟩
  · cases h

theorem visitCall_removed (h : visitCall constant arguments func = .removed) :
    allNoSideEffects arguments = true ∧ isNop func = true := by
  unfold visitCall at h
  split_ifs at h with harguments hnop
  · exact ⟨harguments, hnop⟩
  · split at h <;> cases h

theorem getSimpleConst_eq {e : Expr} (h : getSimpleConst constant func = some e) :
    isConstant constant e = true ∧ ∃ moveSemantics,
      func.body = .block [.return (some e) moveSemantics] [] := by
  unfold getSimpleConst at h
  split_ifs at h with hbuiltIn huser
  split at h
  · rename_i subexpr moveSemantics hbody
    split_ifs at h with hconst
    cases h
    exact ⟨hconst, moveSemantics, hbody⟩
  · cases h

theorem visitCall_constant {e : Expr} (h : visitCall constant arguments func = .constant e) :
    getSimpleConst constant func = some e := by
  unfold visitCall at h
  split_ifs at h with harguments hnop
  split at h
  · rename_i sc hsc
    cases h
    exact hsc
  · cases h

/-! ## What is folded -/

section Runs

variable {ε ν : Type} {M : Meaning ε ν} {turns : ℕ}

theorem exec_finals {finalList : List Stmt} (hfinals : silentFinals finalList = true)
    (h : List ε) : M.exec turns (.block [] finalList) h = (h, .done) := by
  rw [Meaning.exec, Meaning.execList]
  unfold Control.after
  dsimp only
  rw [execFinals_silent finalList h hfinals]
  rfl

theorem exec_return_constant {e : Expr} (he : isConstant constant e = true)
    (moveSemantics : Bool) (h : List ε) {v : ν} (heval : ∀ h, M.eval e h = (h, some v)) :
    M.exec turns (.block [.return (some e) moveSemantics] []) h = (h, .return (some v)) := by
  have hreturn : M.exec turns (.return (some e) moveSemantics) h = (h, .return (some v)) := by
    have href : e.isRef = false := by
      cases e with
      | leaf id isRef isMakeLocal => exact Bool.not_eq_true' _ ▸ (Bool.and_eq_true_iff.mp he).2
      | _ => cases he
    rw [Meaning.exec, heval, href]
    rfl
  rw [Meaning.exec, Meaning.execList, hreturn]
  rfl

end Runs

theorem exec_finals_loud {finalList : List Stmt} (hfinals : silentFinals finalList = false) :
    (loud true).exec 1 (.block [] finalList) [] ≠ ([], .done) := by
  intro hexec
  have hloud := execFinals_loud (b := true) finalList [] hfinals
  have hexec' := congrArg (fun r => r.1) hexec
  rw [Meaning.exec, Meaning.execList] at hexec'
  unfold Control.after at hexec'
  exact absurd (congrArg List.length hexec') hloud.ne'

theorem isNop_block {finalList : List Stmt} (hbuiltIn : func.builtIn = false)
    (hbody : func.body = .block [] finalList) (hne : finalList ≠ []) : isNop func = true := by
  unfold isNop
  rw [hbuiltIn, if_neg Bool.false_ne_true, hbody]
  exact bne_iff_ne.mpr (List.length_pos_iff.mpr hne).ne'

/-- **What is folded is kept exactly if nothing is run in the finally list** of a function whose
list is empty and that is no built-in. -/
theorem visitCall_iff (constant : ℕ → Bool) (arguments : List Argument) (func : Func) :
    Preserved constant arguments func ↔
      (allNoSideEffects arguments = true → func.builtIn = false →
        ∀ finalList, func.body = .block [] finalList → silentFinals finalList = true) := by
  constructor
  · intro hkept harguments hbuiltIn finalList hbody
    by_contra hfinals
    have hne : finalList ≠ [] := by
      rintro rfl
      exact hfinals rfl
    have hremoved : visitCall constant arguments func = .removed := by
      unfold visitCall
      rw [if_pos harguments, if_pos (isNop_block hbuiltIn hbody hne)]
    have hexec := hkept.removed hremoved Unit Unit (loud true) 1 []
    rw [hbody] at hexec
    exact exec_finals_loud (Bool.eq_false_iff.mpr hfinals) hexec
  · intro hfinals
    refine ⟨fun hremoved ε ν M turns h => ?_, fun e hconstant ε ν M turns h v heval => ?_⟩
    · obtain ⟨harguments, hnop⟩ := visitCall_removed hremoved
      obtain ⟨hbuiltIn, finalList, hbody, -⟩ := isNop_eq hnop
      rw [hbody]
      exact exec_finals (hfinals harguments hbuiltIn finalList hbody) h
    · obtain ⟨he, moveSemantics, hbody⟩ := getSimpleConst_eq (visitCall_constant hconstant)
      rw [hbody]
      exact exec_return_constant he moveSemantics h heval

end Folding

/-- A function with nothing in its list, and a statement in its finally list. -/
def finallyOnly : Func := ⟨false, false, .block [] [.expr (.leaf 0 false false)]⟩

theorem finallyOnly_removed : ¬ Preserved (fun _ => false) [] finallyOnly :=
  fun h => exec_finals_loud rfl (h.removed rfl Unit Unit (loud true) 1 [])

end DaScript.CallFolding
